import TapePuzzle.Proofs.Execution.Runs

/-!
# Open blocks depend on the position only

A run keeps the blocks around its position as it walks, and a jump finds them anew by looking
upwards. Main statement: both always agree, so that two runs of one program that are at the same
line have the same blocks open, however they got there.
-/

namespace TapePuzzle

/-- The block at a level is opened by the nearest line above that is as deep as the level. -/
theorem Encloses.exists_header {above : List CodeLine} {blocks : List OpenBlock} {level : Nat}
    (h : Encloses above blocks) (hlevel : level < blocks.length) :
    ∃ block before header between, blocks.reverse[level]? = some block ∧
      above = before ++ header :: between ∧ header.block? = some block ∧ header.depth = level ∧
      ∀ line ∈ between, level < line.depth := by
  induction blocks with
  | nil => cases hlevel
  | cons block outer ih =>
      rw [List.reverse_cons]
      by_cases hlast : level = outer.length
      · obtain ⟨before, header, between, habove, hblock, hdepth, hbetween, -⟩ := h
        subst hlast
        exact ⟨block, before, header, between, by simp, habove, hblock, hdepth, hbetween⟩
      · have houter : level < outer.length := by
          rw [List.length_cons] at hlevel
          omega
        obtain ⟨block', before, header, between, hfound, hrest⟩ := ih h.tail houter
        refine ⟨block', before, header, between, ?_, hrest⟩
        rw [List.getElem?_append_left (by simpa using houter)]
        exact hfound

theorem mem_codeFrom {start distance depth : Nat} {statement : Statement} {lines : List Line}
    (h : lines[distance]? = some (.code depth statement)) :
    ⟨start + distance, depth, statement⟩ ∈ codeFrom start lines := by
  obtain ⟨hdistance, hline⟩ := List.getElem?_eq_some_iff.mp h
  rw [← List.take_append_drop distance lines, codeFrom_append,
    List.length_take_of_le (Nat.le_of_lt hdistance), List.drop_eq_getElem_cons hdistance, hline]
  simp

/-- In terms of the lines of a program: the block at a level is opened by the nearest line above of
    that depth. -/
theorem Standing.exists_header {lines : List Line} {index level : Nat} {blocks : List OpenBlock}
    (h : Standing lines index blocks) (hlevel : level < blocks.length) :
    ∃ block statement, blocks.reverse[level]? = some block ∧ block.header < index ∧
      lines[block.header]? = some (.code level statement) ∧ statement.opens? = some block.kind ∧
      ∀ between statement', block.header < between → between < index →
        lines[between]? ≠ some (.code level statement') := by
  obtain ⟨block, before, header, between, hfound, habove, hblock, hdepth, hbetween⟩ :=
    h.2.exists_header hlevel
  obtain ⟨kind, hkind, rfl⟩ := Option.map_eq_some_iff.mp hblock
  have hheader := getElem?_of_split habove
  rw [List.getElem?_take] at hheader
  split at hheader
  · rename_i hindex
    refine ⟨_, header.statement, hfound, hindex, ?_, hkind, ?_⟩
    · rw [hheader, ← hdepth]
      rfl
    · intro place statement' hafter hbefore hline
      dsimp only at hafter
      have hplace : ((lines.take index).drop (header.index + 1))[place - (header.index + 1)]? =
          some (.code level statement') := by
        rw [List.getElem?_drop, List.getElem?_take, if_pos (by omega), ← hline]
        congr 1
        omega
      have hmem : ⟨header.index + 1 + (place - (header.index + 1)), level, statement'⟩ ∈ between :=
        behind_of_split habove ▸ mem_codeFrom hplace
      exact Nat.lt_irrefl level (hbetween _ hmem)
  · cases hheader

/-- In every state of a run of a valid program that is at a line, the open blocks are those that
    looking upwards from this line finds: as many as the line is deep, and the one at each level is
    opened by the nearest line above of that depth. In any other run of the program that is at the
    same line, they are the same. -/
theorem Run.blocks_eq_enclosing (text : List Char) (hvalid : (Program.read text).isValid = true)
    (case : TestCase) (limit count index : Nat)
    (hposition :
      (Run.after (Program.read text) case limit count).control.position = some index) :
    let p := Program.read text
    let r := Run.after p case limit count
    ∃ depth, Control.depthAt p.lines index = .ok depth ∧
      Control.enclosing p.lines index depth index = .ok r.control.blocks ∧
      r.control.blocks.length = depth ∧
      (∀ level, level < depth →
        ∃ block statement, r.control.blocks.reverse[level]? = some block ∧ block.header < index ∧
          p.lines[block.header]? = some (.code level statement) ∧
          statement.opens? = some block.kind ∧
          ∀ between statement', block.header < between → between < index →
            p.lines[between]? ≠ some (.code level statement')) ∧
      ∀ case' limit' count',
        (Run.after p case' limit' count').control.position = some index →
          (Run.after p case' limit' count').control.blocks = r.control.blocks := by
  intro p r
  obtain ⟨names, hp⟩ := Program.exists_sound_read hvalid
  have hstanding : ∀ case limit count,
      (Run.after p case limit count).control.position = some index →
        Standing p.lines index (Run.after p case limit count).control.blocks := by
    intro case limit count hposition
    exact (Run.sound_after_of_sound hp hvalid case limit count).control.standing index hposition
  have hblocks := hstanding case limit count hposition
  obtain ⟨above, line, behind, hsplit, hindex, -, hlength⟩ := hblocks.exists_split
  refine ⟨line.depth, ?_, ?_, hlength, ?_, ?_⟩
  · rw [← hindex]
    exact Control.depthAt_of_split hsplit
  · rw [← hlength]
    exact hblocks.enclosing_eq index
  · intro level hlevel
    exact hblocks.exists_header (by omega)
  · intro case' limit' count' hposition'
    exact (hstanding case' limit' count' hposition').unique hblocks

/-- A text that jumps into a loop inside an `if`. -/
def jumpIntoInnerLoop : List Char :=
  ("tally 1\n.data\ntapelength 1\n0 n 2\n.text\n" ++
    "jump in\nif (n):\n while (n):\n  in:\n  n = n - 1\n").toList

theorem Run.blocks_eq_enclosing_jumpIntoInnerLoop :
    (Program.read jumpIntoInnerLoop).isValid = true ∧
      (Run.after (Program.read jumpIntoInnerLoop) {} 9 2).control.position = some 4 ∧
      ∃ depth, Control.depthAt (Program.read jumpIntoInnerLoop).lines 4 = .ok depth ∧
        Control.enclosing (Program.read jumpIntoInnerLoop).lines 4 depth 4 =
          .ok (Run.after (Program.read jumpIntoInnerLoop) {} 9 2).control.blocks ∧
        (Run.after (Program.read jumpIntoInnerLoop) {} 9 2).control.blocks.length = depth := by
  have hvalid : (Program.read jumpIntoInnerLoop).isValid = true := by decide +kernel
  have hposition :
      (Run.after (Program.read jumpIntoInnerLoop) {} 9 2).control.position = some 4 := by
    decide +kernel
  obtain ⟨depth, hdepth, henclosing, hlength, -⟩ :=
    Run.blocks_eq_enclosing jumpIntoInnerLoop hvalid {} 9 2 4 hposition
  exact ⟨hvalid, hposition, depth, hdepth, henclosing, hlength⟩

end TapePuzzle
