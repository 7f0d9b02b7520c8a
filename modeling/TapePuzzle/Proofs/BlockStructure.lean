import TapePuzzle.Proofs.Reading.NameRoles

/-!
# The block structure of valid programs

`Nested` follows the reader: it says what may come next, given the blocks that are open. Here the
same is said by comparing lines only, which is what a run relies on when it goes from line to line
and looks for headers. Main statement: the lines of every valid program are well nested in this
sense, and every label marks a line that executes nothing.
-/

namespace TapePuzzle

/-- Lines with statements are well nested. -/
structure WellNested (code : List CodeLine) : Prop where
  first : ∀ {line rest}, code = line :: rest → line.depth = 0
  /-- A header is followed by a line of its block. -/
  header : ∀ {above line next behind}, code = above ++ line :: next :: behind →
    line.statement.opens?.isSome = true → next.depth = line.depth + 1
  /-- Any other line is followed by one that is in no block but those around it. -/
  plain : ∀ {above line next behind}, code = above ++ line :: next :: behind →
    line.statement.opens? = none → next.depth ≤ line.depth
  last : ∀ {above line}, code = above ++ [line] → line.statement.opens? = none
  /-- The nearest line above an `else` that is not deeper is its `if`, and the block of the `if` has
      a line. -/
  otherwise : ∀ {above line behind}, code = above ++ line :: behind → line.isElse = true →
    ∃ before header between condition, above = before ++ header :: between ∧
      header.statement.action = .ifTrue condition ∧ header.depth = line.depth ∧ between ≠ [] ∧
      ∀ inner ∈ between, line.depth < inner.depth

/-! ## Neighbours -/

theorem CodeLine.block?_eq_none_iff {line : CodeLine} :
    line.block? = none ↔ line.statement.opens? = none := by
  simp [CodeLine.block?]

theorem CodeLine.ifTrue_of_block? {line : CodeLine} {block : OpenBlock}
    (h : line.block? = some block) (hkind : block.kind = .ifBlock) :
    ∃ condition, line.statement.action = .ifTrue condition := by
  obtain ⟨kind, hopens, rfl⟩ := Option.map_eq_some_iff.mp h
  obtain rfl : kind = .ifBlock := hkind
  unfold Statement.opens? at hopens
  split at hopens
  · rename_i condition haction
    exact ⟨condition, haction⟩
  all_goals cases hopens

namespace Nested

variable {above behind : List CodeLine} {line next : CodeLine}

theorem depth_next (h : Nested [] none (above ++ line :: next :: behind)) :
    (line.block?.isSome = true → next.depth = line.depth + 1) ∧
      (line.block? = none → next.depth ≤ line.depth) := by
  obtain ⟨around, -, hlength, hnext⟩ := h.split
  generalize line.block? = due at hnext
  cases hnext with
  | enter hdepth helse hrest =>
      refine ⟨fun _ => ?_, by simp⟩
      rw [hdepth, hlength]
  | stay hblocks hdepth helse hrest =>
      refine ⟨by simp, fun _ => ?_⟩
      rw [hdepth, ← hlength, hblocks, List.length_append]
      exact Nat.le_add_left _ _

theorem block?_last (h : Nested [] none (above ++ [line])) : line.block? = none := by
  obtain ⟨around, -, -, hnext⟩ := h.split
  generalize line.block? = due at hnext
  cases hnext
  rfl

/-- The line in front of an `else` closes no block that the `else` does not close, and the outermost
    that they close is the block of the `if`. -/
theorem exists_if (h : Nested [] none (above ++ line :: behind)) (helse : line.isElse = true) :
    ∃ before header between condition, above = before ++ header :: between ∧
      header.statement.action = .ifTrue condition ∧ header.depth = line.depth ∧ between ≠ [] ∧
      ∀ inner ∈ between, line.depth < inner.depth := by
  rcases List.eq_nil_or_concat above with rfl | ⟨farther, prev, rfl⟩
  · -- an `else` in the first line has no block to leave
    cases h with
    | stay hblocks hdepth hleaves hrest =>
        obtain ⟨block, hblock, -⟩ := hleaves helse
        rw [(List.append_eq_nil_iff.mp hblocks.symm).1] at hblock
        cases hblock
  · rw [List.concat_eq_append] at h ⊢
    rw [List.append_assoc] at h
    obtain ⟨around, hencloses, hlength, hnext⟩ := Nested.split h
    cases hdue : prev.block? with
    | some block =>
        rw [hdue] at hnext
        cases hnext with
        | enter hdepth hnot hrest =>
            rw [helse] at hnot
            cases hnot
    | none =>
        rw [hdue] at hnext
        cases hnext with
        | @stay _ closed kept _ _ hblocks hdepth hleaves hrest =>
            obtain ⟨block, hblock, hkind⟩ := hleaves helse
            obtain ⟨inner, rfl⟩ := List.getLast?_eq_some_iff.mp hblock
            have habove := hencloses.concat hlength
            rw [hdue, Option.toList_none, List.nil_append, hblocks, List.append_assoc] at habove
            have hblockAbove : Encloses (farther ++ [prev]) (block :: kept) := habove.of_append
            obtain ⟨before, header, between, heq, hheader, hlevel, hdeep, -⟩ := hblockAbove
            obtain ⟨condition, hcondition⟩ := CodeLine.ifTrue_of_block? hheader hkind
            refine ⟨before, header, between, condition, heq, hcondition, ?_, ?_, ?_⟩
            · rw [hlevel, hdepth]
            · rintro rfl
              have hprev := List.append_inj_right' heq rfl
              rw [List.singleton_inj.mp hprev, hheader] at hdue
              cases hdue
            · intro line' hline'
              rw [hdepth]
              exact hdeep line' hline'

theorem wellNested {code : List CodeLine} (h : Nested [] none code) : WellNested code where
  first := by
    rintro line rest rfl
    exact h.depth_head
  header := by
    rintro above line next behind rfl hopens
    exact h.depth_next.1 (by simpa [CodeLine.block?] using hopens)
  plain := by
    rintro above line next behind rfl hopens
    exact h.depth_next.2 (CodeLine.block?_eq_none_iff.mpr hopens)
  last := by
    rintro above line rfl
    exact CodeLine.block?_eq_none_iff.mp h.block?_last
  otherwise := by
    rintro above line behind rfl helse
    exact h.exists_if helse

end Nested

/-! ## Labels -/

namespace Declarations

/-- Every label was declared by the line that it marks. -/
def Labelled (d : Declarations) (lines : List SourceLine) : Prop :=
  ∀ name index, (name, index) ∈ d.labels →
    ∃ line ident, lines[index]? = some line ∧ labelOf? line = some ident ∧ ident.name = name

namespace Labelled

variable {d d' : Declarations} {lines : List SourceLine}

theorem change (h : d.Labelled lines) (hchange : d.Change d') : d'.Labelled lines := by
  have hlabels : d'.labels = d.labels := by
    cases hchange with
    | @occupy index ident? value? => cases ident? <;> cases value? <;> rfl
    | _ => rfl
  intro name index hmem
  exact h name index (hlabels ▸ hmem)

theorem labelChange (h : d.Labelled lines) {line : SourceLine} {index : Nat}
    (hline : lines[index]? = some line) (hchange : d.LabelChange line index d') :
    d'.Labelled lines := by
  cases hchange with
  | none => exact h
  | reject finding => exact h
  | @addLabel ident hlabel hident =>
      intro name place hmem
      rcases List.mem_cons.mp hmem with heq | hmem
      · cases heq
        exact ⟨line, ident, hline, hlabel, rfl⟩
      · exact h name place hmem

end Labelled

end Declarations

theorem Layout.labelled_declarations (layout : Layout) :
    layout.declarations.Labelled layout.text := by
  have hempty : Declarations.Labelled {} layout.text := fun _ _ hmem => nomatch hmem
  have hdata : (DataSegment.read layout.data layout.textLine).Labelled layout.text :=
    (DataSegment.changes_read layout.data layout.textLine).keeps hempty
      Declarations.Labelled.change
  exact Declarations.readLabels_keeps hdata
    fun hline hlabelled hchange => Declarations.Labelled.labelChange hlabelled hline hchange

theorem getElem?_readTextLines_of_isSilent {names : Names} {ind : Indentation}
    {header? : Option Span} {lines : List SourceLine} {index : Nat} {line : SourceLine}
    (hline : lines[index]? = some line) (hsilent : isSilent line = true) :
    (readTextLines names ind header? lines).1[index]? = some .silent := by
  induction lines generalizing ind header? index with
  | nil => simp at hline
  | cons first lines ih =>
      cases index with
      | zero =>
          obtain rfl : first = line := by simpa using hline
          rw [readTextLines, if_pos hsilent]
          rfl
      | succ index =>
          rw [List.getElem?_cons_succ] at hline
          unfold readTextLines
          split
          · exact ih hline
          · dsimp only
            split <;> exact ih hline

/-- A label of a program stands for the line that declares it, and this line executes nothing. -/
theorem Program.label?_ofLayout {lines : List SourceLine} {layout : Layout} {name : String}
    {index : Nat} (h : (name, index) ∈ (Program.ofLayout lines layout).labels) :
    (Program.ofLayout lines layout).label? name = some index ∧
      (Program.ofLayout lines layout).lines[index]? = some .silent := by
  have hsound : layout.declarations.Sound :=
    sound_readLabels_read layout.data layout.text layout.textLine
  obtain ⟨line, ident, hline, hlabel, -⟩ := layout.labelled_declarations name index h
  constructor
  · have hall := layout.named_declarations.distinct.nodup
    rw [Names.all, List.nodup_append, hsound.labels] at hall
    exact lookup_eq_some_of_mem hall.2.1 h
  · exact getElem?_readTextLines_of_isSilent hline (by simp [isSilent, hlabel])

/-- The lines of a valid program are well nested, and every label stands for a line that executes
    nothing. -/
theorem Program.wellNested_read (text : List Char) (hvalid : (Program.read text).isValid = true) :
    let p := Program.read text
    WellNested p.code ∧
      ∀ name index, (name, index) ∈ p.labels →
        p.label? name = some index ∧ p.lines[index]? = some .silent := by
  intro p
  obtain ⟨names, hsound⟩ := Program.exists_sound_read hvalid
  refine ⟨hsound.nested.wellNested, fun name index hmem => ?_⟩
  have hread : p = Program.ofLines (sourceLines text) := rfl
  rw [hread, Program.ofLines] at hmem ⊢
  split at hmem
  · cases hmem
  · exact Program.label?_ofLayout hmem

/-- A text with tabs and spaces, a label between a header and its block, and a line that leaves two
    blocks at once. -/
def mixedBlanks : List Char :=
  ("tally 1\n.data\ntapelength 1\n0 n 2\n.text\n" ++
    "if (n):\n in: # first\n\t while (n):\n\t  \tn = n - 1\nelse:\n\n  jump in\nend()\n").toList

theorem Program.wellNested_read_mixedBlanks :
    let p := Program.read mixedBlanks
    p.isValid = true ∧
      p.code.map (fun line => (line.index, line.depth)) =
        [(0, 0), (2, 1), (3, 2), (4, 0), (6, 1), (7, 0)] ∧
      WellNested p.code ∧ p.label? "in" = some 1 ∧ p.lines[1]? = some .silent := by
  have hread : (Program.read mixedBlanks).isValid = true ∧
      (Program.read mixedBlanks).code.map (fun line => (line.index, line.depth)) =
        [(0, 0), (2, 1), (3, 2), (4, 0), (6, 1), (7, 0)] ∧
      ("in", 1) ∈ (Program.read mixedBlanks).labels := by
    decide +kernel
  obtain ⟨hnested, hlabels⟩ := Program.wellNested_read mixedBlanks hread.1
  exact ⟨hread.1, hread.2.1, hnested, hlabels "in" 1 hread.2.2⟩

end TapePuzzle
