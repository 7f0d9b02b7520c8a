import TapePuzzle.Execution.Control

/-!
# How the lines of a program nest

Only lines that have a statement matter to the nesting of blocks, so the theory works on the list of
these lines. `Encloses` says which blocks a line stands in, by what is above it; `Nested` says that
lines nest properly, by what comes after. Main statement: in properly nested lines every line stands
in exactly as many blocks as it is deep, and what follows it nests in these blocks.
-/

namespace TapePuzzle

@[simp] theorem Line.depth?_silent : Line.silent.depth? = none := rfl

@[simp] theorem Line.depth?_code (depth : Nat) (statement : Statement) :
    (Line.code depth statement).depth? = some depth := rfl

/-- A line that has a statement, with its place in the text segment. -/
structure CodeLine where
  index : Nat
  depth : Nat
  statement : Statement
  deriving DecidableEq, Repr

namespace CodeLine

/-- The line without its place. -/
def toLine (line : CodeLine) : Line := .code line.depth line.statement

/-- The block that the line opens. -/
def block? (line : CodeLine) : Option OpenBlock :=
  line.statement.opens?.map fun kind => ⟨line.index, kind⟩

def isElse (line : CodeLine) : Bool := line.toLine.isElse

theorem isElse_iff {line : CodeLine} :
    line.isElse = true ↔ line.statement.action = .otherwise := by
  obtain ⟨index, depth, ⟨action, span⟩⟩ := line
  cases action <;> simp [isElse, toLine, Line.isElse]

end CodeLine

/-- The lines with a statement among `lines`, the first of which is line `start`. -/
def codeFrom (start : Nat) : List Line → List CodeLine
  | [] => []
  | .silent :: lines => codeFrom (start + 1) lines
  | .code depth statement :: lines => ⟨start, depth, statement⟩ :: codeFrom (start + 1) lines

/-- The lines of a program that have a statement. -/
def Program.code (p : Program) : List CodeLine := codeFrom 0 p.lines

@[simp] theorem codeFrom_nil (start : Nat) : codeFrom start [] = [] := rfl

@[simp] theorem codeFrom_silent (start : Nat) (lines : List Line) :
    codeFrom start (.silent :: lines) = codeFrom (start + 1) lines := rfl

@[simp] theorem codeFrom_code (start depth : Nat) (statement : Statement) (lines : List Line) :
    codeFrom start (.code depth statement :: lines) =
      ⟨start, depth, statement⟩ :: codeFrom (start + 1) lines := rfl

theorem codeFrom_append (start : Nat) (front back : List Line) :
    codeFrom start (front ++ back) =
      codeFrom start front ++ codeFrom (start + front.length) back := by
  induction front generalizing start with
  | nil => simp
  | cons line front ih =>
      have hstart : start + 1 + front.length = start + (line :: front).length := by
        rw [List.length_cons]
        omega
      cases line with
      | silent => rw [List.cons_append, codeFrom_silent, codeFrom_silent, ih, hstart]
      | code depth statement =>
          rw [List.cons_append, codeFrom_code, codeFrom_code, ih, hstart, List.cons_append]

theorem codeFrom_take_append_drop (lines : List Line) (count : Nat) :
    codeFrom 0 (lines.take count) ++ codeFrom count (lines.drop count) = codeFrom 0 lines := by
  by_cases hcount : count ≤ lines.length
  · have happend := codeFrom_append 0 (lines.take count) (lines.drop count)
    rw [List.take_append_drop, List.length_take_of_le hcount, Nat.zero_add] at happend
    exact happend.symm
  · rw [List.take_of_length_le (by omega), List.drop_of_length_le (by omega)]
    simp

/-- A line of the list, and how the list is cut there. -/
theorem codeFrom_split {start : Nat} {lines : List Line} {above behind : List CodeLine}
    {line : CodeLine} (h : codeFrom start lines = above ++ line :: behind) :
    ∃ distance, line.index = start + distance ∧ lines[distance]? = some line.toLine ∧
      above = codeFrom start (lines.take distance) ∧
      behind = codeFrom (start + distance + 1) (lines.drop (distance + 1)) := by
  induction lines generalizing start above with
  | nil => simp at h
  | cons first lines ih =>
      cases first with
      | silent =>
          obtain ⟨distance, hindex, hline, habove, hbehind⟩ := ih h
          refine ⟨distance + 1, by omega, hline, habove, ?_⟩
          rw [hbehind, List.drop_succ_cons]
          congr 1
          omega
      | code depth statement =>
          rw [codeFrom_code] at h
          cases above with
          | nil =>
              rw [List.nil_append, List.cons.injEq] at h
              obtain ⟨rfl, hbehind⟩ := h
              exact ⟨0, rfl, rfl, rfl, hbehind.symm⟩
          | cons top above =>
              rw [List.cons_append, List.cons.injEq] at h
              obtain ⟨rfl, h⟩ := h
              obtain ⟨distance, hindex, hline, habove, hbehind⟩ := ih h
              refine ⟨distance + 1, by omega, hline, by rw [habove]; rfl, ?_⟩
              rw [hbehind, List.drop_succ_cons]
              congr 1
              omega

section Split

variable {lines : List Line} {above behind : List CodeLine} {line : CodeLine}

theorem getElem?_of_split (h : codeFrom 0 lines = above ++ line :: behind) :
    lines[line.index]? = some line.toLine := by
  obtain ⟨distance, hindex, hline, -, -⟩ := codeFrom_split h
  rw [hindex, Nat.zero_add]
  exact hline

theorem above_of_split (h : codeFrom 0 lines = above ++ line :: behind) :
    codeFrom 0 (lines.take line.index) = above := by
  obtain ⟨distance, hindex, -, habove, -⟩ := codeFrom_split h
  rw [hindex, Nat.zero_add, habove]

theorem behind_of_split (h : codeFrom 0 lines = above ++ line :: behind) :
    codeFrom (line.index + 1) (lines.drop (line.index + 1)) = behind := by
  obtain ⟨distance, hindex, -, -, hbehind⟩ := codeFrom_split h
  rw [hindex, Nat.zero_add, hbehind, Nat.zero_add]

/-- Every line that has a statement cuts the list. -/
theorem exists_split_of_getElem? {index depth : Nat} {statement : Statement}
    (h : lines[index]? = some (.code depth statement)) :
    codeFrom 0 lines = codeFrom 0 (lines.take index) ++
      ⟨index, depth, statement⟩ :: codeFrom (index + 1) (lines.drop (index + 1)) := by
  obtain ⟨hindex, hline⟩ := List.getElem?_eq_some_iff.mp h
  rw [← codeFrom_take_append_drop lines index, List.drop_eq_getElem_cons hindex, hline,
    codeFrom_code]

end Split

/-! ## The blocks around a line -/

/-- After the lines `above`, a line that is as deep as there are `blocks` stands in these blocks,
    given innermost first: the header of each is the nearest line above that is not deeper. -/
def Encloses : (above : List CodeLine) → (blocks : List OpenBlock) → Prop
  | _, [] => True
  | above, block :: outer =>
      ∃ before header between, above = before ++ header :: between ∧
        header.block? = some block ∧ header.depth = outer.length ∧
        (∀ line ∈ between, outer.length < line.depth) ∧ Encloses before outer

theorem encloses_nil_iff {blocks : List OpenBlock} : Encloses [] blocks ↔ blocks = [] := by
  cases blocks with
  | nil => simp [Encloses]
  | cons block outer => simp [Encloses]

namespace Encloses

/-- Lines that are deep enough do not close the blocks. -/
theorem append {above more : List CodeLine} {blocks : List OpenBlock} (h : Encloses above blocks)
    (hdeep : ∀ line ∈ more, blocks.length ≤ line.depth) : Encloses (above ++ more) blocks := by
  cases blocks with
  | nil => trivial
  | cons block outer =>
      obtain ⟨before, header, between, rfl, hblock, hdepth, hbetween, houter⟩ := h
      refine ⟨before, header, between ++ more, by simp, hblock, hdepth, ?_, houter⟩
      intro line hline
      rcases List.mem_append.mp hline with hline | hline
      · exact hbetween line hline
      · exact hdeep line hline

/-- What stands in a block stands in the blocks around it. -/
theorem tail {above : List CodeLine} {block : OpenBlock} {outer : List OpenBlock}
    (h : Encloses above (block :: outer)) : Encloses above outer := by
  obtain ⟨before, header, between, rfl, -, hdepth, hbetween, houter⟩ := h
  apply houter.append
  intro line hline
  rcases List.mem_cons.mp hline with rfl | hline
  · exact Nat.le_of_eq hdepth.symm
  · exact Nat.le_of_lt (hbetween line hline)

theorem of_append {above : List CodeLine} {closed kept : List OpenBlock}
    (h : Encloses above (closed ++ kept)) : Encloses above kept := by
  induction closed with
  | nil => exact h
  | cons block closed ih => exact ih h.tail

/-- The blocks around the line that follows `line`, if it goes as deep as it can. -/
theorem concat {above : List CodeLine} {blocks : List OpenBlock} {line : CodeLine}
    (h : Encloses above blocks) (hdepth : blocks.length = line.depth) :
    Encloses (above ++ [line]) (line.block?.toList ++ blocks) := by
  cases hblock : line.block? with
  | none =>
      apply h.append
      intro line' hline'
      rw [List.mem_singleton.mp hline']
      exact Nat.le_of_eq hdepth
  | some block => exact ⟨above, line, [], rfl, hblock, hdepth.symm, by simp, h⟩

/-- The header of the innermost block stands in the other blocks. -/
theorem header {above : List CodeLine} {block : OpenBlock} {outer : List OpenBlock}
    (h : Encloses above (block :: outer)) :
    ∃ before header between, above = before ++ header :: between ∧
      header.block? = some block ∧ outer.length = header.depth ∧ Encloses before outer := by
  obtain ⟨before, header, between, habove, hblock, hdepth, -, houter⟩ := h
  exact ⟨before, header, between, habove, hblock, hdepth.symm, houter⟩

end Encloses

/-! ## Proper nesting -/

/-- Lines nest properly in `blocks`, given innermost first. If `due` is a block, the first of the
    lines is its first line; otherwise the first line may leave any number of blocks. An `else`
    leaves an `if` as the last of them. -/
inductive Nested : (blocks : List OpenBlock) → (due : Option OpenBlock) → List CodeLine → Prop where
  | done {blocks : List OpenBlock} : Nested blocks none []
  | enter {blocks : List OpenBlock} {block : OpenBlock} {line : CodeLine} {rest : List CodeLine}
      (hdepth : line.depth = blocks.length + 1) (helse : line.isElse = false)
      (hrest : Nested (block :: blocks) line.block? rest) :
      Nested blocks (some block) (line :: rest)
  | stay {blocks closed kept : List OpenBlock} {line : CodeLine} {rest : List CodeLine}
      (hblocks : blocks = closed ++ kept) (hdepth : line.depth = kept.length)
      (helse : line.isElse = true → ∃ block, closed.getLast? = some block ∧ block.kind = .ifBlock)
      (hrest : Nested kept line.block? rest) :
      Nested blocks none (line :: rest)

namespace Nested

/-- Of properly nested lines, each stands in as many blocks as it is deep, and those after it nest
    in these blocks. The induction is over the lines still to come; what is known about the lines
    above are the blocks that the next line can stand in. -/
theorem split_within {above passed behind rest : List CodeLine} {blocks : List OpenBlock}
    {due : Option OpenBlock} {line : CodeLine} (h : Nested blocks due rest)
    (habove : Encloses above (due.toList ++ blocks)) (hrest : rest = passed ++ line :: behind) :
    ∃ around, Encloses (above ++ passed) around ∧ around.length = line.depth ∧
      Nested around line.block? behind := by
  induction h generalizing above passed with
  | done => simp at hrest
  | @enter blocks block first rest hdepth helse hnested ih =>
      cases passed with
      | nil =>
          rw [List.nil_append, List.cons.injEq] at hrest
          obtain ⟨rfl, rfl⟩ := hrest
          exact ⟨block :: blocks, by simpa using habove, by simp [hdepth], hnested⟩
      | cons top passed =>
          rw [List.cons_append, List.cons.injEq] at hrest
          obtain ⟨rfl, hrest⟩ := hrest
          have hfirst : (block :: blocks).length = first.depth := by simp [hdepth]
          simpa using ih (Encloses.concat habove hfirst) hrest
  | @stay blocks closed kept first rest hblocks hdepth helse hnested ih =>
      subst hblocks
      have hkept : Encloses above kept := Encloses.of_append habove
      cases passed with
      | nil =>
          rw [List.nil_append, List.cons.injEq] at hrest
          obtain ⟨rfl, rfl⟩ := hrest
          exact ⟨kept, by simpa using hkept, hdepth.symm, hnested⟩
      | cons top passed =>
          rw [List.cons_append, List.cons.injEq] at hrest
          obtain ⟨rfl, hrest⟩ := hrest
          simpa using ih (hkept.concat hdepth.symm) hrest

/-- Every line of a properly nested program stands in as many blocks as it is deep, and the lines
    after it nest in these blocks. -/
theorem split {above behind : List CodeLine} {line : CodeLine}
    (h : Nested [] none (above ++ line :: behind)) :
    ∃ around, Encloses above around ∧ around.length = line.depth ∧
      Nested around line.block? behind := by
  have hnone : Encloses [] [] := trivial
  simpa using h.split_within hnone rfl

/-- The first line of a program is in no block. -/
theorem depth_head {line : CodeLine} {rest : List CodeLine} (h : Nested [] none (line :: rest)) :
    line.depth = 0 := by
  have hstart : Nested [] none ([] ++ line :: rest) := h
  obtain ⟨around, habove, hlength, -⟩ := hstart.split
  rw [← hlength, encloses_nil_iff.mp habove]
  rfl

/-- A line that opens a block is followed by the first line of that block. -/
theorem head_of_due {blocks : List OpenBlock} {block : OpenBlock} {rest : List CodeLine}
    (h : Nested blocks (some block) rest) :
    ∃ first more, rest = first :: more ∧ first.depth = blocks.length + 1 := by
  cases h with
  | @enter _ _ first more hdepth _ _ => exact ⟨first, more, rfl, hdepth⟩

end Nested

end TapePuzzle
