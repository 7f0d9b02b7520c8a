import TapePuzzle.Proofs.Assemblies
import TapePuzzle.Proofs.Reading.DeclarationPlaces
import TapePuzzle.Session

/-!
# Where diagnostics point to

A learner is shown places in their own text, although the text is read under a heading that they did
not write. Main statement: whatever the heading is written from, a diagnostic that a learner is
shown points to a line of their text, within its columns, or it is put on line zero because it
stands in the heading.
-/

namespace TapePuzzle

/-- The diagnostic points to a line of the text by its number, quotes this line, and stays within
    its columns. -/
structure Diagnostic.PointsInto (d : Diagnostic) (text : List Char) : Prop where
  least : 1 ≤ d.span.line
  most : d.span.line ≤ (sourceLines text).length
  quoted : (lineText? (sourceLines text) d.span.line).map String.ofList = some d.sourceLine
  start : 1 ≤ d.span.startColumn
  order : d.span.startColumn ≤ d.span.endColumn
  finish : d.span.endColumn ≤ byteLength d.sourceLine.toList + 1

/-! ## Lines of a heading

The names in a heading may be any strings, so that its lines need not be those that were written.
Only how it begins and ends is certain. -/

section Heading

variable (tape : List Slot) (objects : List ObjectDecl)

/-- A heading ends with the line of the text marker. -/
theorem exists_heading_eq : ∃ front, front.getLast? = some '\n' ∧
    heading tape objects = front ++ (textMarker.toList ++ ['\n']) := by
  refine ⟨joinLines (headerLine.toList :: dataMarker.toList :: dataLines tape objects), ?_, ?_⟩
  · exact getLast?_joinLines (by simp)
  · rw [← joinLines_concat, heading, headingLines_eq]
    rfl

theorem getLast?_heading : (heading tape objects).getLast? = some '\n' := by
  obtain ⟨front, -, heq⟩ := exists_heading_eq tape objects
  simp [heq]

theorem two_le_count_heading : 2 ≤ (heading tape objects).count '\n' := by
  rw [heading, headingLines_eq, List.flatMap_cons, List.flatMap_cons]
  simp only [List.count_append, List.count_singleton_self]
  omega

/-- The text marker of a heading stands on its last line. -/
theorem textMarker_mem_sourceLines (text : List Char) :
    ⟨(heading tape objects).count '\n', textMarker.toList⟩ ∈
      sourceLines (heading tape objects ++ text) := by
  obtain ⟨front, hfront, heq⟩ := exists_heading_eq tape objects
  have hcount : (heading tape objects).count '\n' = 1 + (splitLines front).length := by
    rw [heq, List.count_append, length_splitLines hfront, Nat.add_comm]
    rfl
  rw [hcount, heq, List.append_assoc, sourceLines_append (splitLines_append hfront _)]
  apply List.mem_append_right
  have hlines : sourceLines (textMarker.toList ++ '\n' :: text) =
      ⟨1, textMarker.toList⟩ :: (sourceLines text).map (SourceLine.below 1) := by
    have hlast : (textMarker.toList ++ ['\n']).getLast? = some '\n' := by decide
    rw [List.append_cons, sourceLines_append (splitLines_append hlast text)]
    rfl
  refine List.mem_map.mpr ⟨⟨1, textMarker.toList⟩, ?_, rfl⟩
  rw [List.append_assoc, List.singleton_append, hlines]
  exact List.mem_cons_self

end Heading

/-! ## Diagnostics under a heading -/

/-- A diagnostic on a line of a text that has moved down points to this line once it is rebased. -/
theorem Diagnostic.pointsInto_rebased {d : Diagnostic} {text : List Char} {line : SourceLine}
    {offset : Nat} (hline : line ∈ sourceLines text)
    (hwithin : d.span.Within (line.number + offset) line.text)
    (hquoted : d.sourceLine = String.ofList line.text) : (d.rebased offset).PointsInto text := by
  have hnumber := number_of_mem_sourceLines hline
  have hspan : (d.rebased offset).span.line = line.number := by
    simp only [Diagnostic.rebased, hwithin.line, Nat.add_sub_cancel]
  refine ⟨?_, ?_, ?_, hwithin.start, hwithin.order, ?_⟩
  · rw [hspan]
    exact hnumber.1
  · rw [hspan, length_sourceLines]
    exact hnumber.2
  · rw [hspan, lineText?_of_mem hline]
    exact congrArg some hquoted.symm
  · have hfinish := hwithin.finish
    rw [← String.toList_ofList (l := line.text), ← hquoted] at hfinish
    exact hfinish

/-- What is wrong with a text under a heading stands in the heading or points into the text. -/
theorem Diagnostic.inHeading_or_pointsInto (tape : List Slot) (objects : List ObjectDecl)
    {text : List Char} {d : Diagnostic}
    (hd : d ∈ (Program.read (heading tape objects ++ text)).diagnostics) :
    d.span.line ≤ (heading tape objects).count '\n' ∨
      (d.rebased ((heading tape objects).count '\n')).PointsInto text := by
  have hlast := getLast?_heading tape objects
  have hcount := length_splitLines hlast
  have hlines := sourceLines_append (splitLines_append hlast text)
  have htwo : 2 ≤ (sourceLines (heading tape objects ++ text)).length := by
    have hleast := two_le_count_heading tape objects
    rw [hlines, List.length_append, length_sourceLines, hcount]
    omega
  obtain ⟨line, hline, hwithin, hquoted⟩ := Program.standsOn_read htwo hd
  rw [hlines, hcount] at hline
  rcases List.mem_append.mp hline with hheading | hbelow
  · have hnumber := (number_of_mem_sourceLines hheading).2
    rw [hcount] at hnumber
    exact .inl (hwithin.line ▸ hnumber)
  · obtain ⟨own, hown, rfl⟩ := List.mem_map.mp hbelow
    exact .inr (Diagnostic.pointsInto_rebased hown hwithin hquoted)

/-- An attempt at a test case that exists begins, and what is wrong with its program is shown. -/
theorem Session.exists_begin (s : Session) (submission : Submission) {index : Nat}
    {case : TestCase} (hcase : s.puzzle.testCases[index]? = some case) :
    let assembly := Assembly.build s.puzzle case submission
    ∃ started, s.begin submission index = .ok started ∧
      started.lint =
        (Program.read assembly.source).diagnostics.map fun d => d.rebased assembly.offset := by
  refine ⟨{ s with attempt := some (Attempt.start s.puzzle s.lineLimit submission index case) },
    ?_, rfl⟩
  rw [Session.begin, hcase]

/-- What a learner is shown after an attempt has begun: a diagnostic is on line zero, and then it
    stands in the program text on a line up to that of the text marker above the learner's text, or
    it points into the learner's text. -/
theorem Session.lint_points_into_text (s : Session) (submission : Submission) {index : Nat}
    {case : TestCase} (hcase : s.puzzle.testCases[index]? = some case) :
    let assembly := Assembly.build s.puzzle case submission
    lineText? (sourceLines assembly.source) assembly.offset = some textMarker.toList ∧
      ∃ started, s.begin submission index = .ok started ∧ ∀ d ∈ started.lint,
        (d.span.line = 0 ∧ ∃ found ∈ (Program.read assembly.source).diagnostics,
          d = found.rebased assembly.offset ∧ found.span.line ≤ assembly.offset) ∨
        d.PointsInto submission.text := by
  intro assembly
  have hmarker : ⟨assembly.offset, textMarker.toList⟩ ∈ sourceLines assembly.source :=
    textMarker_mem_sourceLines (s.puzzle.initialTape case submission.bindings) case.objects
      submission.text
  constructor
  · exact lineText?_of_mem hmarker
  · obtain ⟨started, hstarted, hlint⟩ := s.exists_begin submission hcase
    refine ⟨started, hstarted, ?_⟩
    intro d hd
    rw [hlint] at hd
    obtain ⟨found, hfound, rfl⟩ := List.mem_map.mp hd
    have hplace : found.span.line ≤ assembly.offset ∨
        (found.rebased assembly.offset).PointsInto submission.text :=
      Diagnostic.inHeading_or_pointsInto (s.puzzle.initialTape case submission.bindings)
        case.objects hfound
    rcases hplace with hheading | hpoints
    · exact .inl ⟨Nat.sub_eq_zero_of_le hheading, found, hfound, rfl, hheading⟩
    · exact .inr hpoints

/-- A puzzle with a name that breaks its line of the heading. -/
def brokenName : Puzzle where
  slotCount := 1
  slotNames := [some "a\nb"]
  testCases := [{ input := [3] }]

/-- The second line has a character of two bytes, and the block after it is missing. -/
def accented : Submission where
  text := "a = 1\r\nif (é):\r\n".toList
  bindings := []

theorem Session.lint_points_into_text_accented :
    let assembly := Assembly.build brokenName { input := [3] } accented
    let s : Session := { puzzle := brokenName }
    s.puzzle.testCases[0]? = some { input := [3] } ∧ assembly.offset = 6 ∧
      ∃ started, s.begin accented 0 = .ok started ∧
        started.lint.map Diagnostic.span = [⟨0, 1, 1⟩, ⟨2, 5, 5⟩, ⟨2, 1, 9⟩] ∧
        ∀ d ∈ started.lint,
          (d.span.line = 0 ∧ ∃ found ∈ (Program.read assembly.source).diagnostics,
            d = found.rebased 6 ∧ found.span.line ≤ 6) ∨
          d.PointsInto accented.text := by
  intro assembly s
  have hcase : s.puzzle.testCases[0]? = some { input := [3] } := rfl
  obtain ⟨-, started, hstarted, hpoints⟩ := s.lint_points_into_text accented hcase
  have hoffset : assembly.offset = 6 := by decide
  refine ⟨hcase, hoffset, started, hstarted, ?_, hoffset ▸ hpoints⟩
  cases hstarted
  decide +kernel

end TapePuzzle
