import TapePuzzle.Proofs.Reading.Heading
import TapePuzzle.Proofs.Reading.Layouts
import TapePuzzle.Proofs.Reading.Places

/-!
# Reading an assembled program

A program text is assembled from a puzzle, a test case and a submission, and then read like any
other. Main statement: what it declares is the tape and the objects that it was assembled from, and
whatever is wrong with it is wrong with the learner's text.
-/

namespace TapePuzzle

/-! ## What a puzzle guarantees -/

namespace TestCase

variable {case : TestCase} {cases : List TestCase} {index slotCount : Nat}

theorem exists_check_of_checkAll (h : checkAll slotCount index cases = .ok ())
    (hcase : case ∈ cases) : ∃ index, case.check index slotCount = .ok () := by
  induction cases generalizing index with
  | nil => cases hcase
  | cons first cases ih =>
      obtain ⟨⟨⟩, hfirst, hrest⟩ := bind_eq_ok_iff.mp h
      rcases List.mem_cons.mp hcase with rfl | hcase
      · exact ⟨index, hfirst⟩
      · exact ih hrest hcase

theorem objects_of_check (h : case.check index slotCount = .ok ()) :
    (∀ object ∈ case.objects, object.values.length ≤ maxObjectLength) ∧
      ∀ value ∈ case.values, inRange value = true := by
  obtain ⟨⟨⟩, -, h⟩ := bind_eq_ok_iff.mp h
  obtain ⟨⟨⟩, -, h⟩ := bind_eq_ok_iff.mp h
  split at h
  · cases h
  · rename_i hlengths
    split at h
    · cases h
    · rename_i hvalues
      simp only [List.find?_eq_none, decide_eq_true_eq, Nat.not_lt] at hlengths
      simp only [List.find?_eq_none, Bool.not_eq_true', Bool.not_eq_false] at hvalues
      exact ⟨hlengths, hvalues⟩

end TestCase

/-- What a valid puzzle promises of its tape and its test cases. -/
theorem Puzzle.check_of_validate {puzzle : Puzzle} (h : puzzle.validate = .ok ()) :
    1 ≤ puzzle.slotCount ∧ puzzle.slotCount ≤ maxTapeLength ∧
      ∀ case ∈ puzzle.testCases, ∃ index, case.check index puzzle.slotCount = .ok () := by
  simp only [Puzzle.validate] at h
  split at h
  · cases h
  · rename_i hcount
    split at h
    · cases h
    · split at h
      · cases h
      · exact ⟨by omega, by omega, fun case hcase => TestCase.exists_check_of_checkAll h hcase⟩

theorem TestCase.inRange_of_mem_objects {case : TestCase}
    (h : ∀ value ∈ case.values, inRange value = true) :
    ∀ object ∈ case.objects, ∀ value ∈ object.values, inRange value = true := by
  intro object hobject value hvalue
  refine h value (List.mem_append_right _ ?_)
  exact List.mem_flatMap.mpr ⟨object, hobject, hvalue⟩

@[simp] theorem Puzzle.length_initialTape (puzzle : Puzzle) (case : TestCase)
    (bindings : List SlotBinding) :
    (puzzle.initialTape case bindings).length = puzzle.slotCount := by
  simp [Puzzle.initialTape]

/-- What a valid puzzle and its test case give, together with the names and values of the slots, can
    be declared. -/
theorem Puzzle.writable_initialTape {puzzle : Puzzle} {case : TestCase}
    {bindings : List SlotBinding} (hpuzzle : puzzle.validate = .ok ())
    (hcase : case ∈ puzzle.testCases)
    (hnames : ∀ name ∈ declaredNames (puzzle.initialTape case bindings) case.objects,
      isIdentifier name = true ∧ isReserved name = false)
    (hnodup : (declaredNames (puzzle.initialTape case bindings) case.objects).Nodup)
    (hvalues : ∀ slot ∈ puzzle.initialTape case bindings, inRange slot.value = true) :
    Writable (puzzle.initialTape case bindings) case.objects := by
  obtain ⟨hleast, hmost, hcases⟩ := puzzle.check_of_validate hpuzzle
  obtain ⟨index, hcheck⟩ := hcases case hcase
  obtain ⟨hlengths, hall⟩ := TestCase.objects_of_check hcheck
  exact ⟨by simpa using hleast, by simpa using hmost, hnames, hnodup, hvalues, hlengths,
    TestCase.inRange_of_mem_objects hall⟩

/-! ## Layout of an assembled text -/

theorem Spellable.isWhole_and_isBare_dataLines {tape : List Slot} {objects : List ObjectDecl}
    (h : Spellable tape objects) : ∀ line ∈ dataLines tape objects, IsWhole line ∧ IsBare line := by
  intro line hline
  have hplain := h.isPlain_dataLines line hline
  exact ⟨hplain.isWhole, hplain.isBare⟩

theorem length_headingLines (tape : List Slot) (objects : List ObjectDecl) :
    (headingLines tape objects).length = 3 + (dataLines tape objects).length := by
  simp [headingLines_eq]
  omega

section Layout

variable {tape : List Slot} {objects : List ObjectDecl}
  (hdata : ∀ line ∈ dataLines tape objects, IsWhole line ∧ IsBare line)

include hdata

theorem isWhole_headingLines : ∀ line ∈ headingLines tape objects, IsWhole line := by
  rw [headingLines_eq]
  simp only [List.forall_mem_cons, List.forall_mem_append, List.not_mem_nil, false_imp_iff,
    implies_true, and_true]
  exact ⟨⟨by decide, by decide⟩, ⟨by decide, by decide⟩, fun line hline => (hdata line hline).1,
    ⟨by decide, by decide⟩⟩

theorem count_heading :
    (heading tape objects).count '\n' = (headingLines tape objects).length :=
  count_joinLines (isWhole_headingLines hdata)

/-- The lines of an assembled text: those that were written, and then the learner's own. -/
theorem sourceLines_heading (text : List Char) :
    sourceLines (heading tape objects ++ text) =
      ⟨1, headerLine.toList⟩ :: ⟨2, dataMarker.toList⟩ :: (numberLines 3 (dataLines tape objects) ++
        ⟨(headingLines tape objects).length, textMarker.toList⟩ ::
          (sourceLines text).map (SourceLine.below (headingLines tape objects).length)) := by
  have hlines := sourceLines_joinLines (isWhole_headingLines hdata) text
  rw [heading, ← joinLines, hlines, length_headingLines, headingLines_eq]
  simp

/-- The learner's text is the text segment, unless it has a text marker of its own. -/
theorem layout_heading (text : List Char) :
    Layout.ofLines (sourceLines (heading tape objects ++ text)) =
      match (sourceLines text).filter isTextMarker with
      | [] => .ok ⟨numberLines 3 (dataLines tape objects), (headingLines tape objects).length,
          (sourceLines text).map (SourceLine.below (headingLines tape objects).length)⟩
      | extra :: _ =>
          .error ⟨.duplicateTextMarker,
            Span.point (extra.number + (headingLines tape objects).length) 1⟩ := by
  have hmarkers : ∀ line ∈ numberLines 3 (dataLines tape objects), isTextMarker line = false := by
    intro line hline
    refine (hdata line.text ?_).2.isTextMarker_eq
    rw [← map_text_numberLines 3 (dataLines tape objects)]
    exact List.mem_map_of_mem hline
  have hfilter : ∀ offset, ((sourceLines text).map (SourceLine.below offset)).filter isTextMarker =
      ((sourceLines text).filter isTextMarker).map (SourceLine.below offset) :=
    fun _ => List.filter_map
  rw [sourceLines_heading hdata, Layout.ofLines_eq (by decide) (by decide) hmarkers rfl, hfilter]
  cases (sourceLines text).filter isTextMarker <;> rfl

end Layout

/-! ## Reading an assembled text -/

/-- What is wrong with a program whose data segment is right stands in its text segment. -/
theorem Program.standsOn_ofLayout {lines : List SourceLine} {layout : Layout}
    (h : (DataSegment.read layout.data layout.textLine).findings = []) {d : Diagnostic}
    (hd : d ∈ (Program.ofLayout lines layout).diagnostics) :
    ∃ line ∈ layout.text, d.span.Within line.number line.text := by
  have hlabels := Declarations.labels_readLabels (DataSegment.read layout.data layout.textLine)
    layout.text
  obtain ⟨finding, hfinding, rfl⟩ := List.mem_map.mp hd
  rcases List.mem_append.mp hfinding with hfinding | hfinding
  · rcases hlabels.findings finding hfinding with hdata | hstands
    · rw [h] at hdata
      cases hdata
    · exact hstands
  · exact standsOn_of_mem_readTextLines (fun _ => id) (by simp) hfinding

theorem Writable.read_heading {tape : List Slot} {objects : List ObjectDecl}
    (h : Writable tape objects) (text : List Char) :
    let p := Program.read (heading tape objects ++ text)
    ((∃ line ∈ sourceLines text, isTextMarker line = true) ∧
        p.diagnostics.map Diagnostic.code = [Issue.duplicateTextMarker.code]) ∨
      ((∀ line ∈ sourceLines text, isTextMarker line = false) ∧ p.tape = tape ∧
        p.objects = objects.map ObjectDecl.container ∧
        p.textOffset = (heading tape objects).count '\n' ∧
        ∀ d ∈ p.diagnostics, p.textOffset < d.span.line) := by
  intro p
  have hdata := h.spellable.isWhole_and_isBare_dataLines
  have hlayout := layout_heading hdata text
  have hp : p = Program.ofLines (sourceLines (heading tape objects ++ text)) := rfl
  cases hmarkers : (sourceLines text).filter isTextMarker with
  | cons extra markers =>
      have hextra : extra ∈ (sourceLines text).filter isTextMarker := by simp [hmarkers]
      rw [hmarkers] at hlayout
      rw [hp, Program.ofLines, hlayout]
      exact .inl ⟨⟨extra, List.mem_filter.mp hextra⟩, rfl⟩
  | nil =>
      rw [hmarkers] at hlayout
      obtain ⟨htape, hobjects, hfindings⟩ := h.read_dataLines
        (map_text_numberLines 3 (dataLines tape objects)) (headingLines tape objects).length
      have hlabels := Declarations.labels_readLabels
        (DataSegment.read (numberLines 3 (dataLines tape objects))
          (headingLines tape objects).length)
        ((sourceLines text).map (SourceLine.below (headingLines tape objects).length))
      rw [hp, Program.ofLines, hlayout]
      refine .inr ⟨by simpa using hmarkers, hlabels.tape.trans htape,
        hlabels.objects.trans hobjects, (count_heading hdata).symm, fun d hd => ?_⟩
      obtain ⟨line, hline, hwithin⟩ := Program.standsOn_ofLayout hfindings hd
      obtain ⟨own, hown, rfl⟩ := List.mem_map.mp hline
      have hnumber := (number_of_mem_sourceLines hown).1
      rw [hwithin.line]
      simp only [Program.ofLayout, SourceLine.below]
      omega

/-- What is assembled from a valid puzzle, a test case of it and a submission reads back. If a line
    of the learner's text is a text marker, this alone is reported. If not, the program has the tape
    and the objects that it was assembled from, its text segment starts where the learner's text
    does, and everything that is wrong with it stands in the learner's text. -/
theorem Assembly.read_source_recovers_data (puzzle : Puzzle) (case : TestCase)
    (submission : Submission) (hpuzzle : puzzle.validate = .ok ())
    (hcase : case ∈ puzzle.testCases)
    (hnames : ∀ name ∈ declaredNames (puzzle.initialTape case submission.bindings) case.objects,
      isIdentifier name = true ∧ isReserved name = false)
    (hnodup : (declaredNames (puzzle.initialTape case submission.bindings) case.objects).Nodup)
    (hvalues : ∀ slot ∈ puzzle.initialTape case submission.bindings,
      inRange slot.value = true) :
    let assembly := Assembly.build puzzle case submission
    let p := Program.read assembly.source
    ((∃ line ∈ sourceLines submission.text, isTextMarker line = true) ∧
        p.diagnostics.map Diagnostic.code = [Issue.duplicateTextMarker.code]) ∨
      ((∀ line ∈ sourceLines submission.text, isTextMarker line = false) ∧
        p.tape = puzzle.initialTape case submission.bindings ∧
        p.objects = case.objects.map ObjectDecl.container ∧
        p.textOffset = assembly.offset ∧
        ∀ d ∈ p.diagnostics, p.textOffset < d.span.line) :=
  (Puzzle.writable_initialTape hpuzzle hcase hnames hnodup hvalues).read_heading submission.text

/-- A test case with an object. -/
def onePile : TestCase where
  objects := [⟨.stack, "pile", [4, -999]⟩]
  slots := some [1, 2, 0]

/-- A puzzle whose slots can be named and filled by the learner. -/
def openTape : Puzzle where
  slotCount := 3
  slotNames := [some "total"]
  testCases := [onePile]
  editableValues := true
  renamableSlots := true

/-- Names and fills a slot; the second line of the text is wrong. -/
def ownSlot : Submission where
  text := "total = pile.pop()\ntotal = nothing\n".toList
  bindings := [{ index := 1, name := some "last", value := some (-30) }]

theorem Assembly.read_source_recovers_data_ownSlot :
    let p := Program.read (Assembly.build openTape onePile ownSlot).source
    openTape.validate = .ok () ∧ onePile ∈ openTape.testCases ∧
      (∀ name ∈ declaredNames (openTape.initialTape onePile ownSlot.bindings) onePile.objects,
        isIdentifier name = true ∧ isReserved name = false) ∧
      (declaredNames (openTape.initialTape onePile ownSlot.bindings) onePile.objects).Nodup ∧
      (∀ slot ∈ openTape.initialTape onePile ownSlot.bindings, inRange slot.value = true) ∧
      p.tape = [⟨some "total", 1⟩, ⟨some "last", -30⟩, ⟨none, 0⟩] ∧
      p.objects = [⟨"pile", .stack, [4, -999]⟩] ∧ p.textOffset = 7 ∧
      ∀ d ∈ p.diagnostics, 7 < d.span.line := by
  intro p
  have hpuzzle : openTape.validate = .ok () := rfl
  have hcase : onePile ∈ openTape.testCases := List.mem_singleton.mpr rfl
  have hnames : ∀ name ∈ declaredNames (openTape.initialTape onePile ownSlot.bindings)
      onePile.objects, isIdentifier name = true ∧ isReserved name = false := by decide
  have hnodup : (declaredNames (openTape.initialTape onePile ownSlot.bindings)
      onePile.objects).Nodup := by decide
  have hvalues : ∀ slot ∈ openTape.initialTape onePile ownSlot.bindings,
      inRange slot.value = true := by decide
  have hmarkers : ¬∃ line ∈ sourceLines ownSlot.text, isTextMarker line = true := by decide
  obtain ⟨-, htape, hobjects, hoffset, hplaces⟩ :=
    (Assembly.read_source_recovers_data openTape onePile ownSlot hpuzzle hcase hnames hnodup
      hvalues).resolve_left fun h => hmarkers h.1
  have hseven : p.textOffset = 7 := hoffset
  exact ⟨hpuzzle, hcase, hnames, hnodup, hvalues, htape, hobjects, hseven, hseven ▸ hplaces⟩

end TapePuzzle
