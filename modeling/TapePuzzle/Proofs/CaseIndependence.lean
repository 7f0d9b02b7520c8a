import TapePuzzle.Proofs.LintPlaces
import TapePuzzle.Proofs.Reading.TwoHeadings

/-!
# What a learner sees does not depend on the test case

Every test case has a heading of its own above the learner's text, and the whole is read afresh.
Main statements: whether a submission is valid, its labels and its lines are the same for all test
cases that have the same kinds and names of objects, and so is what a learner is shown to be wrong,
except for the line that a name is said to be declared on before.
-/

namespace TapePuzzle

/-! ## What a puzzle writes for two test cases -/

namespace Puzzle

variable {puzzle : Puzzle} {case first second : TestCase} {bindings : List SlotBinding}

theorem inRange_slotValue (hcase : ∀ value ∈ case.values, inRange value = true)
    (hbindings : ∀ binding ∈ bindings, ∀ value ∈ binding.value, inRange value = true)
    (index : Nat) : inRange (puzzle.slotValue case bindings index) = true := by
  have hchosen : ∀ value ∈ (bindingFor? bindings index).bind (·.value), inRange value = true := by
    intro value hvalue
    obtain ⟨binding, hfound, hpicked⟩ := Option.bind_eq_some_iff.mp hvalue
    have hmem : binding ∈ bindings := by simpa using List.mem_of_find?_eq_some hfound
    exact hbindings binding hmem value hpicked
  have hgiven : ∀ value ∈ case.slots.bind (·[index]?), inRange value = true := by
    intro value hvalue
    obtain ⟨values, hslots, hplace⟩ := Option.bind_eq_some_iff.mp hvalue
    apply hcase
    simp [TestCase.values, hslots, List.mem_of_getElem? hplace]
  simp only [slotValue, Option.orElse_eq_orElse, Option.orElse_eq_or]
  cases hvalue : (if puzzle.editableValues then (bindingFor? bindings index).bind (·.value)
      else none).or (case.slots.bind (·[index]?)) with
  | none => decide
  | some value =>
      rcases Option.or_eq_some_iff.mp hvalue with hpicked | ⟨-, hplace⟩
      · split at hpicked
        · exact hchosen value hpicked
        · cases hpicked
      · exact hgiven value hplace

/-- What a valid puzzle and its test case give can be spelled out, if the names are identifiers. -/
theorem spellable_initialTape (hpuzzle : puzzle.validate = .ok ())
    (hcase : case ∈ puzzle.testCases)
    (hbindings : ∀ binding ∈ bindings, ∀ value ∈ binding.value, inRange value = true)
    (hnames : ∀ name ∈ declaredNames (puzzle.initialTape case bindings) case.objects,
      isIdentifier name = true) :
    Spellable (puzzle.initialTape case bindings) case.objects := by
  obtain ⟨hleast, hmost, hcases⟩ := puzzle.check_of_validate hpuzzle
  obtain ⟨index, hcheck⟩ := hcases case hcase
  obtain ⟨hlengths, hall⟩ := TestCase.objects_of_check hcheck
  refine ⟨by simpa using hleast, by simpa using hmost, hnames, ?_, hlengths,
    TestCase.inRange_of_mem_objects hall⟩
  intro slot hslot
  obtain ⟨place, -, rfl⟩ := List.mem_map.mp hslot
  exact inRange_slotValue hall hbindings place

theorem writable_of_bindings (hpuzzle : puzzle.validate = .ok ())
    (hcase : case ∈ puzzle.testCases)
    (hbindings : ∀ binding ∈ bindings, ∀ value ∈ binding.value, inRange value = true)
    (hnames : ∀ name ∈ declaredNames (puzzle.initialTape case bindings) case.objects,
      isIdentifier name = true ∧ isReserved name = false)
    (hnodup : (declaredNames (puzzle.initialTape case bindings) case.objects).Nodup) :
    Writable (puzzle.initialTape case bindings) case.objects := by
  have hspellable := spellable_initialTape hpuzzle hcase hbindings
    fun name hname => (hnames name hname).1
  exact writable_initialTape hpuzzle hcase hnames hnodup hspellable.slotValues

theorem sameNames_initialTape
    (hobjects : second.objects.map (fun object => (object.kind, object.name)) =
      first.objects.map fun object => (object.kind, object.name)) :
    SameNames (puzzle.initialTape first bindings) (puzzle.initialTape second bindings)
      first.objects second.objects := by
  refine ⟨?_, hobjects⟩
  simp only [initialTape, List.map_map]
  rfl

end Puzzle

theorem SameNames.declaredNames_eq {tape tape' : List Slot} {objects objects' : List ObjectDecl}
    (h : SameNames tape tape' objects objects') :
    declaredNames tape' objects' = declaredNames tape objects := by
  have hslots := congrArg (List.filterMap id) h.slots
  have hobjects := congrArg (List.map Prod.snd) h.objects
  rw [List.filterMap_map, List.filterMap_map] at hslots
  rw [List.map_map, List.map_map] at hobjects
  exact congrArg₂ (· ++ ·) hslots hobjects

/-! ## Programs -/

/-- Whether the program of a submission is valid does not depend on the test case, as long as the
    kinds and names of the objects are the same: neither do its labels and its lines, except that
    the places in them move with the length of the heading. -/
theorem Assembly.validity_independent_of_case (puzzle : Puzzle) (submission : Submission)
    {first second : TestCase} (hpuzzle : puzzle.validate = .ok ())
    (hfirst : first ∈ puzzle.testCases) (hsecond : second ∈ puzzle.testCases)
    (hbindings : ∀ binding ∈ submission.bindings, ∀ value ∈ binding.value, inRange value = true)
    (hnames : ∀ name ∈ declaredNames (puzzle.initialTape first submission.bindings) first.objects,
      isIdentifier name = true)
    (hobjects : second.objects.map (fun object => (object.kind, object.name)) =
      first.objects.map fun object => (object.kind, object.name)) :
    let assembly := Assembly.build puzzle first submission
    let assembly' := Assembly.build puzzle second submission
    let p := Program.read assembly.source
    let p' := Program.read assembly'.source
    p'.isValid = p.isValid ∧ p'.labels = p.labels ∧
      ∃ own : List Line, p.lines = own.map (Line.down assembly.offset) ∧
        p'.lines = own.map (Line.down assembly'.offset) := by
  have hsame : SameNames (puzzle.initialTape first submission.bindings)
      (puzzle.initialTape second submission.bindings) first.objects second.objects :=
    Puzzle.sameNames_initialTape hobjects
  have hspellable := Puzzle.spellable_initialTape hpuzzle hfirst hbindings hnames
  rw [← hsame.declaredNames_eq] at hnames
  have hspellable' := Puzzle.spellable_initialTape hpuzzle hsecond hbindings hnames
  exact hspellable.read_alike hspellable' hsame submission.text

/-- A test case whose slots need not be spelled out. -/
def shortCase : TestCase where
  objects := [⟨.stack, "pile", [1]⟩]

/-- A test case that differs in values only, and has one more slot to spell out. -/
def longCase : TestCase where
  objects := [⟨.stack, "pile", []⟩]
  slots := some [0, 4, -2]

def twoPiles : Puzzle where
  slotCount := 3
  slotNames := [some "n"]
  testCases := [shortCase, longCase]
  renamableSlots := true

/-- Jumps back to a label above a loop. One slot is given a name that cannot be declared. -/
def keptWord : Submission where
  text := "top:\nwhile (n):\n  n = pile.pop()\njump top\n".toList
  bindings := [.named 2 "while"]

theorem Assembly.validity_independent_of_case_keptWord :
    let assembly := Assembly.build twoPiles shortCase keptWord
    let assembly' := Assembly.build twoPiles longCase keptWord
    let p := Program.read assembly.source
    let p' := Program.read assembly'.source
    twoPiles.validate = .ok () ∧ assembly.offset = 7 ∧ assembly'.offset = 8 ∧
      p.isValid = false ∧ p'.isValid = false ∧ p'.labels = [("top", 0)] ∧
      ∃ own : List Line, p.lines = own.map (Line.down 7) ∧ p'.lines = own.map (Line.down 8) := by
  intro assembly assembly' p p'
  have hoffset : assembly.offset = 7 := by decide
  have hoffset' : assembly'.offset = 8 := by decide
  have hread : p.isValid = false ∧ p.labels = [("top", 0)] := by decide +kernel
  have hshort : shortCase ∈ twoPiles.testCases := by decide
  have hlong : longCase ∈ twoPiles.testCases := by decide
  obtain ⟨hvalid, hlabels, hlines⟩ := Assembly.validity_independent_of_case twoPiles keptWord rfl
    hshort hlong (by decide) (by decide) rfl
  exact ⟨rfl, hoffset, hoffset', hread.1, hvalid.trans hread.1, hlabels.trans hread.2,
    hoffset ▸ hoffset' ▸ hlines⟩

/-! ## Diagnostics -/

/-- The same diagnostic, except that it may say another line on which a name is declared: the same
    line of the text under headings of `above` and `above'` lines, or any line of the headings. -/
def Diagnostic.AgreesWith (above above' : Nat) (d d' : Diagnostic) : Prop :=
  d' = d ∨ ∃ name line line', line - above = line' - above' ∧
    d.code = (Issue.duplicateName name line).code ∧
    d.message = (Issue.duplicateName name line).message ∧
    d' = { d with message := (Issue.duplicateName name line').message }

/-- Matching findings are shown by diagnostics that agree. -/
theorem Finding.Matches.agreesWith {above above' : Nat} {finding finding' : Finding}
    (h : finding.Matches above above' finding') {front front' : List SourceLine}
    (hfront : front.length = above) (hfront' : front'.length = above') (own : List SourceLine) :
    Diagnostic.AgreesWith above above'
      ((Diagnostic.ofFinding (front ++ own.map (SourceLine.below above)) finding).rebased above)
      ((Diagnostic.ofFinding (front' ++ own.map (SourceLine.below above')) finding').rebased
        above') := by
  obtain ⟨issue, span⟩ := finding
  obtain ⟨issue', span'⟩ := finding'
  obtain ⟨hissue, place, hplace, rfl, rfl⟩ := h
  have hquoted := lineText?_below front own above hplace
  have hquoted' := lineText?_below front' own above' hplace
  rw [hfront] at hquoted
  rw [hfront'] at hquoted'
  simp only [Diagnostic.ofFinding, Diagnostic.rebased, Span.down, hquoted, hquoted',
    Nat.add_sub_cancel]
  cases hissue with
  | same issue => exact .inl rfl
  | @duplicateName name line line' hline => exact .inr ⟨name, line, line', hline, rfl, rfl, rfl⟩

/-- What is wrong with a text is shown alike under headings that are written from the same names. -/
theorem Writable.agreesWith_diagnostics {tape tape' : List Slot}
    {objects objects' : List ObjectDecl} (h : Writable tape objects)
    (h' : Writable tape' objects') (hsame : SameNames tape tape' objects objects')
    (text : List Char) {above above' : Nat} (habove : (heading tape objects).count '\n' = above)
    (habove' : (heading tape' objects').count '\n' = above') :
    List.Forall₂ (Diagnostic.AgreesWith above above')
      ((Program.read (heading tape objects ++ text)).diagnostics.map fun d => d.rebased above)
      ((Program.read (heading tape' objects' ++ text)).diagnostics.map
        fun d => d.rebased above') := by
  have hdata := h.spellable.isWhole_and_isBare_dataLines
  have hdata' := h'.spellable.isWhole_and_isBare_dataLines
  have hlines : sourceLines (heading tape objects ++ text) = _ :=
    sourceLines_joinLines (isWhole_headingLines hdata) text
  have hlines' : sourceLines (heading tape' objects' ++ text) = _ :=
    sourceLines_joinLines (isWhole_headingLines hdata') text
  rw [count_heading hdata] at habove
  rw [count_heading hdata'] at habove'
  subst habove habove'
  obtain ⟨findings, findings', hfindings, hfindings', hmatches⟩ := h.matching_findings h' hsame text
  rw [hfindings, hfindings', hlines, hlines', List.map_map, List.map_map,
    List.forall₂_map_left_iff, List.forall₂_map_right_iff]
  apply hmatches.imp
  intro finding finding' hmatch
  exact hmatch.agreesWith (length_numberLines 1 _) (length_numberLines 1 _) (sourceLines text)

theorem Diagnostic.eq_of_agreesWith {above above' : Nat} {shown shown' : List Diagnostic}
    (h : List.Forall₂ (Diagnostic.AgreesWith above above') shown shown')
    (hcode : ∀ d ∈ shown, d.code.number ≠ 602) : shown' = shown := by
  induction h with
  | nil => rfl
  | @cons d d' shown shown' hagrees _ ih =>
      obtain ⟨hd, hshown⟩ := List.forall_mem_cons.mp hcode
      rw [ih hshown]
      rcases hagrees with rfl | ⟨name, line, line', -, hduplicate, -, -⟩
      · rfl
      · exact absurd (congrArg IssueCode.number hduplicate) hd

/-- For two test cases that have the same kinds and names of objects, a learner is shown the same
    diagnostics, except for the line that a name is said to be declared on before. If no name is
    declared again, all they are shown is the same. -/
theorem Session.lint_agrees_across_cases (s : Session) (submission : Submission)
    {index index' : Nat} {first second : TestCase} (hpuzzle : s.puzzle.validate = .ok ())
    (hfirst : s.puzzle.testCases[index]? = some first)
    (hsecond : s.puzzle.testCases[index']? = some second)
    (hbindings : ∀ binding ∈ submission.bindings, ∀ value ∈ binding.value, inRange value = true)
    (hnames : ∀ name ∈ declaredNames (s.puzzle.initialTape first submission.bindings) first.objects,
      isIdentifier name = true ∧ isReserved name = false)
    (hnodup : (declaredNames (s.puzzle.initialTape first submission.bindings)
      first.objects).Nodup)
    (hobjects : second.objects.map (fun object => (object.kind, object.name)) =
      first.objects.map fun object => (object.kind, object.name)) :
    let offset := (Assembly.build s.puzzle first submission).offset
    let offset' := (Assembly.build s.puzzle second submission).offset
    ∃ started started', s.begin submission index = .ok started ∧
      s.begin submission index' = .ok started' ∧
      List.Forall₂ (Diagnostic.AgreesWith offset offset') started.lint started'.lint ∧
      ((∀ d ∈ started.lint, d.code.number ≠ 602) → started'.lint = started.lint) := by
  intro offset offset'
  have hsame : SameNames (s.puzzle.initialTape first submission.bindings)
      (s.puzzle.initialTape second submission.bindings) first.objects second.objects :=
    Puzzle.sameNames_initialTape hobjects
  have hwritable := Puzzle.writable_of_bindings hpuzzle (List.mem_of_getElem? hfirst) hbindings
    hnames hnodup
  rw [← hsame.declaredNames_eq] at hnames hnodup
  have hwritable' := Puzzle.writable_of_bindings hpuzzle (List.mem_of_getElem? hsecond) hbindings
    hnames hnodup
  obtain ⟨started, hstarted, hlint⟩ := s.exists_begin submission hfirst
  obtain ⟨started', hstarted', hlint'⟩ := s.exists_begin submission hsecond
  have hagrees : List.Forall₂ (Diagnostic.AgreesWith offset offset') started.lint
      started'.lint := by
    rw [hlint, hlint']
    exact hwritable.agreesWith_diagnostics hwritable' hsame submission.text rfl rfl
  exact ⟨started, started', hstarted, hstarted', hagrees, Diagnostic.eq_of_agreesWith hagrees⟩

/-- Declares the name of a slot and a label again, and uses a name that is not declared. -/
def declaredAgain : Submission where
  text := "n:\ntop:\ntop:\nx = 1\n".toList
  bindings := []

theorem Session.lint_agrees_across_cases_declaredAgain :
    let s : Session := { puzzle := twoPiles }
    (Assembly.build twoPiles shortCase declaredAgain).offset = 6 ∧
      (Assembly.build twoPiles longCase declaredAgain).offset = 8 ∧
      ∃ started started', s.begin declaredAgain 0 = .ok started ∧
        s.begin declaredAgain 1 = .ok started' ∧
        started.lint.map (fun d => (d.code.number, d.span)) =
          [(602, ⟨1, 1, 2⟩), (602, ⟨3, 1, 4⟩), (600, ⟨4, 1, 2⟩)] ∧
        List.Forall₂ (Diagnostic.AgreesWith 6 8) started.lint started'.lint := by
  intro s
  have hoffset : (Assembly.build twoPiles shortCase declaredAgain).offset = 6 := by decide
  have hoffset' : (Assembly.build twoPiles longCase declaredAgain).offset = 8 := by decide
  have hshort : s.puzzle.testCases[0]? = some shortCase := rfl
  have hlong : s.puzzle.testCases[1]? = some longCase := rfl
  obtain ⟨started, started', hstarted, hstarted', hagrees, -⟩ := s.lint_agrees_across_cases
    declaredAgain rfl hshort hlong (by decide) (by decide) (by decide) rfl
  refine ⟨hoffset, hoffset', started, started', hstarted, hstarted', ?_,
    hoffset ▸ hoffset' ▸ hagrees⟩
  cases hstarted
  decide +kernel

/-- A label that is declared again is said to stand on a line of the whole program text, so that
    the learner is shown another number when a test case has one more slot to spell out. -/
theorem Session.lint_depends_on_heading :
    let puzzle : Puzzle := { slotCount := 2, testCases := [{}, { slots := some [5, 0] }] }
    let submission : Submission := ⟨"a:\na:\nend()".toList, []⟩
    let shown (index : Nat) : List Diagnostic :=
      match ({ puzzle := puzzle } : Session).begin submission index with
      | .ok started => started.lint
      | .error _ => []
    puzzle.validate = .ok () ∧
      (∀ case ∈ puzzle.testCases, case.objects = [] ∧
        declaredNames (puzzle.initialTape case []) case.objects = []) ∧
      (shown 0).map Diagnostic.message = ["name 'a' is already declared on line 5"] ∧
      (shown 1).map Diagnostic.message = ["name 'a' is already declared on line 6"] ∧
      shown 1 ≠ shown 0 := by
  refine ⟨rfl, ?_⟩
  decide +kernel

end TapePuzzle
