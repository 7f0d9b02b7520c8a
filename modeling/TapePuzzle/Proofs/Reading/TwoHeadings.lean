import Mathlib.Data.List.Forall2
import TapePuzzle.Proofs.Assemblies
import TapePuzzle.Proofs.Reading.DeclarationPlaces
import TapePuzzle.Proofs.Reading.MovedDown
import TapePuzzle.Proofs.Reading.Programs
import TapePuzzle.Proofs.Reading.Rosters

/-!
# One text under two headings

Headings that are written from the same names may have different numbers of lines. Main statements:
a text is read alike under both, and what is wrong with it is found in the same places; only the
line that a name is said to be declared on counts from the first line of the heading.
-/

namespace TapePuzzle

variable {above above' : Nat}

/-! ## Findings -/

/-- The same issue in a text under headings of `above` and `above'` lines. Line numbers count from
    the first line of the heading. -/
inductive Issue.Matches (above above' : Nat) : Issue → Issue → Prop where
  | same (issue : Issue) : Matches above above' issue issue
  | duplicateName (name : String) {line line' : Nat} (hline : line - above = line' - above') :
      Matches above above' (.duplicateName name line) (.duplicateName name line')

/-- The same finding in the same place of a text under two headings. -/
structure Finding.Matches (above above' : Nat) (finding finding' : Finding) : Prop where
  issue : finding.issue.Matches above above' finding'.issue
  place : ∃ own : Span, 1 ≤ own.line ∧ finding.span = own.down above ∧
    finding'.span = own.down above'

theorem Finding.matches_down {finding : Finding} (h : 1 ≤ finding.span.line) :
    (finding.down above).Matches above above' (finding.down above') :=
  ⟨.same finding.issue, finding.span, h, rfl, rfl⟩

/-! ## Labels -/

/-- The same name, declared on the same line of the text or anywhere in the headings. -/
def SameEntry (above above' : Nat) (entry entry' : String × Nat) : Prop :=
  entry'.1 = entry.1 ∧ entry.2 - above = entry'.2 - above'

theorem lookup_of_sameEntry {table table' : List (String × Nat)}
    (h : List.Forall₂ (SameEntry above above') table table') (name : String) :
    Option.Rel (fun line line' => line - above = line' - above') (table.lookup name)
      (table'.lookup name) := by
  induction h with
  | nil => exact .none
  | @cons entry entry' table table' hentry _ ih =>
      obtain ⟨first, line⟩ := entry
      obtain ⟨first', line'⟩ := entry'
      obtain ⟨rfl, hline⟩ : first' = first ∧ line - above = line' - above' := hentry
      rw [List.lookup_cons, List.lookup_cons]
      by_cases hname : (name == first') = true
      · rw [hname]
        exact .some hline
      · rw [Bool.not_eq_true] at hname
        rw [hname]
        exact ih

/-- Entries that all stand in the headings are the same if their names are. -/
theorem forall₂_sameEntry {table table' : List (String × Nat)}
    (hnames : table'.map Prod.fst = table.map Prod.fst) (h : ∀ entry ∈ table, entry.2 ≤ above)
    (h' : ∀ entry ∈ table', entry.2 ≤ above') :
    List.Forall₂ (SameEntry above above') table table' := by
  induction table generalizing table' with
  | nil =>
      obtain rfl := List.map_eq_nil_iff.mp hnames
      exact .nil
  | cons entry table ih =>
      obtain ⟨entry', more, rfl, hname, hmore⟩ := List.map_eq_cons_iff.mp hnames
      obtain ⟨hentry, htable⟩ := List.forall_mem_cons.mp h
      obtain ⟨hentry', htable'⟩ := List.forall_mem_cons.mp h'
      refine .cons ⟨hname, ?_⟩ (ih hmore htable htable')
      rw [Nat.sub_eq_zero_of_le hentry, Nat.sub_eq_zero_of_le hentry']

namespace Declarations

variable {d d' : Declarations} {base base' : List Finding}

theorem checkName_down (d : Declarations) (offset : Nat) (ident : Ident) :
    d.checkName (ident.down offset) =
      if isReserved ident.name then
        .error ⟨.reservedName ident.name, ident.span.down offset⟩
      else
        match d.declared.lookup ident.name with
        | some line => .error ⟨.duplicateName ident.name line, ident.span.down offset⟩
        | none => .ok () := rfl

/-- The same names are declared under two headings, and the same was found wrong since `base` and
    `base'`. -/
structure Match (above above' : Nat) (base base' : List Finding) (d d' : Declarations) : Prop where
  names : d'.names = d.names
  declared : List.Forall₂ (SameEntry above above') d.declared d'.declared
  findings : ∃ found found', d.findings = base ++ found ∧ d'.findings = base' ++ found' ∧
    List.Forall₂ (Finding.Matches above above') found found'

namespace Match

theorem reject (h : Match above above' base base' d d') {finding finding' : Finding}
    (hfinding : finding.Matches above above' finding') :
    Match above above' base base' (d.reject finding) (d'.reject finding') := by
  obtain ⟨found, found', hfound, hfound', hmatches⟩ := h.findings
  refine ⟨h.names, h.declared, found ++ [finding], found' ++ [finding'], ?_, ?_, ?_⟩
  · rw [Declarations.reject, hfound, List.append_assoc]
  · rw [Declarations.reject, hfound', List.append_assoc]
  · exact List.rel_append hmatches (.cons hfinding .nil)

/-- A name that stands in the text can be declared under both headings, or under neither, for the
    same reason. -/
theorem checkName (h : Match above above' base base' d d') {ident : Ident}
    (hline : 1 ≤ ident.span.line) :
    (d.checkName (ident.down above) = .ok () ∧ d'.checkName (ident.down above') = .ok ()) ∨
      ∃ finding finding', d.checkName (ident.down above) = .error finding ∧
        d'.checkName (ident.down above') = .error finding' ∧
        finding.Matches above above' finding' := by
  have hlookup := lookup_of_sameEntry h.declared ident.name
  simp only [checkName_down]
  by_cases hreserved : isReserved ident.name = true
  · simp only [if_pos hreserved]
    exact .inr ⟨_, _, rfl, rfl, .same _, ident.span, hline, rfl, rfl⟩
  · simp only [if_neg hreserved]
    generalize d.declared.lookup ident.name = line? at hlookup
    generalize d'.declared.lookup ident.name = line?' at hlookup
    cases hlookup with
    | none => exact .inl ⟨rfl, rfl⟩
    | some hsame =>
        exact .inr ⟨_, _, rfl, rfl, .duplicateName ident.name hsame, ident.span, hline, rfl, rfl⟩

theorem readLabel (h : Match above above' base base' d d') {line : SourceLine}
    (hline : 1 ≤ line.number) (index : Nat) :
    Match above above' base base' (d.readLabel (line.below above) index)
      (d'.readLabel (line.below above') index) := by
  simp only [Declarations.readLabel, labelOf?_below]
  cases hlabel : labelOf? line with
  | none => exact h
  | some ident =>
      have hspan := (within_of_labelOf? hlabel).line
      simp only [Option.map_some]
      rcases h.checkName (hspan ▸ hline) with
        ⟨hok, hok'⟩ | ⟨finding, finding', herror, herror', hmatches⟩
      · rw [hok, hok']
        refine ⟨?_, .cons ⟨rfl, ?_⟩ h.declared, h.findings⟩
        · exact congrArg (Names.addLabel · ident.name index) h.names
        · simp only [Ident.down, Span.down, Nat.add_sub_cancel]
      · rw [herror, herror']
        exact h.reject hmatches

theorem readLabels (h : Match above above' base base' d d') {own : List SourceLine}
    (hown : ∀ line ∈ own, 1 ≤ line.number) :
    Match above above' base base' (d.readLabels (own.map (SourceLine.below above)))
      (d'.readLabels (own.map (SourceLine.below above'))) := by
  have hnumbered : ∀ entry ∈ own.zipIdx, 1 ≤ entry.1.number :=
    fun entry hentry => hown entry.1 (List.fst_mem_of_mem_zipIdx hentry)
  unfold Declarations.readLabels
  -- a label means an index into the text segment, which no heading changes: both runs are over the
  -- same numbered lines
  rw [List.zipIdx_map, List.zipIdx_map, List.foldl_map, List.foldl_map]
  generalize own.zipIdx = numbered at hnumbered
  induction numbered generalizing d d' with
  | nil => exact h
  | cons entry numbered ih =>
      obtain ⟨hentry, hmore⟩ := List.forall_mem_cons.mp hnumbered
      exact ih (h.readLabel hentry entry.2) hmore

end Match

end Declarations

/-! ## Headings -/

section Headings

variable {tape tape' : List Slot} {objects objects' : List ObjectDecl}

/-- Two tapes and two lists of objects under the same names. -/
structure SameNames (tape tape' : List Slot) (objects objects' : List ObjectDecl) : Prop where
  slots : tape'.map Slot.name = tape.map Slot.name
  objects : objects'.map (fun object => (object.kind, object.name)) =
    objects.map fun object => (object.kind, object.name)

/-- What the lines of a heading declare. -/
def headingDeclarations (tape : List Slot) (objects : List ObjectDecl) : Declarations :=
  DataSegment.read (numberLines 3 (dataLines tape objects)) (headingLines tape objects).length

/-- A text under a heading, divided into its segments. -/
def headingLayout (tape : List Slot) (objects : List ObjectDecl) (text : List Char) : Layout where
  data := numberLines 3 (dataLines tape objects)
  textLine := (headingLines tape objects).length
  text := (sourceLines text).map (SourceLine.below (headingLines tape objects).length)

theorem line_le_of_mem_declared {entry : String × Nat}
    (h : entry ∈ (headingDeclarations tape objects).declared) :
    entry.2 ≤ (headingLines tape objects).length := by
  have hmarker : (⟨(headingLines tape objects).length, textMarker.toList⟩ : SourceLine) ∈
      numberLines 3 (dataLines tape objects) ++
        [⟨(headingLines tape objects).length, textMarker.toList⟩] := by simp
  have hdata : ∀ line ∈ numberLines 3 (dataLines tape objects),
      line ∈ numberLines 3 (dataLines tape objects) ++
        [⟨(headingLines tape objects).length, textMarker.toList⟩] := by
    intro line hline
    exact List.mem_append_left _ hline
  obtain ⟨line, hline, heq⟩ := (DataSegment.standOn_read hdata hmarker).declared entry h
  rw [heq]
  rcases List.mem_append.mp hline with hline | hline
  · have hnumber := (number_of_mem_numberLines hline).2
    rw [length_headingLines]
    omega
  · exact Nat.le_of_eq (congrArg SourceLine.number (List.mem_singleton.mp hline))

/-- A text under a heading is read as its text segment, unless it has a text marker of its own. -/
theorem Spellable.read_heading (h : Spellable tape objects) (text : List Char) :
    let lines := sourceLines (heading tape objects ++ text)
    Program.read (heading tape objects ++ text) =
      match (sourceLines text).filter isTextMarker with
      | [] => Program.ofLayout lines (headingLayout tape objects text)
      | extra :: _ =>
          let finding : Finding := ⟨.duplicateTextMarker, Span.point extra.number 1⟩
          { diagnostics :=
              [Diagnostic.ofFinding lines (finding.down (headingLines tape objects).length)] } := by
  have hlayout := layout_heading h.isWhole_and_isBare_dataLines text
  intro lines
  rw [Program.read, Program.ofLines, hlayout]
  cases (sourceLines text).filter isTextMarker <;> rfl

section Matching

variable (h : Spellable tape objects) (h' : Spellable tape' objects')
  (hsame : SameNames tape tape' objects objects')

include h h' hsame

theorem Spellable.roster_headingDeclarations :
    (headingDeclarations tape' objects').roster = (headingDeclarations tape objects).roster := by
  have hroster := h.roster_read (map_text_numberLines 3 _) (headingLines tape objects).length
  have hroster' := h'.roster_read (map_text_numberLines 3 _) (headingLines tape' objects').length
  have hheading : Roster.ofHeading tape' objects' = Roster.ofHeading tape objects := by
    rw [Roster.ofHeading, Roster.ofTape, hsame.slots, hsame.objects, ← Roster.ofTape,
      Roster.ofHeading]
  exact hroster'.trans (hheading.trans hroster.symm)

theorem Spellable.match_declarations (text : List Char) :
    Declarations.Match (headingLines tape objects).length (headingLines tape' objects').length
      (headingDeclarations tape objects).findings (headingDeclarations tape' objects').findings
      (headingLayout tape objects text).declarations
      (headingLayout tape' objects' text).declarations := by
  have hroster := h.roster_headingDeclarations h' hsame
  have hentries := forall₂_sameEntry (congrArg Roster.taken hroster)
    (fun _ => line_le_of_mem_declared) fun _ => line_le_of_mem_declared
  have hmatch : Declarations.Match (headingLines tape objects).length
      (headingLines tape' objects').length (headingDeclarations tape objects).findings
      (headingDeclarations tape' objects').findings (headingDeclarations tape objects)
      (headingDeclarations tape' objects') :=
    ⟨congrArg Roster.names hroster, hentries, [], [], by simp, by simp, .nil⟩
  exact hmatch.readLabels fun line hline => (number_of_mem_sourceLines hline).1

/-- The lines of a text are read alike, and the same is found wrong with them. -/
theorem Spellable.readTextLines_alike (text : List Char) :
    let layout := headingLayout tape objects text
    let layout' := headingLayout tape' objects' text
    ∃ (own : List Line) (found : List Finding), (∀ finding ∈ found, 1 ≤ finding.span.line) ∧
      readTextLines layout.declarations.names {} none layout.text =
        (own.map (Line.down (headingLines tape objects).length),
          found.map (Finding.down (headingLines tape objects).length)) ∧
      readTextLines layout'.declarations.names {} none layout'.text =
        (own.map (Line.down (headingLines tape' objects').length),
          found.map (Finding.down (headingLines tape' objects').length)) := by
  intro layout layout'
  have hnames : layout'.declarations.names = layout.declarations.names :=
    (h.match_declarations h' hsame text).names
  rw [hnames]
  refine ⟨_, _, ?_, readTextLines_below layout.declarations.names {} none (sourceLines text),
    readTextLines_below layout.declarations.names {} none (sourceLines text)⟩
  intro finding hfinding
  obtain ⟨line, hline, hwithin⟩ := standsOn_of_mem_readTextLines (fun _ => id) (by simp) hfinding
  rw [hwithin.line]
  exact (number_of_mem_sourceLines hline).1

/-- Under headings that are written from the same names, a text is right under both or under
    neither, it has the same labels, and its lines are read alike. -/
theorem Spellable.read_alike (text : List Char) :
    let p := Program.read (heading tape objects ++ text)
    let p' := Program.read (heading tape' objects' ++ text)
    p'.isValid = p.isValid ∧ p'.labels = p.labels ∧
      ∃ own : List Line, p.lines = own.map (Line.down ((heading tape objects).count '\n')) ∧
        p'.lines = own.map (Line.down ((heading tape' objects').count '\n')) := by
  intro p p'
  have hp : p = _ := h.read_heading text
  have hp' : p' = _ := h'.read_heading text
  rw [count_heading h.isWhole_and_isBare_dataLines, count_heading h'.isWhole_and_isBare_dataLines,
    hp, hp']
  cases (sourceLines text).filter isTextMarker with
  | cons extra markers => exact ⟨rfl, rfl, [], rfl, rfl⟩
  | nil =>
      have hmatch := h.match_declarations h' hsame text
      have hrefused := congrArg Roster.refused (h.roster_headingDeclarations h' hsame)
      obtain ⟨found, found', hfound, hfound', hmatches⟩ := hmatch.findings
      obtain ⟨own, wrong, -, hread, hread'⟩ := h.readTextLines_alike h' hsame text
      refine ⟨?_, ?_, own, congrArg Prod.fst hread, congrArg Prod.fst hread'⟩
      · have hcount : (headingLayout tape' objects' text).declarations.findings.length =
            (headingLayout tape objects text).declarations.findings.length := by
          rw [hfound, hfound', List.length_append, List.length_append, hmatches.length_eq]
          exact congrArg (· + found'.length) hrefused
        rw [Bool.eq_iff_iff]
        simp only [Program.isValid, Program.ofLayout, hread, hread',
          List.isEmpty_iff_length_eq_zero, List.length_map, List.length_append, hcount]
      · have hsound := (headingLayout tape objects text).sound_declarations
        have hsound' := (headingLayout tape' objects' text).sound_declarations
        exact hsound'.labels.symm.trans ((congrArg Names.labels hmatch.names).trans hsound.labels)

end Matching

/-! ## Diagnostics -/

theorem Writable.findings_headingDeclarations (h : Writable tape objects) :
    (headingDeclarations tape objects).findings = [] :=
  (h.read_dataLines (map_text_numberLines 3 _) (headingLines tape objects).length).2.2

/-- If nothing is wrong with the headings, the same is found wrong with a text under both. -/
theorem Writable.matching_findings (h : Writable tape objects) (h' : Writable tape' objects')
    (hsame : SameNames tape tape' objects objects') (text : List Char) :
    ∃ findings findings',
      (Program.read (heading tape objects ++ text)).diagnostics =
        findings.map (Diagnostic.ofFinding (sourceLines (heading tape objects ++ text))) ∧
      (Program.read (heading tape' objects' ++ text)).diagnostics =
        findings'.map (Diagnostic.ofFinding (sourceLines (heading tape' objects' ++ text))) ∧
      List.Forall₂ (Finding.Matches (headingLines tape objects).length
        (headingLines tape' objects').length) findings findings' := by
  rw [h.spellable.read_heading, h'.spellable.read_heading]
  cases hmarkers : (sourceLines text).filter isTextMarker with
  | cons extra markers =>
      have hextra : extra ∈ (sourceLines text).filter isTextMarker := by simp [hmarkers]
      refine ⟨[_], [_], rfl, rfl, .cons (Finding.matches_down ?_) .nil⟩
      exact (number_of_mem_sourceLines (List.mem_filter.mp hextra).1).1
  | nil =>
      have hmatch := h.spellable.match_declarations h'.spellable hsame text
      rw [h.findings_headingDeclarations, h'.findings_headingDeclarations] at hmatch
      obtain ⟨found, found', hfound, hfound', hmatches⟩ := hmatch.findings
      obtain ⟨own, wrong, hwrong, hread, hread'⟩ :=
        h.spellable.readTextLines_alike h'.spellable hsame text
      refine ⟨_, _, rfl, rfl, ?_⟩
      rw [hfound, hfound', hread, hread']
      apply List.rel_append hmatches
      rw [List.forall₂_map_left_iff, List.forall₂_map_right_iff, List.forall₂_same]
      intro finding hfinding
      exact Finding.matches_down (hwrong finding hfinding)

end Headings

end TapePuzzle
