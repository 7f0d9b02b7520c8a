import TapePuzzle.Proofs.Reading.Layouts
import TapePuzzle.Proofs.Reading.Places

/-!
# Where declarations stand

A line of the data segment declares names on this line, or something is found wrong on it.
`Declarations.StandOn` says this of all declarations together. Main statement: every diagnostic of a
program text stands on a line of the text, within its columns, and quotes this line.
-/

namespace TapePuzzle

open Cursor

namespace Declarations

variable {d d' : Declarations} {c c' : Cursor}

/-! ## One line of the data segment -/

/-- Nothing more was found wrong, and new names are declared on the given line. -/
structure Grow (d d' : Declarations) (number : Nat) : Prop where
  findings : d'.findings = d.findings
  declared : ∀ entry ∈ d'.declared, entry ∈ d.declared ∨ entry.2 = number

theorem grow_of_take {ident : Ident} {number : Nat} (hfindings : d'.findings = d.findings)
    (hdeclared : d'.declared = (d.take ident).declared) (hline : ident.span.line = number) :
    d.Grow d' number := by
  refine ⟨hfindings, ?_⟩
  intro entry hentry
  rw [hdeclared] at hentry
  rcases List.mem_cons.mp hentry with hnew | hold
  · rw [hnew]
    exact .inr hline
  · exact .inl hold

theorem answers_checkName {ident : Ident} (h : ident.span.Within c.lineNumber c.line) :
    c.Answers (d.checkName ident) fun _ => True := by
  cases hcheck : d.checkName ident with
  | ok _ => trivial
  | error finding =>
      have hspan := span_of_checkName hcheck
      rw [Answers, hspan]
      exact h

theorem answers_readTapeLength (d : Declarations) (c : Cursor) :
    c.Answers (d.readTapeLength c) fun d' => d.Grow d' c.lineNumber := by
  have hskip := c.reaches_skipBlanks
  simp only [readTapeLength]
  split
  · exact hskip.answers_refuse _
  · rename_i counted hcounted
    split
    · exact ⟨rfl, fun _ => .inl⟩
    · exact .of_reaches hskip (reaches_eat? hcounted).within_spanFrom

theorem answers_readDataValue (h : c.Reaches c') :
    c.Answers (readDataValue c.offset c') fun _ => True := by
  simp only [readDataValue]
  split
  · trivial
  · exact h.within_spanFrom

theorem answers_readSlotIndex (d : Declarations) (c : Cursor) :
    c.Answers (d.readSlotIndex c) fun answer => c.Reaches answer.2 := by
  simp only [readSlotIndex]
  split
  · exact (Reaches.refl c).answers_refuse _
  · rename_i counted hcounted
    have hcounted := reaches_eat? hcounted
    split
    · split
      · exact hcounted.within_spanFrom
      · exact hcounted
    · exact hcounted.within_spanFrom

theorem reaches_readSlotName (c : Cursor) : c.Reaches (readSlotName c).2 := by
  have hskip := c.reaches_skipBlanks
  simp only [readSlotName]
  split
  · exact hskip
  · rename_i named hnamed
    exact hskip.trans (reaches_eat? hnamed)

theorem within_readSlotName {ident : Ident} (h : (readSlotName c).1 = some ident) :
    ident.span.Within c.lineNumber c.line := by
  have hskip := c.reaches_skipBlanks
  simp only [readSlotName] at h
  split at h
  · cases h
  · rename_i named hnamed
    cases h
    have hwithin := (reaches_eat? hnamed).within_spanFrom
    rw [hskip.lineNumber, hskip.line] at hwithin
    exact hwithin

theorem leads_readSlotValue : Leads readSlotValue := by
  intro c
  have hskip := c.reaches_skipBlanks
  simp only [readSlotValue]
  split
  · exact hskip
  · rename_i counted hcounted
    have hcounted := reaches_eat? hcounted
    apply (Answers.of_reaches hskip (answers_readDataValue hcounted)).bind
    intro value _
    exact hskip.trans hcounted

theorem answers_readSlotBinding (d : Declarations) (index : Nat) (c : Cursor) :
    c.Answers (d.readSlotBinding index c) fun d' => d.Grow d' c.lineNumber := by
  simp only [readSlotBinding]
  apply (leads_readSlotValue.answers (reaches_readSlotName c)).bind
  intro value hvalue
  split
  · exact hvalue.answers_refuse _
  · cases hname : (readSlotName c).1 with
    | none => cases value.1 <;> exact ⟨rfl, fun _ => .inl⟩
    | some ident =>
        have hwithin := within_readSlotName hname
        have hgrow : d.Grow (d.nameSlot index ident) c.lineNumber :=
          grow_of_take rfl rfl hwithin.line
        apply (answers_checkName hwithin).bind
        intro _ _
        -- the value changes the tape alone
        cases value.1 with
        | none => exact hgrow
        | some _ => exact ⟨hgrow.findings, hgrow.declared⟩

theorem answers_readValues (fuel : Nat) (c : Cursor) :
    c.Answers (readValues fuel c) fun _ => True := by
  induction fuel generalizing c with
  | zero => exact (Reaches.refl c).answers_refuse _
  | succ fuel ih =>
      have hskip := c.reaches_skipBlanks
      simp only [readValues]
      split
      · trivial
      · split
        · exact hskip.answers_refuse _
        · rename_i counted hcounted
          have hcounted := reaches_eat? hcounted
          apply (Answers.of_reaches hskip (answers_readDataValue hcounted)).bind
          intro value _
          apply (Answers.of_reaches (hskip.trans hcounted) (ih counted)).bind
          intro values _
          trivial

theorem answers_readObject (d : Declarations) (kind : ObjectKind) (c : Cursor) :
    c.Answers (d.readObject kind c) fun d' => d.Grow d' c.lineNumber := by
  simp only [readObject]
  split
  · exact (Reaches.refl c).answers_refuse _
  · rename_i start hstart
    have hstart := reaches_eat? hstart
    split
    · exact hstart.answers_refuse _
    · rename_i named hnamed
      have hnamed := reaches_eat? hnamed
      have hident : (named.spanFrom start.offset).Within c.lineNumber c.line := by
        have hwithin := hnamed.within_spanFrom
        rw [hstart.lineNumber, hstart.line] at hwithin
        exact hwithin
      apply (Answers.of_reaches (hstart.trans hnamed) (answers_readValues _ named)).bind
      intro values _
      split
      · exact hident
      · apply (answers_checkName hident).bind
        intro _ _
        exact grow_of_take rfl rfl hident.line

/-! ## All declarations -/

/-- All that was found wrong stands on the lines, and all names are declared on them. -/
structure StandOn (d : Declarations) (lines : List SourceLine) : Prop where
  findings : ∀ finding ∈ d.findings, finding.StandsOn lines
  declared : ∀ entry ∈ d.declared, ∃ line ∈ lines, entry.2 = line.number

theorem standOn_empty (lines : List SourceLine) : StandOn {} lines :=
  ⟨by simp, by simp⟩

namespace StandOn

variable {lines : List SourceLine} {line : SourceLine}

theorem reject (h : d.StandOn lines) {finding : Finding} (hfinding : finding.StandsOn lines) :
    (d.reject finding).StandOn lines := by
  refine ⟨?_, h.declared⟩
  intro found hfound
  rcases List.mem_append.mp hfound with hold | hnew
  · exact h.findings found hold
  · rw [List.mem_singleton.mp hnew]
    exact hfinding

theorem grow (h : d.StandOn lines) (hline : line ∈ lines) (hgrow : d.Grow d' line.number) :
    d'.StandOn lines := by
  refine ⟨hgrow.findings ▸ h.findings, ?_⟩
  intro entry hentry
  rcases hgrow.declared entry hentry with hold | hnew
  · exact h.declared entry hold
  · exact ⟨line, hline, hnew⟩

/-- A reader of the line was asked: its answer counts, or the finding in its place. -/
theorem orReject (h : d.StandOn lines) (hline : line ∈ lines) {result : Checked Declarations}
    (hnumber : c.lineNumber = line.number) (htext : c.line <+: line.text)
    (hanswer : c.Answers result fun d' => d.Grow d' c.lineNumber) :
    (d.orReject result).StandOn lines := by
  rw [hnumber] at hanswer
  cases result with
  | ok declared => exact h.grow hline hanswer
  | error finding =>
      apply h.reject
      have hwithin : finding.span.Within line.number c.line := hnumber ▸ hanswer
      exact ⟨line, hline, hwithin.of_isPrefix htext⟩

theorem bindSlot (h : d.StandOn lines) (hline : line ∈ lines) (hnumber : c.lineNumber = line.number)
    (htext : c.line <+: line.text) : (d.bindSlot c).StandOn lines := by
  have hindex := answers_readSlotIndex d c
  unfold Declarations.bindSlot
  cases hread : d.readSlotIndex c with
  | error finding =>
      rw [hread] at hindex
      apply h.reject
      have hwithin : finding.span.Within line.number c.line := hnumber ▸ hindex
      exact ⟨line, hline, hwithin.of_isPrefix htext⟩
  | ok answer =>
      rw [hread] at hindex
      have hreaches : c.Reaches answer.2 := hindex
      have hbound : ({ d with bound := answer.1 :: d.bound } : Declarations).StandOn lines :=
        ⟨h.findings, h.declared⟩
      exact hbound.orReject hline (hreaches.lineNumber.trans hnumber) (hreaches.line ▸ htext)
        (answers_readSlotBinding _ answer.1 answer.2)

theorem readDeclaration (h : d.StandOn lines) (hline : line ∈ lines)
    (hnumber : c.lineNumber = line.number) (htext : c.line <+: line.text) :
    (d.readDeclaration c).StandOn lines := by
  unfold Declarations.readDeclaration
  split
  · exact h.bindSlot hline hnumber htext
  · split
    · rename_i kind past hpast
      have hreaches := reaches_eatFirst? hpast
      exact h.orReject hline (hreaches.lineNumber.trans hnumber) (hreaches.line ▸ htext)
        (answers_readObject d kind past)
    · apply h.reject
      have hhere : c.here.Within line.number c.line := hnumber ▸ c.within_here
      exact ⟨line, hline, hhere.of_isPrefix htext⟩

theorem readLabel (h : d.StandOn lines) (hline : line ∈ lines) (index : Nat) :
    (d.readLabel line index).StandOn lines := by
  unfold Declarations.readLabel
  split
  · exact h
  · rename_i ident hlabel
    have hwithin := within_of_labelOf? hlabel
    cases hcheck : d.checkName ident with
    | error finding =>
        apply h.reject
        exact ⟨line, hline, span_of_checkName hcheck ▸ hwithin⟩
    | ok _ => exact h.grow hline (grow_of_take rfl rfl hwithin.line)

theorem readLabels (h : d.StandOn lines) {text : List SourceLine}
    (htext : ∀ line ∈ text, line ∈ lines) : (d.readLabels text).StandOn lines := by
  have hmem : ∀ entry ∈ text.zipIdx, entry.1 ∈ lines :=
    fun entry hentry => htext entry.1 (List.fst_mem_of_mem_zipIdx hentry)
  unfold Declarations.readLabels
  generalize text.zipIdx = numbered at hmem
  induction numbered generalizing d with
  | nil => exact h
  | cons entry numbered ih =>
      apply ih
      · exact h.readLabel (hmem entry List.mem_cons_self) entry.2
      · exact fun other hother => hmem other (List.mem_cons_of_mem entry hother)

end StandOn

end Declarations

namespace DataSegment

open Declarations

variable {s : DataSegment} {lines : List SourceLine} {line : SourceLine}

theorem within_point (line : SourceLine) :
    (Span.point line.number 1).Within line.number line.text :=
  ⟨rfl, Nat.le_refl 1, Nat.le_refl 1, Nat.le_add_left 1 _⟩

theorem standOn_demandLength (h : s.declarations.StandOn lines) (hline : line ∈ lines) :
    (s.demandLength line.number).declarations.StandOn lines := by
  unfold demandLength
  split
  · exact h
  · exact h.reject ⟨line, hline, within_point line⟩

theorem standOn_readLine (h : s.declarations.StandOn lines) (hline : line ∈ lines) :
    (s.readLine line).declarations.StandOn lines := by
  have hskip := (Cursor.start line.number (codePart line.text)).reaches_skipBlanks
  have hcode := codePart_isPrefix line.text
  unfold readLine
  split
  · exact h
  · dsimp only
    split
    · rename_i past hpast
      have hreaches := hskip.trans (reaches_eat? hpast)
      split
      · apply h.reject
        exact ⟨line, hline, hreaches.within_spanFrom.of_isPrefix hcode⟩
      · exact h.orReject hline hreaches.lineNumber (hreaches.line ▸ hcode)
          (answers_readTapeLength s.declarations past)
    · have hdemand := standOn_demandLength h hline
      exact hdemand.readDeclaration hline hskip.lineNumber (hskip.line ▸ hcode)

theorem standOn_foldl (h : s.declarations.StandOn lines) {data : List SourceLine}
    (hdata : ∀ line ∈ data, line ∈ lines) :
    (data.foldl readLine s).declarations.StandOn lines := by
  induction data generalizing s with
  | nil => exact h
  | cons line data ih =>
      obtain ⟨hline, hrest⟩ := List.forall_mem_cons.mp hdata
      exact ih (standOn_readLine h hline) hrest

/-- What the data segment declares, or what is wrong with it, stands on its lines, or on the line of
    the text marker. -/
theorem standOn_read {data : List SourceLine} {marker : SourceLine}
    (hdata : ∀ line ∈ data, line ∈ lines) (hmarker : marker ∈ lines) :
    (DataSegment.read data marker.number).StandOn lines :=
  standOn_demandLength (standOn_foldl (standOn_empty lines) hdata) hmarker

end DataSegment

/-! ## Programs -/

/-- Everything that is wrong with a text that is laid out properly stands on its lines. -/
theorem Layout.standsOn_findings {lines : List SourceLine} {layout : Layout}
    (h : Layout.ofLines lines = .ok layout) {finding : Finding}
    (hfinding : finding ∈ layout.declarations.findings ++
      (readTextLines layout.declarations.names {} none layout.text).2) :
    finding.StandsOn lines := by
  obtain ⟨header, second, marker, rfl, -, -, -, -, hnumber, -⟩ := Layout.lines_of_ofLines h
  have htext : ∀ line ∈ layout.text,
      line ∈ header :: second :: (layout.data ++ marker :: layout.text) := by
    intro line hline
    simp [hline]
  rcases List.mem_append.mp hfinding with hfinding | hfinding
  · have hdata : (DataSegment.read layout.data marker.number).StandOn
        (header :: second :: (layout.data ++ marker :: layout.text)) := by
      apply DataSegment.standOn_read
      · intro line hline
        simp [hline]
      · simp
    rw [Layout.declarations, ← hnumber] at hfinding
    exact (hdata.readLabels htext).findings finding hfinding
  · exact standsOn_of_mem_readTextLines htext (by simp) hfinding

theorem standsOn_point {lines : List (List Char)} {number : Nat} (hleast : 1 ≤ number)
    (hmost : number ≤ lines.length) (issue : Issue) :
    Finding.StandsOn ⟨issue, Span.point number 1⟩ (numberLines 1 lines) := by
  have hindex : number - 1 < lines.length := by omega
  have hline : (numberLines 1 lines)[number - 1]? = some ⟨number, lines[number - 1]⟩ := by
    rw [getElem?_numberLines, List.getElem?_eq_getElem hindex, Nat.add_sub_cancel' hleast]
    rfl
  exact ⟨⟨number, lines[number - 1]⟩, List.mem_of_getElem? hline,
    DataSegment.within_point ⟨number, lines[number - 1]⟩⟩

/-- What is wrong with the layout of a text stands on its lines, if it has the two lines on which
    its first markers are looked for. -/
theorem Layout.standsOn_of_error {lines : List (List Char)} {finding : Finding}
    (hlines : 2 ≤ lines.length) (h : Layout.ofLines (numberLines 1 lines) = .error finding) :
    finding.StandsOn (numberLines 1 lines) := by
  have hlength : (numberLines 1 lines).length = lines.length := length_numberLines 1 lines
  unfold Layout.ofLines at h
  split at h
  · cases h
    exact standsOn_point (by omega) (by omega) _
  · split at h
    · cases h
      exact standsOn_point (by omega) (by omega) _
    · dsimp only at h
      split at h
      · cases h
        exact standsOn_point (by omega) (by omega) _
      · cases h
      · rename_i first second more hmarkers
        cases h
        have hsecond : second ∈ ((numberLines 1 lines).drop 2).filter isTextMarker := by
          simp [hmarkers]
        have hmem := List.mem_of_mem_drop (List.mem_filter.mp hsecond).1
        exact ⟨second, hmem, DataSegment.within_point second⟩

/-- Every diagnostic of a text that has two lines stands on one of its lines, within the columns of
    the line, and quotes it. -/
theorem Program.standsOn_read {text : List Char} (htext : 2 ≤ (sourceLines text).length)
    {d : Diagnostic} (hd : d ∈ (Program.read text).diagnostics) :
    ∃ line ∈ sourceLines text, d.span.Within line.number line.text ∧
      d.sourceLine = String.ofList line.text := by
  have hfinding : ∃ finding, finding.StandsOn (sourceLines text) ∧
      d = Diagnostic.ofFinding (sourceLines text) finding := by
    unfold Program.read Program.ofLines at hd
    cases hlayout : Layout.ofLines (sourceLines text) with
    | error finding =>
        rw [hlayout] at hd
        refine ⟨finding, ?_, List.mem_singleton.mp hd⟩
        rw [sourceLines_eq_numberLines] at hlayout ⊢
        apply Layout.standsOn_of_error _ hlayout
        simpa using htext
    | ok layout =>
        rw [hlayout] at hd
        obtain ⟨finding, hmem, rfl⟩ := List.mem_map.mp hd
        exact ⟨finding, Layout.standsOn_findings hlayout hmem, rfl⟩
  obtain ⟨finding, ⟨line, hline, hwithin⟩, rfl⟩ := hfinding
  refine ⟨line, hline, hwithin, ?_⟩
  rw [Diagnostic.ofFinding, hwithin.line, lineText?_of_mem hline]
  rfl

end TapePuzzle
