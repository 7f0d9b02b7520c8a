import TapePuzzle.Proofs.Reading.Equations
import TapePuzzle.Reading.Program

/-!
# Where findings stand

A reader moves along one line. `Cursor.Answers` says what can be relied on of its answer: it is good
in some sense, or the finding in its place stands on this line. Main statement: what is wrong with
the text segment stands on lines of the text segment, within their columns.
-/

namespace TapePuzzle

/-- The span is on the given line, and it starts and ends where this line has columns. -/
structure Span.Within (s : Span) (number : Nat) (text : List Char) : Prop where
  line : s.line = number
  start : 1 ≤ s.startColumn
  order : s.startColumn ≤ s.endColumn
  finish : s.endColumn ≤ byteLength text + 1

theorem Span.Within.of_isPrefix {s : Span} {number : Nat} {text longer : List Char}
    (h : s.Within number text) (hlonger : text <+: longer) : s.Within number longer := by
  obtain ⟨rest, rfl⟩ := hlonger
  have hfinish := h.finish
  exact ⟨h.line, h.start, h.order, by simp; omega⟩

namespace Cursor

variable {c c' c'' : Cursor} {α β : Type} {good : α → Prop} {good' : β → Prop}

/-! ## Moving along a line -/

/-- The second position is on the same line, and not before the first one. -/
structure Reaches (c c' : Cursor) : Prop where
  lineNumber : c'.lineNumber = c.lineNumber
  line : c'.line = c.line
  offset : c.offset ≤ c'.offset

theorem Reaches.refl (c : Cursor) : c.Reaches c := ⟨rfl, rfl, Nat.le_refl _⟩

theorem Reaches.trans (h : c.Reaches c') (h' : c'.Reaches c'') : c.Reaches c'' :=
  ⟨h'.lineNumber.trans h.lineNumber, h'.line.trans h.line, Nat.le_trans h.offset h'.offset⟩

theorem reaches_eat? {p : Pattern} (h : c.eat? p = some c') : c.Reaches c' := by
  refine ⟨?_, line_of_eat? h, ?_⟩
  all_goals
    obtain ⟨⟨found, rest⟩, -, rfl⟩ := Option.map_eq_some_iff.mp h
    simp [offset]

theorem reaches_skipBlanks (c : Cursor) : c.Reaches c.skipBlanks :=
  ⟨rfl, line_skipBlanks c, by simp [offset, skipBlanks]⟩

/-- The alternative that is taken matches. -/
theorem eat?_of_eatFirst? {pattern : α → Pattern} {choices : List α} {choice : α}
    (h : c.eatFirst? pattern choices = some (choice, c')) : c.eat? (pattern choice) = some c' := by
  induction choices with
  | nil => cases h
  | cons first choices ih =>
      simp only [eatFirst?] at h
      split at h
      · rename_i past hpast
        cases h
        exact hpast
      · exact ih h

theorem reaches_eatFirst? {pattern : α → Pattern} {choices : List α} {choice : α}
    (h : c.eatFirst? pattern choices = some (choice, c')) : c.Reaches c' :=
  reaches_eat? (eat?_of_eatFirst? h)

theorem offset_le (c : Cursor) : c.offset ≤ byteLength c.line := by
  simp [offset, line]

theorem within_here (c : Cursor) : c.here.Within c.lineNumber c.line :=
  ⟨rfl, Nat.le_add_left 1 _, Nat.le_refl _, Nat.succ_le_succ c.offset_le⟩

/-- What was passed on the way from one position to another. -/
theorem Reaches.within_spanFrom (h : c.Reaches c') :
    (c'.spanFrom c.offset).Within c.lineNumber c.line :=
  ⟨h.lineNumber, Nat.le_add_left 1 _, Nat.succ_le_succ h.offset,
    h.line ▸ Nat.succ_le_succ c'.offset_le⟩

/-! ## Answers of readers -/

/-- The answer of a reader is good, or the finding in its place stands on the line. -/
def Answers (c : Cursor) (result : Checked α) (good : α → Prop) : Prop :=
  match result with
  | .ok answer => good answer
  | .error finding => finding.span.Within c.lineNumber c.line

namespace Answers

variable {result : Checked α}

theorem weaken (h : c.Answers result good) {fair : α → Prop}
    (hfair : ∀ answer, good answer → fair answer) : c.Answers result fair := by
  cases result with
  | ok answer => exact hfair answer h
  | error finding => exact h

/-- What stands on the rest of a line stands on the line. -/
theorem of_reaches (hreaches : c.Reaches c') (h : c'.Answers result good) :
    c.Answers result good := by
  cases result with
  | ok answer => exact h
  | error finding =>
      rw [Answers, ← hreaches.line, ← hreaches.lineNumber]
      exact h

theorem bind {next : α → Checked β} (h : c.Answers result good)
    (hnext : ∀ answer, good answer → c.Answers (next answer) good') :
    c.Answers (result >>= next) good' := by
  cases result with
  | ok answer => exact hnext answer h
  | error finding => exact h

end Answers

theorem Reaches.answers_refuse (h : c.Reaches c') (issue : Issue) :
    c.Answers (c'.refuse issue) good :=
  .of_reaches h c'.within_here

theorem Reaches.answers_expect (h : c.Reaches c') (wanted : String) :
    c.Answers (c'.expect wanted) c.Reaches := by
  unfold expect
  split
  · rename_i past hpast
    exact h.trans (reaches_eat? hpast)
  · exact h.answers_refuse _

/-- Wherever the reader starts, it moves along the line or finds something wrong with it. -/
def Leads (reader : Cursor → Checked (α × Cursor)) : Prop :=
  ∀ c : Cursor, c.Answers (reader c) fun answer => c.Reaches answer.2

theorem Leads.answers {reader : Cursor → Checked (α × Cursor)} (hreader : Leads reader)
    (h : c.Reaches c') : c.Answers (reader c') fun answer => c.Reaches answer.2 :=
  .of_reaches h ((hreader c').weaken fun _ => h.trans)

end Cursor

open Cursor

/-! ## Equations -/

variable {c c' : Cursor}

theorem answers_readNumber (h : c.Reaches c') :
    c.Answers (readNumber c.offset c') fun _ => True := by
  simp only [readNumber]
  split
  · trivial
  · exact h.within_spanFrom

theorem leads_readRun {operand : OperandReader} (hoperand : Leads operand) (stop : EndMark)
    (fuel : Nat) (afterNumber : Bool) : Leads (readRun operand stop fuel afterNumber) := by
  induction fuel generalizing afterNumber with
  | zero => exact fun c => (Reaches.refl c).answers_refuse _
  | succ fuel ih =>
      intro c
      have hskip := c.reaches_skipBlanks
      simp only [readRun]
      split
      · exact hskip
      · split
        · exact hskip.answers_refuse _
        · rename_i op past hpast
          have hpast := (hskip.trans (reaches_eatFirst? hpast)).trans past.reaches_skipBlanks
          refine (hoperand.answers hpast).bind ?_
          rintro ⟨right, behind⟩ hbehind
          refine ((ih right.isNumber).answers hbehind).bind ?_
          rintro ⟨run, last⟩ hlast
          exact hlast

theorem leads_readEquationWith {operand : OperandReader} (hoperand : Leads operand)
    (stop : EndMark) : Leads (readEquationWith operand stop) := by
  intro c
  refine (hoperand.answers c.reaches_skipBlanks).bind ?_
  rintro ⟨first, behind⟩ hbehind
  refine ((leads_readRun hoperand stop _ _).answers hbehind).bind ?_
  rintro ⟨run, last⟩ hlast
  exact hlast

section Nested

variable {equation : EquationReader} (hequation : ∀ stop, Leads (equation stop))

include hequation

theorem leads_readSlotRef (name : Ident) : Leads (readSlotRef equation name) := by
  intro c
  unfold readSlotRef
  split
  · exact Reaches.refl c
  · rename_i opened hopened
    refine ((hequation _).answers (reaches_eat? hopened)).bind ?_
    rintro ⟨offset, last⟩ hlast
    refine (hlast.answers_expect "]").bind fun closed hclosed => ?_
    exact hclosed

theorem leads_readArgument (callee : String) (arity : Nat) :
    Leads (readArgument equation callee arity) := by
  intro c
  unfold readArgument
  split
  · exact (Reaches.refl c).answers_refuse _
  · rename_i opened hopened
    have hinner := (reaches_eat? hopened).trans opened.reaches_skipBlanks
    dsimp only
    split
    · rename_i closed hclosed
      have hclosed := reaches_eat? hclosed
      split
      · exact .of_reaches hinner hclosed.within_spanFrom
      · exact hinner.trans hclosed
    · split
      · exact hinner.answers_refuse _
      · refine ((hequation _).answers hinner).bind ?_
        rintro ⟨argument, last⟩ hlast
        refine (hlast.answers_expect ")").bind fun closed hclosed => ?_
        exact hclosed

theorem leads_readMethod (kind : ObjectKind) (object : Ident) (start : Nat) :
    Leads (readMethod equation kind object start) := by
  intro c
  refine ((Reaches.refl c).answers_expect ".").bind fun dotted hdotted => ?_
  split
  · exact hdotted.answers_refuse _
  · rename_i named hnamed
    have hnamed := reaches_eat? hnamed
    split
    · exact .of_reaches hdotted hnamed.within_spanFrom
    · refine ((leads_readArgument hequation _ _).answers (hdotted.trans hnamed)).bind ?_
      rintro ⟨argument?, closed⟩ hclosed
      cases argument? <;> exact hclosed

/-- The name was read on the way from one position to the other. -/
theorem answers_readNamed (names : Names) (h : c.Reaches c') :
    c.Answers (readNamed names equation c.offset c') fun answer => c.Reaches answer.2 := by
  unfold readNamed
  dsimp only
  split
  · refine ((leads_readSlotRef hequation _).answers h).bind ?_
    rintro ⟨slot, behind⟩ hbehind
    exact hbehind
  · exact (leads_readMethod hequation _ _ _).answers h
  · refine ((leads_readArgument hequation _ _).answers h).bind ?_
    rintro ⟨argument?, closed⟩ hclosed
    cases argument? <;> exact hclosed
  · exact h.within_spanFrom
  · exact h.within_spanFrom
  · exact h.within_spanFrom

end Nested

theorem leads_readOperand (names : Names) (fuel : Nat) : Leads (readOperand names fuel) := by
  induction fuel with
  | zero => exact fun c => (Reaches.refl c).answers_refuse _
  | succ fuel ih =>
      intro c
      have hequation := leads_readEquationWith ih
      simp only [readOperand]
      split
      · rename_i past hpast
        have hpast := reaches_eat? hpast
        refine (answers_readNumber hpast).bind fun number _ => ?_
        exact hpast
      · split
        · rename_i op past hpast
          have hpast := (reaches_eatFirst? hpast).trans past.reaches_skipBlanks
          refine (ih.answers hpast).bind ?_
          rintro ⟨operand, behind⟩ hbehind
          exact hbehind
        · split
          · rename_i opened hopened
            refine ((hequation _).answers (reaches_eat? hopened)).bind ?_
            rintro ⟨inner, last⟩ hlast
            refine (hlast.answers_expect ")").bind fun closed hclosed => ?_
            exact hclosed
          · split
            · rename_i past hpast
              exact answers_readNamed hequation names (reaches_eat? hpast)
            · exact (Reaches.refl c).answers_refuse _

theorem leads_readEquation (names : Names) (stop : EndMark) : Leads (readEquation names stop) :=
  fun c => leads_readEquationWith (leads_readOperand names _) stop c

/-! ## Statements -/

theorem leads_readCondition (names : Names) (kind : BlockKind) :
    Leads (readCondition names kind) := by
  intro c
  have hskip := c.reaches_skipBlanks
  simp only [readCondition]
  split
  · exact hskip.answers_refuse _
  · rename_i opened hopened
    have hopened := hskip.trans (reaches_eat? hopened)
    refine ((leads_readEquation names _).answers hopened).bind ?_
    rintro ⟨condition, last⟩ hlast
    refine (hlast.answers_expect ")").bind fun closed hclosed => ?_
    refine ((hclosed.trans closed.reaches_skipBlanks).answers_expect ":").bind fun done hdone => ?_
    exact hdone

theorem leads_readJump (names : Names) : Leads (readJump names) := by
  intro c
  have hskip := c.reaches_skipBlanks
  simp only [readJump]
  split
  · exact hskip.answers_refuse _
  · rename_i named hnamed
    have hnamed := reaches_eat? hnamed
    split
    · exact hskip.trans hnamed
    · exact .of_reaches hskip hnamed.within_spanFrom

theorem answers_readTarget? (names : Names) (c : Cursor) :
    c.Answers (readTarget? names c) fun found? => ∀ found ∈ found?, c.Reaches found.2 := by
  unfold readTarget?
  split
  · exact fun _ hfound => nomatch hfound
  · rename_i named hnamed
    have hnamed := reaches_eat? hnamed
    dsimp only
    split
    · refine ((leads_readSlotRef (leads_readEquation names) _).answers hnamed).bind ?_
      rintro ⟨slot, behind⟩ hbehind found hfound
      dsimp only at hfound
      split at hfound
      · cases hfound
        exact hbehind.trans behind.reaches_skipBlanks
      · cases hfound
    · split
      · exact hnamed.within_spanFrom
      · exact fun _ hfound => nomatch hfound

theorem leads_readPlain (names : Names) : Leads (readPlain names) := by
  intro c
  refine (answers_readTarget? names c).bind fun found? hfound => ?_
  cases found? with
  | none =>
      refine (leads_readEquation names _ c).bind ?_
      rintro ⟨equation, last⟩ hlast
      exact hlast
  | some found =>
      refine ((hfound found rfl).answers_expect "=").bind fun assigned hassigned => ?_
      refine ((leads_readEquation names _).answers hassigned).bind ?_
      rintro ⟨value, last⟩ hlast
      exact hlast

theorem leads_readAction (names : Names) : Leads (readAction names) := by
  intro c
  unfold readAction
  split
  · rename_i past hpast
    refine ((leads_readCondition names _).answers (reaches_eat? hpast)).bind ?_
    rintro ⟨condition, last⟩ hlast
    exact hlast
  · split
    · rename_i past hpast
      refine ((leads_readCondition names _).answers (reaches_eat? hpast)).bind ?_
      rintro ⟨condition, last⟩ hlast
      exact hlast
    · split
      · rename_i past hpast
        have hpast := (reaches_eat? hpast).trans past.reaches_skipBlanks
        exact (hpast.answers_expect ":").bind fun done hdone => hdone
      · split
        · rename_i past hpast
          exact (leads_readJump names).answers (reaches_eat? hpast)
        · exact leads_readPlain names c

theorem answers_readStatement (names : Names) (c : Cursor) :
    c.Answers (readStatement names c) fun _ => True := by
  refine (leads_readAction names c).bind ?_
  rintro ⟨action, last⟩ hlast
  dsimp only
  split
  · trivial
  · exact (hlast.trans last.reaches_skipBlanks).answers_refuse _

theorem answers_readPlaced (names : Names) (placement : Placement) (c : Cursor) :
    c.Answers (readPlaced names placement c) fun _ => True := by
  unfold readPlaced
  split
  · exact (Reaches.refl c).answers_refuse _
  · exact (answers_readStatement names c).bind fun _ _ => trivial

theorem answers_readCodeLine (names : Names) (ind : Indentation) (number : Nat)
    (line : List Char) :
    (Cursor.start number line).Answers (readCodeLine names ind number line).1 fun _ => True := by
  have hskip := (Cursor.start number line).reaches_skipBlanks
  simp only [readCodeLine]
  split
  · exact hskip.within_spanFrom
  · exact .of_reaches hskip (answers_readPlaced names _ _)

/-! ## Lines of the text segment -/

/-- The finding is about one of the lines. -/
def Finding.StandsOn (finding : Finding) (lines : List SourceLine) : Prop :=
  ∃ line ∈ lines, finding.span.Within line.number line.text

theorem dropEndWhile_isPrefix (p : Char → Bool) (text : List Char) :
    dropEndWhile p text <+: text := by
  induction text with
  | nil => exact List.prefix_rfl
  | cons first text ih =>
      unfold dropEndWhile
      split
      · split
        · exact List.nil_prefix
        · exact (List.cons_prefix_cons).mpr ⟨rfl, List.nil_prefix⟩
      · exact (List.cons_prefix_cons).mpr ⟨rfl, ih⟩

theorem codePart_isPrefix (line : List Char) : codePart line <+: line :=
  List.takeWhile_prefix _

/-- What is wrong with the lines of a text segment stands on them. A block that is missing at their
    end is reported where it is due, which may be on an earlier line. -/
theorem standsOn_of_mem_readTextLines {names : Names} {ind : Indentation} {header? : Option Span}
    {lines all : List SourceLine} (hlines : ∀ line ∈ lines, line ∈ all)
    (hheader : ∀ span ∈ header?, ∃ line ∈ all, span.Within line.number line.text)
    {finding : Finding} (h : finding ∈ (readTextLines names ind header? lines).2) :
    finding.StandsOn all := by
  induction lines generalizing ind header? with
  | nil =>
      simp only [readTextLines, missingBlock?] at h
      split at h
      · obtain rfl := List.mem_singleton.mp h
        exact hheader _ rfl
      · cases h
  | cons line lines ih =>
      obtain ⟨hline, hrest⟩ := List.forall_mem_cons.mp hlines
      have hcode : trimEnd (codePart line.text) <+: line.text :=
        (dropEndWhile_isPrefix _ _).trans (codePart_isPrefix _)
      simp only [readTextLines] at h
      generalize trimEnd (codePart line.text) = code at h hcode
      split at h
      · exact ih hrest hheader h
      · have hmore : ∀ span ∈ (if (readCodeLine names ind line.number code).2.pending.isSome then
            some ⟨line.number, 1, byteLength code + 1⟩ else header?),
            ∃ line ∈ all, span.Within line.number line.text := by
          intro span hspan
          split at hspan
          · cases hspan
            have hwhole : Span.Within ⟨line.number, 1, byteLength code + 1⟩ line.number code :=
              ⟨rfl, Nat.le_refl 1, Nat.le_add_left 1 _, Nat.le_refl _⟩
            exact ⟨line, hline, hwhole.of_isPrefix hcode⟩
          · exact hheader span hspan
        split at h
        · exact ih hrest hmore h
        · rename_i found hfound
          rcases List.mem_cons.mp h with rfl | h
          · have hanswer := answers_readCodeLine names ind line.number code
            rw [hfound] at hanswer
            exact ⟨line, hline, Span.Within.of_isPrefix hanswer hcode⟩
          · exact ih hrest hmore h

/-! ## Labels -/

theorem within_of_labelOf? {line : SourceLine} {ident : Ident} (h : labelOf? line = some ident) :
    ident.span.Within line.number line.text := by
  have hskip := (Cursor.start line.number (codePart line.text)).reaches_skipBlanks
  obtain ⟨named, hnamed, h⟩ := Option.bind_eq_some_iff.mp h
  split at h
  · cases h
  · obtain ⟨colon, -, h⟩ := Option.bind_eq_some_iff.mp h
    split at h
    · cases h
      have hwithin := (reaches_eat? hnamed).within_spanFrom
      rw [hskip.lineNumber, hskip.line] at hwithin
      exact hwithin.of_isPrefix (codePart_isPrefix _)
    · cases h

namespace Declarations

variable {d d' d'' : Declarations} {lines : List SourceLine}

theorem span_of_checkName {ident : Ident} {finding : Finding}
    (h : d.checkName ident = .error finding) : finding.span = ident.span := by
  unfold checkName at h
  split at h
  · cases h
    rfl
  · split at h <;> cases h
    rfl

/-- Labels on the given lines were declared, which touches neither the tape nor the objects. -/
structure Labels (d d' : Declarations) (lines : List SourceLine) : Prop where
  tape : d'.tape = d.tape
  objects : d'.objects = d.objects
  findings : ∀ finding ∈ d'.findings, finding ∈ d.findings ∨ finding.StandsOn lines

theorem Labels.trans (h : d.Labels d' lines) (h' : d'.Labels d'' lines) : d.Labels d'' lines where
  tape := h'.tape.trans h.tape
  objects := h'.objects.trans h.objects
  findings finding hfinding :=
    (h'.findings finding hfinding).elim (h.findings finding) .inr

theorem labels_readLabel {line : SourceLine} (hline : line ∈ lines) (index : Nat) :
    d.Labels (d.readLabel line index) lines := by
  unfold readLabel
  split
  · exact ⟨rfl, rfl, fun _ => .inl⟩
  · rename_i ident hident
    cases hcheck : d.checkName ident with
    | ok _ => exact ⟨rfl, rfl, fun _ => .inl⟩
    | error found =>
        refine ⟨rfl, rfl, fun finding hfinding => ?_⟩
        rcases List.mem_append.mp hfinding with hfinding | hfinding
        · exact .inl hfinding
        · obtain rfl := List.mem_singleton.mp hfinding
          exact .inr ⟨line, hline, span_of_checkName hcheck ▸ within_of_labelOf? hident⟩

theorem labels_readLabels (d : Declarations) (lines : List SourceLine) :
    d.Labels (d.readLabels lines) lines := by
  have hmem : ∀ entry ∈ lines.zipIdx, entry.1 ∈ lines :=
    fun _ hentry => List.fst_mem_of_mem_zipIdx hentry
  unfold readLabels
  generalize lines.zipIdx = numbered at hmem ⊢
  induction numbered generalizing d with
  | nil => exact ⟨rfl, rfl, fun _ => .inl⟩
  | cons entry numbered ih =>
      obtain ⟨hentry, hnumbered⟩ := List.forall_mem_cons.mp hmem
      exact (labels_readLabel hentry entry.2).trans (ih _ hnumbered)

end Declarations

end TapePuzzle
