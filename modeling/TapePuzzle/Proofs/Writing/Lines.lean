import TapePuzzle.Proofs.Reading.Layouts
import TapePuzzle.Proofs.Writing.Statements

/-!
# Written lines

A written line has its code between the blanks that indent it and a margin, which may hold a
comment. Labels and quiet lines may be indented by any blanks. Main statements: the margin is cut
off, and a written line is a label exactly if it was written as one.
-/

namespace TapePuzzle

/-! ## Texts of code -/

/-- Visible characters and spaces, but for the number sign, which starts a comment. -/
def isCodeChar (c : Char) : Bool := decide (32 ≤ c.toNat ∧ c.toNat ≤ 126) && c != '#'

theorem ne_of_isCodeChar {c d : Char} (h : isCodeChar c = true) (hd : isCodeChar d = false) :
    c ≠ d := by
  rintro rfl
  rw [h] at hd
  cases hd

theorem isCodeChar_of_isWordChar {c : Char} (h : isWordChar c = true) : isCodeChar c = true := by
  have hnumber := toNat_of_isWordChar h
  have hcomment : c ≠ '#' := ne_of_isWordChar h (by decide)
  simp only [isCodeChar, Bool.and_eq_true, decide_eq_true_eq, bne_iff_ne]
  exact ⟨by omega, hcomment⟩

/-- A text without comments and control characters that nothing can be trimmed off at the end. -/
structure IsCodeText (text : List Char) : Prop where
  chars : ∀ c ∈ text, isCodeChar c = true
  last : ∃ front last, text = front ++ [last] ∧ isWhiteSpace last = false

theorem IsWord.isCodeText {word : List Char} (h : IsWord word) : IsCodeText word where
  chars c hc := isCodeChar_of_isWordChar (h.chars c hc)
  last := ⟨word.dropLast, word.getLast h.ne_nil, (List.dropLast_concat_getLast h.ne_nil).symm,
    isWhiteSpace_of_isWordChar (h.chars _ (List.getLast_mem h.ne_nil))⟩

namespace IsCodeText

variable {front text : List Char}

theorem append (h : IsCodeText text) (hfront : ∀ c ∈ front, isCodeChar c = true) :
    IsCodeText (front ++ text) := by
  obtain ⟨hchars, before, last, rfl, hlast⟩ := h
  refine ⟨fun c hc => ?_, front ++ before, last, (List.append_assoc ..).symm, hlast⟩
  exact (List.mem_append.mp hc).elim (hfront c) (hchars c)

theorem cons (h : IsCodeText text) {c : Char} (hc : isCodeChar c = true) :
    IsCodeText (c :: text) := by
  have hfront : ∀ letter ∈ [c], isCodeChar letter = true := by simpa using hc
  exact h.append hfront

theorem singleton {c : Char} (hc : isCodeChar c = true) (hvisible : isWhiteSpace c = false) :
    IsCodeText [c] :=
  ⟨by simpa using hc, [], c, rfl, hvisible⟩

theorem not_mem (h : IsCodeText text) {c : Char} (hc : isCodeChar c = false) : c ∉ text :=
  fun hmem => ne_of_isCodeChar (h.chars c hmem) hc rfl

end IsCodeText

theorem isCodeText_closeParen : IsCodeText [')'] := .singleton (by decide) (by decide)

theorem isCodeText_closeBracket : IsCodeText [']'] := .singleton (by decide) (by decide)

theorem isCodeText_colon : IsCodeText [':'] := .singleton (by decide) (by decide)

theorem isCodeText_of_isIdentifier {name : String} (h : isIdentifier name = true) :
    IsCodeText name.toList :=
  (isWord_of_isIdentifier h).isCodeText

theorem BinaryOp.isCodeChar_symbol (op : BinaryOp) :
    ∀ c ∈ op.symbol.toList, isCodeChar c = true := by
  have hall : op.symbol.toList.all isCodeChar = true := by cases op <;> decide
  exact List.all_eq_true.mp hall

theorem UnaryOp.isCodeChar_symbol (op : UnaryOp) :
    ∀ c ∈ op.symbol.toList, isCodeChar c = true := by
  have hall : op.symbol.toList.all isCodeChar = true := by cases op <;> decide
  exact List.all_eq_true.mp hall

namespace Expr

variable {names : Names} {e : Expr}

theorem isCodeText_operandText (h : IsCodeText e.render) : IsCodeText e.operandText := by
  cases hcompound : e.isCompound with
  | false => rwa [operandText_of_atomic hcompound]
  | true =>
      rw [operandText_of_compound hcompound]
      exact (isCodeText_closeParen.append h.chars).cons (by decide)

theorem isCodeText_render (hnames : names.Legible) (h : e.WellFormed names) :
    IsCodeText e.render := by
  induction e with
  | number value s => exact (isWord_writeInteger value).isCodeText
  | slot name reference s => exact isCodeText_of_isIdentifier (hnames _ h.mem_all)
  | slotAt name offset reference s ih =>
      have hname := isCodeText_of_isIdentifier (hnames _ h.1.mem_all)
      exact ((isCodeText_closeBracket.append (ih h.2).chars).cons (by decide)).append hname.chars
  | call function s =>
      have hname := isCodeText_of_isIdentifier function.isIdentifier_name
      exact (isCodeText_closeParen.cons (by decide)).append hname.chars
  | callWith function argument s ih =>
      have hname := isCodeText_of_isIdentifier function.isIdentifier_name
      exact ((isCodeText_closeParen.append (ih h.2).chars).cons (by decide)).append hname.chars
  | method object verb s =>
      have hname := isCodeText_of_isIdentifier (hnames _ h.1.mem_all)
      have hverb := isCodeText_of_isIdentifier verb.isIdentifier_name
      have hcall := (isCodeText_closeParen.cons (c := '(') (by decide)).append hverb.chars
      exact (hcall.cons (by decide)).append hname.chars
  | methodWith object verb argument s ih =>
      have hname := isCodeText_of_isIdentifier (hnames _ h.1.mem_all)
      have hverb := isCodeText_of_isIdentifier verb.isIdentifier_name
      have hargument := isCodeText_closeParen.append (ih h.2.2).chars
      have hcall := (hargument.cons (c := '(') (by decide)).append hverb.chars
      exact (hcall.cons (by decide)).append hname.chars
  | binary left op right s ihLeft ihRight =>
      have hleft := isCodeText_operandText (ihLeft h.1)
      have hright := isCodeText_operandText (ihRight h.2)
      have htail := (hright.cons (c := ' ') (by decide)).append op.isCodeChar_symbol
      exact (htail.cons (by decide)).append hleft.chars
  | unary op operand s ih =>
      have hoperand := isCodeText_operandText (ih h)
      exact (hoperand.cons (by decide)).append op.isCodeChar_symbol

end Expr

theorem BlockKind.isIdentifier_keyword (kind : BlockKind) : isIdentifier kind.keyword = true := by
  cases kind <;> decide

theorem isCodeText_headerText {names : Names} (hnames : names.Legible) {condition : Expr}
    (h : condition.WellFormed names) (kind : BlockKind) :
    IsCodeText (headerText kind condition) := by
  have hkeyword := isCodeText_of_isIdentifier kind.isIdentifier_keyword
  have hclosing := (isCodeText_colon.cons (c := ')') (by decide)).append
    (Expr.isCodeText_render hnames h).chars
  exact ((hclosing.cons (c := '(') (by decide)).cons (by decide)).append hkeyword.chars

namespace Action

variable {names : Names} {action : Action}

theorem isCodeText_render (hnames : names.Legible) (h : action.WellFormed names) :
    IsCodeText action.render := by
  cases action with
  | assign target value =>
      obtain ⟨⟨hslot, hoffset⟩, hvalue⟩ := h
      have hname := isCodeText_of_isIdentifier (hnames _ hslot.mem_all)
      have htarget : IsCodeText target.render := by
        obtain ⟨name, offset?, span⟩ := target
        cases offset? with
        | none => simpa [SlotRef.render, offsetText] using hname
        | some offset =>
            have hinner := Expr.isCodeText_render hnames (hoffset offset rfl)
            have hoffset := isCodeText_closeBracket.append hinner.chars
            exact (hoffset.cons (by decide)).append hname.chars
      have htail := ((Expr.isCodeText_render hnames hvalue).cons (c := ' ') (by decide)).cons
        (c := '=') (by decide)
      exact (htail.cons (by decide)).append htarget.chars
  | evaluate equation => exact Expr.isCodeText_render hnames h
  | ifTrue condition => exact isCodeText_headerText hnames h .ifBlock
  | otherwise =>
      have hkeyword := isCodeText_of_isIdentifier (BlockKind.isIdentifier_keyword .elseBlock)
      exact isCodeText_colon.append hkeyword.chars
  | whileTrue condition => exact isCodeText_headerText hnames h .whileBlock
  | jump label =>
      have hname := isCodeText_of_isIdentifier (hnames _ h.mem_all)
      have hword : isIdentifier "jump" = true := by decide
      exact (hname.cons (by decide)).append (isCodeText_of_isIdentifier hword).chars

end Action

/-! ## Blanks and margins -/

theorem IsWhole.append {front back : List Char} (hfront : IsWhole front) (hback : IsWhole back) :
    IsWhole (front ++ back) where
  newline := by
    simpa using ⟨hfront.newline, hback.newline⟩
  carriageReturn := by
    cases hcase : back with
    | nil => simpa using hfront.carriageReturn
    | cons c more => exact hcase ▸ dropEndWhile_append (by simp [hcase]) hback.carriageReturn front

theorem isWhole_of_not_mem {text : List Char} (hnewline : '\n' ∉ text) (hreturn : '\r' ∉ text) :
    IsWhole text := by
  refine ⟨hnewline, dropEndWhile_eq_self fun c hc => beq_eq_false_iff_ne.mpr ?_⟩
  rintro rfl
  exact hreturn hc

/-- Spaces and tabs. -/
structure Blanks where
  text : List Char
  blank : text.all isBlank = true

namespace Blanks

def none : Blanks := ⟨[], rfl⟩

def append (outer inner : Blanks) : Blanks where
  text := outer.text ++ inner.text
  blank := by rw [List.all_append, outer.blank, inner.blank]; rfl

theorem not_mem (blanks : Blanks) {c : Char} (hc : isBlank c = false) : c ∉ blanks.text := by
  intro hmem
  have hblank := List.all_eq_true.mp blanks.blank c hmem
  rw [hc] at hblank
  cases hblank

theorem isWhole (blanks : Blanks) : IsWhole blanks.text :=
  isWhole_of_not_mem (blanks.not_mem (by decide)) (blanks.not_mem (by decide))

end Blanks

/-- The part of a line behind its code: blanks, and perhaps a comment. -/
structure Margin where
  text : List Char
  whole : IsWhole text
  blank : (codePart text).all isBlank = true

/-- A line that has nothing but white space in front of its comment. -/
structure QuietLine where
  text : List Char
  whole : IsWhole text
  quiet : saysNothing text = true

/-! ## Lines with code -/

theorem isWhiteSpace_of_isOperandStart {c : Char} (h : isOperandStart c = true) :
    isWhiteSpace c = false := by
  simp only [isOperandStart, Bool.or_eq_true, beq_iff_eq] at h
  rcases h with (hword | rfl) | rfl
  · exact isWhiteSpace_of_isWordChar hword
  · decide
  · decide

/-- The line of some code, indented and with a margin. -/
def lineText (indent : Blanks) (code : List Char) (margin : Margin) : List Char :=
  indent.text ++ (code ++ margin.text)

section LineText

variable {indent : Blanks} {code : List Char} {margin : Margin}

theorem isWhole_lineText (h : IsCodeText code) : IsWhole (lineText indent code margin) :=
  indent.isWhole.append <|
    (isWhole_of_not_mem (h.not_mem (by decide)) (h.not_mem (by decide))).append margin.whole

theorem codePart_append {front : List Char} (h : '#' ∉ front) (back : List Char) :
    codePart (front ++ back) = front ++ codePart back := by
  refine List.takeWhile_append_of_pos fun c hc => bne_iff_ne.mpr ?_
  rintro rfl
  exact h hc

theorem codePart_lineText (h : IsCodeText code) :
    codePart (lineText indent code margin) = indent.text ++ (code ++ codePart margin.text) := by
  rw [lineText, codePart_append (indent.not_mem (by decide)),
    codePart_append (h.not_mem (by decide))]

theorem dropEndWhile_append_of_all {p : Char → Bool} {back : List Char}
    (h : ∀ c ∈ back, p c = true) (front : List Char) :
    dropEndWhile p (front ++ back) = dropEndWhile p front := by
  have hback : dropEndWhile p back = [] := by
    induction back with
    | nil => rfl
    | cons c back ih =>
        obtain ⟨hc, hrest⟩ := List.forall_mem_cons.mp h
        rw [dropEndWhile, ih hrest]
        exact if_pos hc
  induction front with
  | nil => exact hback
  | cons c front ih => rw [List.cons_append, dropEndWhile, ih, dropEndWhile]

/-- The margin is cut off, and nothing else. -/
theorem trimEnd_codePart_lineText (h : IsCodeText code) :
    trimEnd (codePart (lineText indent code margin)) = indent.text ++ code := by
  have hmargin : ∀ c ∈ codePart margin.text, isWhiteSpace c = true :=
    fun c hc => isWhiteSpace_of_isBlank (List.all_eq_true.mp margin.blank c hc)
  obtain ⟨front, last, hsplit, hlast⟩ := h.last
  rw [codePart_lineText h, ← List.append_assoc, trimEnd, dropEndWhile_append_of_all hmargin, hsplit,
    ← List.append_assoc]
  exact dropEndWhile_append (by simp) (dropEndWhile_eq_self (by simpa using hlast)) _

theorem leadingBlanks_append (h : StartsOperand code) :
    leadingBlanks (indent.text ++ code) = indent.text :=
  (takeWhile_append_of_stops (List.all_eq_true.mp indent.blank) h.stops_isBlank).1

theorem afterBlanks_indent_append (h : StartsOperand code) :
    afterBlanks (indent.text ++ code) = code :=
  afterBlanks_append (List.all_eq_true.mp indent.blank) h.stops_isBlank

theorem afterBlanks_codePart_lineText (h : IsCodeText code) (hstart : StartsOperand code) :
    afterBlanks (codePart (lineText indent code margin)) = code ++ codePart margin.text := by
  rw [codePart_lineText h, afterBlanks_indent_append (hstart.append _)]

theorem saysNothing_lineText (h : IsCodeText code) (hstart : StartsOperand code) :
    saysNothing (lineText indent code margin) = false := by
  obtain ⟨first, more, rfl, hfirst⟩ := hstart
  rw [saysNothing, codePart_lineText h]
  simp [isWhiteSpace_of_isOperandStart hfirst]

theorem isTextMarker_lineText (h : IsCodeText code) (hstart : StartsOperand code) (number : Nat) :
    isTextMarker ⟨number, lineText indent code margin⟩ = false := by
  obtain ⟨first, more, rfl, hfirst⟩ := hstart
  have hindent : ∀ c ∈ indent.text, isWhiteSpace c = true :=
    fun c hc => isWhiteSpace_of_isBlank (List.all_eq_true.mp indent.blank c hc)
  have hstops : Stops isWhiteSpace (first :: more) := isWhiteSpace_of_isOperandStart hfirst
  refine decide_eq_false fun heq => ?_
  rw [trim, trimEnd_codePart_lineText h, (takeWhile_append_of_stops hindent hstops).2] at heq
  have hdot : first = '.' := (List.cons.inj heq).1
  rw [hdot] at hfirst
  exact absurd hfirst (by decide)

end LineText

/-! ## Labels -/

/-- A line is no label if a colon does not follow its first name. -/
theorem labelOf?_eq_none {line : SourceLine} {code : List Char}
    (hcode : afterBlanks (codePart line.text) = code)
    (h : Stops isNameStart code ∨ ∃ name rest, LeadingName code name rest) :
    labelOf? line = none := by
  have hrest : (Cursor.start line.number (codePart line.text)).skipBlanks.rest = code := hcode
  rcases h with hstops | ⟨name, rest, hlead⟩
  · rw [labelOf?, Cursor.eat?_identifier_of_stops (hrest ▸ hstops)]
    rfl
  · obtain ⟨named, hnamed, hnamedRest, hword⟩ :=
      Cursor.eat?_identifier hlead.identifier (hrest.trans hlead.text_eq) hlead.stops
    have hcolon : named.skipBlanks.eat? (.literal ":") = none := by
      refine Cursor.eat?_literal_of_ne rfl ?_
      rw [Cursor.rest_skipBlanks, hnamedRest]
      exact hlead.colon
    simp [labelOf?, hnamed, hcolon]

namespace Action

variable {names : Names} {action : Action}

theorem startsOperand_render (hnames : names.Legible) (h : action.WellFormed names) :
    StartsOperand action.render := by
  cases action with
  | assign target value =>
      have hname := (isWord_of_isIdentifier (hnames _ h.1.1.mem_all)).startsOperand
      exact (hname.append _).append _
  | evaluate equation => exact (Expr.readsBack hnames h).starts
  | ifTrue condition => exact ⟨'i', _, rfl, by decide⟩
  | otherwise => exact ⟨'e', _, rfl, by decide⟩
  | whileTrue condition => exact ⟨'w', _, rfl, by decide⟩
  | jump label => exact ⟨'j', _, rfl, by decide⟩

/-- A statement other than `else` has no name in front that a colon follows. -/
theorem leadingName_render (hnames : names.Legible) (h : action.WellFormed names)
    (helse : action ≠ .otherwise) {blanks : List Char} (hblanks : blanks.all isBlank = true) :
    Stops isNameStart (action.render ++ blanks) ∨
      ∃ name rest, LeadingName (action.render ++ blanks) name rest := by
  cases action with
  | assign target value =>
      have hlead : LeadingName
          (target.render ++ ' ' :: '=' :: ' ' :: (value.render ++ blanks)) _ _ :=
        leadingName_slot (hnames _ h.1.1.mem_all) rfl rfl
      have htext : (Action.assign target value).render ++ blanks =
          target.render ++ ' ' :: '=' :: ' ' :: (value.render ++ blanks) := by simp [render]
      exact .inr ⟨_, _, htext ▸ hlead⟩
  | evaluate equation =>
      refine ((Expr.lead_render hnames h hblanks).exists_name hnames).imp_right ?_
      rintro ⟨name, rest, hlead, -⟩
      exact ⟨name, rest, hlead⟩
  | ifTrue condition | whileTrue condition =>
      exact .inr ⟨_, _, List.append_assoc .., BlockKind.isIdentifier_keyword _, rfl, rfl⟩
  | otherwise => exact absurd rfl helse
  | jump label =>
      have hword := isWord_of_isIdentifier (hnames _ h.mem_all)
      refine .inr ⟨"jump", ' ' :: (label.name.toList ++ blanks), rfl, by decide, rfl, ?_⟩
      rw [afterBlanks_space, hword.afterBlanks_append]
      obtain ⟨first, more, heq, hfirst⟩ := hword.exists_cons
      rw [heq]
      exact beq_eq_false_iff_ne.mpr (ne_of_isWordChar hfirst (by decide))

end Action

/-- What a line is written for. -/
structure WrittenLine where
  text : List Char
  /-- What it comes to, but for places. -/
  line : Line
  label? : Option String

namespace WrittenLine

/-- A quiet line. -/
def quiet (line : QuietLine) : WrittenLine := ⟨line.text, .silent, none⟩

/-- The line of a label. -/
def label (blanks : Blanks) (name : String) (margin : Margin) : WrittenLine :=
  ⟨lineText blanks (name.toList ++ [':']) margin, .silent, some name⟩

/-- The line of a statement that stands `depth` blocks deep. -/
def code (indent : Blanks) (depth : Nat) (action : Action) (margin : Margin) : WrittenLine :=
  ⟨lineText indent action.render margin, .code depth ⟨action.unplaced, .nowhere⟩, none⟩

/-- The line is cut out of a text as it was written, and is a label if it was written as one. -/
structure Legible (written : WrittenLine) : Prop where
  whole : IsWhole written.text
  marker : ∀ number, isTextMarker ⟨number, written.text⟩ = false
  label : ∀ number, (labelOf? ⟨number, written.text⟩).map Ident.name = written.label?

theorem legible_quiet (line : QuietLine) : (quiet line).Legible := by
  have hall := List.all_eq_true.mp line.quiet
  refine ⟨line.whole, fun number => ?_, fun number => ?_⟩
  · have htrim : trim (codePart line.text) = [] := by
      rw [trim, trimEnd, ← List.nil_append (codePart line.text), dropEndWhile_append_of_all hall]
      rfl
    refine decide_eq_false fun heq => ?_
    rw [quiet, htrim] at heq
    exact absurd heq (by decide)
  · have hstops : Stops isNameStart (afterBlanks (codePart line.text)) := by
      cases hrest : afterBlanks (codePart line.text) with
      | nil => rfl
      | cons c rest =>
          have hmem : c ∈ codePart line.text :=
            (List.dropWhile_sublist _).subset (hrest ▸ List.mem_cons_self)
          cases hname : isNameStart c with
          | false => exact hname
          | true =>
              have hword : isWordChar c = true := by
                simp [isWordChar, isNameChar_of_isNameStart hname]
              have hvisible := isWhiteSpace_of_isWordChar hword
              rw [hall c hmem] at hvisible
              cases hvisible
    have hnone : labelOf? ⟨number, line.text⟩ = none := labelOf?_eq_none rfl (.inl hstops)
    exact congrArg (Option.map Ident.name) hnone

theorem legible_label (blanks : Blanks) {name : String} (hname : isIdentifier name = true)
    (hreserved : isReserved name = false) (margin : Margin) :
    (label blanks name margin).Legible := by
  have hword := isWord_of_isIdentifier hname
  have hcode : IsCodeText (name.toList ++ [':']) := isCodeText_colon.append hword.isCodeText.chars
  have hstart : StartsOperand (name.toList ++ [':']) := hword.startsOperand.append _
  refine ⟨isWhole_lineText hcode, isTextMarker_lineText hcode hstart, fun number => ?_⟩
  have hrest : (Cursor.start number (codePart (lineText blanks (name.toList ++ [':'])
      margin))).skipBlanks.rest = name.toList ++ ':' :: codePart margin.text := by
    rw [Cursor.rest_skipBlanks, Cursor.start, afterBlanks_codePart_lineText hcode hstart,
      List.append_assoc]
    rfl
  obtain ⟨named, hnamed, hnamedRest, hnamedWord⟩ := Cursor.eat?_identifier hname hrest rfl
  have hcolon : named.skipBlanks.rest = ":".toList ++ codePart margin.text := by
    rw [Cursor.rest_skipBlanks, hnamedRest]
    rfl
  obtain ⟨past, hpast, hpastRest⟩ := Cursor.eat?_literal hcolon
  have hend : past.sees .endOfLine = true := by
    rw [Cursor.sees_endOfLine, hpastRest, margin.blank]
  have helse : name ≠ "else" := by
    rintro rfl
    exact absurd hreserved (by decide)
  simp [label, labelOf?, hnamed, hnamedWord, helse, hpast, hend]

theorem legible_code {names : Names} (hnames : names.Legible) {action : Action}
    (h : action.WellFormed names) (indent : Blanks) (depth : Nat) (margin : Margin) :
    (code indent depth action margin).Legible := by
  have hcode := Action.isCodeText_render hnames h
  have hstart := Action.startsOperand_render hnames h
  refine ⟨isWhole_lineText hcode, isTextMarker_lineText hcode hstart, fun number => ?_⟩
  have hnone : labelOf? ⟨number, lineText indent action.render margin⟩ = none := by
    by_cases helse : action = .otherwise
    · subst helse
      have hrest : (Cursor.start number (codePart (lineText indent Action.otherwise.render
          margin))).skipBlanks.rest = "else".toList ++ ':' :: codePart margin.text :=
        afterBlanks_codePart_lineText hcode hstart
      obtain ⟨named, hnamed, -, hword⟩ := Cursor.eat?_identifier (by decide) hrest rfl
      simp [labelOf?, hnamed, hword]
    · exact labelOf?_eq_none (afterBlanks_codePart_lineText hcode hstart)
        (Action.leadingName_render hnames h helse margin.blank)
  exact congrArg (Option.map Ident.name) hnone

end WrittenLine

end TapePuzzle
