import TapePuzzle.Proofs.Reading.Words

/-!
# Symbols and words of a written line

Operators, brackets and words are told apart by what a text goes on with. The cursor finds the
symbol that was written where an operand ends, and no other one.
-/

namespace TapePuzzle

/-! ## Where operands start and end -/

/-- Characters that an operand can start with. -/
def isOperandStart (c : Char) : Bool := isWordChar c || c == '(' || c == '!'

theorem isBlank_of_isOperandStart {c : Char} (h : isOperandStart c = true) : isBlank c = false := by
  simp only [isOperandStart, Bool.or_eq_true, beq_iff_eq] at h
  rcases h with (hword | rfl) | rfl
  · exact isBlank_of_isWordChar hword
  · decide
  · decide

/-- The text starts like an operand. -/
def StartsOperand (text : List Char) : Prop :=
  ∃ first more, text = first :: more ∧ isOperandStart first = true

theorem StartsOperand.append {text : List Char} (h : StartsOperand text) (rest : List Char) :
    StartsOperand (text ++ rest) := by
  obtain ⟨first, more, rfl, hfirst⟩ := h
  exact ⟨first, more ++ rest, rfl, hfirst⟩

theorem StartsOperand.afterBlanks_eq {text : List Char} (h : StartsOperand text) :
    afterBlanks text = text := by
  obtain ⟨first, more, rfl, hfirst⟩ := h
  simp [afterBlanks, isBlank_of_isOperandStart hfirst]

theorem StartsOperand.stops_isBlank {text : List Char} (h : StartsOperand text) :
    Stops isBlank text := by
  obtain ⟨first, more, rfl, hfirst⟩ := h
  exact isBlank_of_isOperandStart hfirst

theorem StartsOperand.stops_char {text : List Char} (h : StartsOperand text) {letter : Char}
    (hletter : isOperandStart letter = false) : Stops (· == letter) text := by
  obtain ⟨first, more, rfl, hfirst⟩ := h
  refine beq_eq_false_iff_ne.mpr ?_
  rintro rfl
  rw [hfirst] at hletter
  cases hletter

theorem IsWord.startsOperand {word : List Char} (h : IsWord word) : StartsOperand word := by
  obtain ⟨first, more, rfl, hfirst⟩ := h.exists_cons
  exact ⟨first, more, rfl, by simp [isOperandStart, hfirst]⟩

/-- Where a written operand ends: the line ends, or a blank or a closing bracket follows. -/
def OperandEnd (rest : List Char) : Prop :=
  Stops (fun c => !(isBlank c || c == ')' || c == ']')) rest

theorem OperandEnd.stops {rest : List Char} (h : OperandEnd rest) {p : Char → Bool}
    (hspace : p ' ' = false) (htab : p '\t' = false) (hparen : p ')' = false)
    (hbracket : p ']' = false) : Stops p rest := by
  cases rest with
  | nil => rfl
  | cons c rest =>
      simp only [OperandEnd, Stops, List.head?_cons, Option.any_some, Bool.not_eq_false', isBlank,
        Bool.or_eq_true, beq_iff_eq] at h
      rcases h with ((rfl | rfl) | rfl) | rfl
      · exact hspace
      · exact htab
      · exact hparen
      · exact hbracket

/-- The character that marks the end of an equation, if it is not the end of the line. -/
def EndMark.character? : EndMark → Option Char
  | endOfLine => none
  | closeParen => some ')'
  | closeBracket => some ']'

/-- The text starts with the end mark. At the end of a line, there is nothing left. -/
def EndMark.At (stop : EndMark) (rest : List Char) : Prop := rest.head? = stop.character?

/-! ## The cursor at literals -/

namespace Cursor

variable {c : Cursor} {rest : List Char}

theorem eat?_literal {text : String} (h : c.rest = text.toList ++ rest) :
    ∃ past, c.eat? (.literal text) = some past ∧ past.rest = rest := by
  have hsplit : (Pattern.literal text).split? c.rest = some (text.toList, rest) := by
    rw [h, Pattern.split?, after?_eq_some_iff.mpr rfl]
    rfl
  obtain ⟨past, hpast, hrest, -⟩ := eat?_of_split? hsplit
  exact ⟨past, hpast, hrest⟩

theorem eat?_literal_of_ne {text : String} {letter : Char} (htext : text.toList.head? = some letter)
    (h : Stops (· == letter) c.rest) : c.eat? (.literal text) = none := by
  have hafter : after? text.toList c.rest = none := by
    refine Option.eq_none_iff_forall_ne_some.mpr fun more hmore => ?_
    have hhead : c.rest.head? = some letter := by
      rw [after?_eq_some_iff.mp hmore, List.head?_append, htext]
      rfl
    simp [Stops, hhead] at h
  rw [eat?, Pattern.split?, hafter]
  rfl

theorem expect_literal {text : String} (h : c.rest = text.toList ++ rest) :
    ∃ past, c.expect text = .ok past ∧ past.rest = rest := by
  obtain ⟨past, hpast, hrest⟩ := eat?_literal h
  exact ⟨past, by rw [expect, hpast], hrest⟩

theorem sees_eq_isSome_eat? (c : Cursor) (p : Pattern) : c.sees p = (c.eat? p).isSome := by
  simp [sees, eat?]

theorem sees_endMark {stop : EndMark} (h : stop.At c.rest) : c.sees stop.pattern = true := by
  cases stop with
  | endOfLine =>
      rw [EndMark.pattern, sees_endOfLine, List.head?_eq_none_iff.mp h]
      rfl
  | closeParen =>
      obtain ⟨more, hrest⟩ := List.head?_eq_some_iff.mp h
      have hliteral : c.rest = ")".toList ++ more := hrest
      obtain ⟨past, hpast, -⟩ := eat?_literal hliteral
      rw [EndMark.pattern, sees_eq_isSome_eat?, hpast]
      rfl
  | closeBracket =>
      obtain ⟨more, hrest⟩ := List.head?_eq_some_iff.mp h
      have hliteral : c.rest = "]".toList ++ more := hrest
      obtain ⟨past, hpast, -⟩ := eat?_literal hliteral
      rw [EndMark.pattern, sees_eq_isSome_eat?, hpast]
      rfl

/-- Where an operator stands, no end mark does. -/
theorem sees_endMark_of_operator {op : BinaryOp} (h : c.rest = op.symbol.toList ++ rest)
    (stop : EndMark) : c.sees stop.pattern = false := by
  cases stop with
  | endOfLine =>
      rw [EndMark.pattern, sees_endOfLine, h]
      cases op <;> rfl
  | closeParen | closeBracket =>
      rw [EndMark.pattern, sees_eq_isSome_eat?, eat?_literal_of_ne rfl]
      · rfl
      · rw [h]
        cases op <;> rfl

theorem eatFirst?_of_append {α : Type} {pattern : α → Pattern} {before behind : List α} {choice : α}
    {past : Cursor} (hbefore : ∀ other ∈ before, c.eat? (pattern other) = none)
    (h : c.eat? (pattern choice) = some past) :
    c.eatFirst? pattern (before ++ choice :: behind) = some (choice, past) := by
  induction before with
  | nil => simp [eatFirst?, h]
  | cons other before ih =>
      obtain ⟨hother, hbefore⟩ := List.forall_mem_cons.mp hbefore
      rw [List.cons_append, eatFirst?, hother]
      exact ih hbefore

theorem eatFirst?_eq_none {α : Type} {pattern : α → Pattern} {choices : List α}
    (h : ∀ choice ∈ choices, c.eat? (pattern choice) = none) :
    c.eatFirst? pattern choices = none := by
  induction choices with
  | nil => rfl
  | cons choice choices ih =>
      obtain ⟨hchoice, hchoices⟩ := List.forall_mem_cons.mp h
      rw [eatFirst?, hchoice]
      exact ih hchoices

end Cursor

/-- No operator that is tried before `op` has a symbol that `op` begins with. -/
theorem BinaryOp.all_eq_append (op : BinaryOp) :
    ∃ before behind, BinaryOp.all = before ++ op :: behind ∧
      ∀ other ∈ before, ¬other.symbol.toList <+: op.symbol.toList := by
  refine ⟨BinaryOp.all.takeWhile (· != op), (BinaryOp.all.dropWhile (· != op)).tail, ?_⟩
  cases op <;> decide

/-- Where a symbol goes on from that of another operator, it goes on with an equals sign. -/
theorem BinaryOp.head?_drop_symbol (op other : BinaryOp) :
    (other.symbol.toList.drop op.symbol.toList.length).head?.all (· == '=') = true ∨
      ¬op.symbol.toList <+: other.symbol.toList := by
  cases op <;> cases other <;> decide

namespace Cursor

variable {c : Cursor} {rest : List Char}

/-- The longest operator is found: what follows it does not make it longer. -/
theorem eatFirst?_binary {op : BinaryOp} (h : c.rest = op.symbol.toList ++ rest)
    (hrest : Stops (· == '=') rest) :
    ∃ past, c.eatFirst? (fun op : BinaryOp => .literal op.symbol) BinaryOp.all = some (op, past) ∧
      past.rest = rest := by
  obtain ⟨past, hpast, hpastRest⟩ := eat?_literal h
  obtain ⟨before, behind, hall, hbefore⟩ := op.all_eq_append
  refine ⟨past, ?_, hpastRest⟩
  rw [hall]
  refine eatFirst?_of_append (fun other hother => ?_) hpast
  have hafter : after? other.symbol.toList c.rest = none := by
    refine Option.eq_none_iff_forall_ne_some.mpr fun tail htail => hbefore other hother ?_
    have heq : op.symbol.toList ++ rest = other.symbol.toList ++ tail :=
      h.symm.trans (after?_eq_some_iff.mp htail)
    rcases List.append_eq_append_iff.mp heq with ⟨more, hother, hmore⟩ | ⟨more, hop, -⟩
    · cases more with
      | nil => simp [hother]
      | cons letter more =>
          have hletter := op.head?_drop_symbol other
          simp [hother] at hletter
          simp [hmore, Stops, hletter] at hrest
    · exact ⟨more, hop.symm⟩
  rw [eat?, Pattern.split?, hafter]
  rfl

theorem eatFirst?_unary {op : UnaryOp} (h : c.rest = op.symbol.toList ++ rest) :
    ∃ past, c.eatFirst? (fun op : UnaryOp => .literal op.symbol) UnaryOp.all = some (op, past) ∧
      past.rest = rest := by
  obtain ⟨past, hpast, hrest⟩ := eat?_literal h
  refine ⟨past, ?_, hrest⟩
  cases op with
  | negate => simp [eatFirst?, UnaryOp.all, hpast]
  | not =>
      have hminus : c.eat? (.literal UnaryOp.negate.symbol) = none :=
        eat?_literal_of_ne rfl (by rw [h]; rfl)
      simp [eatFirst?, UnaryOp.all, hminus, hpast]

theorem eat?_integer_of_stops (h : Stops isWordChar c.rest) : c.eat? .integer = none := by
  have hnone : splitInteger? c.rest = none := by
    cases hrest : c.rest with
    | nil => rfl
    | cons first more =>
        have hfirst : isWordChar first = false := by simpa [Stops, hrest] using h
        have hdigit : first.isDigit = false := by
          cases hdigit : first.isDigit with
          | false => rfl
          | true =>
              rw [isWordChar_of_isDigit hdigit] at hfirst
              cases hfirst
        rw [splitInteger?]
        · simp [splitDigits?, hdigit]
        · rintro text ⟨⟩
          cases hfirst
  rw [eat?, Pattern.split?, hnone]
  rfl

theorem eat?_integer_of_identifier {name : String} (hname : isIdentifier name = true)
    (h : c.rest = name.toList ++ rest) : c.eat? .integer = none := by
  obtain ⟨first, more, heq, hfirst, -⟩ := isIdentifier_iff.mp hname
  have hnone : c.sees .integer = false := by
    refine sees_integer_of_not_digit (by rw [h, heq]; rfl) ?_ ?_
    · cases hdigit : first.isDigit with
      | false => rfl
      | true =>
          rw [isNameStart_of_isDigit hdigit] at hfirst
          cases hfirst
    · rintro rfl
      cases hfirst
  rw [sees_eq_isSome_eat?] at hnone
  simpa using hnone

/-- A minus sign belongs to a number only if a digit follows it. -/
theorem eat?_integer_of_unary {op : UnaryOp} (h : c.rest = op.symbol.toList ++ rest)
    (hsign : op = .negate → Stops Char.isDigit rest) : c.eat? .integer = none := by
  have hnone : splitInteger? c.rest = none := by
    rw [h]
    cases op with
    | not => rfl
    | negate =>
        have hdigits : splitDigits? rest = none := splitDigits?_eq_none_iff.mpr (hsign rfl)
        simp [UnaryOp.symbol, splitInteger?, hdigits]
  rw [eat?, Pattern.split?, hnone]
  rfl

end Cursor

/-! ## The cursor at words -/

namespace Cursor

variable {c : Cursor} {rest : List Char}

/-- Where a name stands, no other word does. -/
theorem eat?_word_of_identifier {text name : String}
    (htext : ∀ letter ∈ text.toList, isNameChar letter = true) (hname : isIdentifier name = true)
    (h : c.rest = name.toList ++ rest) (hend : Stops isNameChar rest) (hne : name ≠ text) :
    c.eat? (.word text) = none := by
  refine Option.eq_none_iff_forall_ne_some.mpr fun past hpast => hne ?_
  obtain ⟨⟨found, tail⟩, hsplit, -⟩ := Option.map_eq_some_iff.mp hpast
  obtain ⟨more, hmore, hsplit⟩ := Option.bind_eq_some_iff.mp hsplit
  split at hsplit
  · cases hsplit
  · rename_i hstops
    have hrest := after?_eq_some_iff.mp hmore
    have htake := (takeWhile_append_of_stops htext (by simpa [Stops] using hstops)).1
    rw [← hrest, h] at htake
    have hnameChars := fun letter => isNameChar_of_mem_identifier (c := letter) hname
    rw [(takeWhile_append_of_stops hnameChars hend).1] at htake
    exact String.toList_inj.mp htake

theorem eat?_word_of_stops {text : String} {letter : Char}
    (htext : text.toList.head? = some letter) (hletter : isNameStart letter = true)
    (h : Stops isNameStart c.rest) : c.eat? (.word text) = none := by
  cases hrest : c.rest with
  | nil =>
      have hafter : after? text.toList [] = none := by
        refine Option.eq_none_iff_forall_ne_some.mpr fun more hmore => ?_
        have hnil := (List.append_eq_nil_iff.mp (after?_eq_some_iff.mp hmore).symm).1
        simp [hnil] at htext
      rw [eat?, Pattern.split?, hrest, hafter]
      rfl
  | cons first more =>
      refine eat?_word_of_ne htext (by rw [hrest]; rfl) ?_
      rintro rfl
      rw [Stops, hrest] at h
      simp [hletter] at h

theorem eat?_identifier_of_stops (h : Stops isNameStart c.rest) : c.eat? .identifier = none := by
  cases hrest : c.rest with
  | nil => simp [eat?, Pattern.split?, splitIdentifier?, hrest]
  | cons first more =>
      rw [Stops, hrest] at h
      have hfirst : isNameStart first = false := h
      simp [eat?, Pattern.split?, splitIdentifier?, hrest, hfirst]

end Cursor

end TapePuzzle
