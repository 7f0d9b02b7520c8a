import TapePuzzle.Proofs.Grammar.Trees
import TapePuzzle.Proofs.Writing.Symbols

/-!
# The grammar of equations

Which texts are operands and equations over a table of names, and of which tree. Names and numbers
need no rule about how far they go: nothing that can follow one of them continues it. Main
statement: the text of an equation is passed over as a whole by whoever looks for the end mark of
the equation around it.
-/

namespace TapePuzzle

/-- The text consists of spaces and tabs. -/
def IsBlanks (text : List Char) : Prop := ∀ c ∈ text, isBlank c = true

theorem Builtin.isIdentifier_name (function : Builtin) : isIdentifier function.name = true := by
  cases function <;> decide

theorem Method.isIdentifier_name (verb : Method) : isIdentifier verb.name = true := by
  cases verb <;> decide

/-- The call of a function with an argument or without. -/
def Expr.callOf (function : Builtin) (argument? : Option Expr) (s : Span) : Expr :=
  match argument? with
  | none => .call function s
  | some argument => .callWith function argument s

/-- The call of a method with an argument or without. -/
def Expr.methodOf (object : Ident) (verb : Method) (argument? : Option Expr) (s : Span) : Expr :=
  match argument? with
  | none => .method object verb s
  | some argument => .methodWith object verb argument s

namespace Grammar

mutual

/-- The text is an operand and has this tree. -/
inductive IsOperand (names : Names) : List Char → Expr → Prop where
  | number {text : List Char} (htext : IsInteger text)
      (hrange : inRange (readInteger text) = true) :
      IsOperand names text (.number (readInteger text) .nowhere)
  /-- A minus sign in front of a digit belongs to the number. -/
  | unary {op : UnaryOp} {blanks text : List Char} {operand : Expr}
      (hsign : op = .negate → Stops Char.isDigit (blanks ++ text)) (hblanks : IsBlanks blanks)
      (hoperand : IsOperand names text operand) :
      IsOperand names (op.symbol.toList ++ (blanks ++ text)) (.unary op operand .nowhere)
  | parentheses {text : List Char} {e : Expr} (he : IsEquation names text e) :
      IsOperand names ('(' :: (text ++ [')'])) e
  | slot {name : String} {text : List Char} {offset? : Option Expr}
      (hname : isIdentifier name = true) (hslot : names.HasSlot name)
      (hoffset : IsOffset names text offset?) :
      IsOperand names (name.toList ++ text)
        (SlotRef.toExpr ⟨⟨name, .nowhere⟩, offset?, .nowhere⟩ .nowhere)
  | call {function : Builtin} {text : List Char} {argument? : Option Expr}
      (hargument : IsArgument names function.arity text argument?) :
      IsOperand names (function.name.toList ++ text) (.callOf function argument? .nowhere)
  | method {object : String} {verb : Method} {text : List Char} {argument? : Option Expr}
      (hobject : isIdentifier object = true) (hmethod : names.HasMethod object verb)
      (hargument : IsArgument names verb.arity text argument?) :
      IsOperand names (object.toList ++ '.' :: (verb.name.toList ++ text))
        (.methodOf ⟨object, .nowhere⟩ verb argument? .nowhere)

/-- What may stand directly behind the name of a slot. -/
inductive IsOffset (names : Names) : List Char → Option Expr → Prop where
  | none : IsOffset names [] none
  | some {text : List Char} {e : Expr} (he : IsEquation names text e) :
      IsOffset names ('[' :: (text ++ [']'])) (some e)

/-- What has to stand directly behind the name of a function or method of this arity. -/
inductive IsArgument (names : Names) : Nat → List Char → Option Expr → Prop where
  | none {blanks : List Char} (hblanks : IsBlanks blanks) :
      IsArgument names 0 ('(' :: (blanks ++ [')'])) none
  | some {text : List Char} {e : Expr} (he : IsEquation names text e) :
      IsArgument names 1 ('(' :: (text ++ [')'])) (some e)

/-- The text consists of operators, each with its right operand, and of blanks at the end. -/
inductive IsRun (names : Names) : List Char → OperatorRun → Prop where
  | nil {blanks : List Char} (hblanks : IsBlanks blanks) : IsRun names blanks []
  | cons {op : BinaryOp} {before behind text more : List Char} {operand : Expr} {run : OperatorRun}
      (hbefore : IsBlanks before) (hbehind : IsBlanks behind)
      (hoperand : IsOperand names text operand) (hrun : IsRun names more run) :
      IsRun names (before ++ (op.symbol.toList ++ (behind ++ (text ++ more))))
        ((op, operand) :: run)

/-- The text is an equation and has this tree. -/
inductive IsEquation (names : Names) : List Char → Expr → Prop where
  | mk {blanks text more : List Char} {first e : Expr} {run : OperatorRun}
      (hblanks : IsBlanks blanks) (hfirst : IsOperand names text first)
      (hrun : IsRun names more run) (hshape : Grouping 0 first run e) :
      IsEquation names (blanks ++ (text ++ more)) e

end

end Grammar

/-! ## Larger tables of names -/

/-- What a name stands for among the first names, it stands for among the second. -/
structure Names.Within (names names' : Names) : Prop where
  slot : ∀ {name}, names.HasSlot name → names'.HasSlot name
  method : ∀ {name verb}, names.HasMethod name verb → names'.HasMethod name verb
  label : ∀ {name}, names.HasLabel name → names'.HasLabel name

namespace Grammar

mutual

theorem IsOperand.within {names names' : Names} {text : List Char} {e : Expr}
    (h : names.Within names') : IsOperand names text e → IsOperand names' text e
  | .number htext hrange => .number htext hrange
  | .unary hsign hblanks hoperand => .unary hsign hblanks (hoperand.within h)
  | .parentheses he => .parentheses (he.within h)
  | .slot hname hslot hoffset => .slot hname (h.slot hslot) (hoffset.within h)
  | .call hargument => .call (hargument.within h)
  | .method hobject hmethod hargument => .method hobject (h.method hmethod) (hargument.within h)

theorem IsOffset.within {names names' : Names} {text : List Char} {offset? : Option Expr}
    (h : names.Within names') : IsOffset names text offset? → IsOffset names' text offset?
  | .none => .none
  | .some he => .some (he.within h)

theorem IsArgument.within {names names' : Names} {arity : Nat} {text : List Char}
    {argument? : Option Expr} (h : names.Within names') :
    IsArgument names arity text argument? → IsArgument names' arity text argument?
  | .none hblanks => .none hblanks
  | .some he => .some (he.within h)

theorem IsRun.within {names names' : Names} {text : List Char} {run : OperatorRun}
    (h : names.Within names') : IsRun names text run → IsRun names' text run
  | .nil hblanks => .nil hblanks
  | .cons hbefore hbehind hoperand hrun =>
      .cons hbefore hbehind (hoperand.within h) (hrun.within h)

theorem IsEquation.within {names names' : Names} {text : List Char} {e : Expr}
    (h : names.Within names') : IsEquation names text e → IsEquation names' text e
  | .mk hblanks hfirst hrun hshape => .mk hblanks (hfirst.within h) (hrun.within h) hshape

end

end Grammar

/-! ## End marks -/

/-- How many brackets are open behind a character, if `depth` are open in front of it. -/
def bracketDepth (c : Char) (depth : Nat) : Nat :=
  if c == '(' || c == '[' then depth + 1
  else if c == ')' || c == ']' then depth - 1
  else depth

/-- Cuts a text at the first end mark outside of the brackets that open in it, where `depth`
    brackets are open in front of the text. -/
def EndMark.cut? (stop : EndMark) : (depth : Nat) → List Char → Option (List Char × List Char)
  | _, [] => if stop = .endOfLine then some ([], []) else none
  | depth, c :: text =>
      if depth = 0 ∧ stop.character? = some c then some ([], c :: text)
      else (stop.cut? (bracketDepth c depth) text).map fun (before, behind) => (c :: before, behind)

theorem EndMark.at_of_cut? {stop : EndMark} {depth : Nat} {text before behind : List Char}
    (h : stop.cut? depth text = some (before, behind)) :
    text = before ++ behind ∧ stop.At behind := by
  induction text generalizing depth before with
  | nil =>
      unfold cut? at h
      split at h
      · rename_i hstop
        cases h
        exact ⟨rfl, by rw [hstop]; rfl⟩
      · cases h
  | cons c text ih =>
      unfold cut? at h
      split at h
      · rename_i hmark
        cases h
        exact ⟨rfl, hmark.2.symm⟩
      · obtain ⟨⟨before', behind'⟩, hcut, heq⟩ := Option.map_eq_some_iff.mp h
        cases heq
        obtain ⟨rfl, hat⟩ := ih hcut
        exact ⟨rfl, hat⟩

theorem EndMark.cut?_of_at {stop : EndMark} {rest : List Char} (h : stop.At rest) :
    stop.cut? 0 rest = some ([], rest) := by
  cases rest with
  | nil =>
      cases stop with
      | endOfLine => rfl
      | closeParen | closeBracket => cases h
  | cons c rest =>
      have hmark : stop.character? = some c := h.symm
      simp [cut?, hmark]

/-- No end mark is found in the text, and as many brackets are open behind it as in front. -/
def IsLevel (text : List Char) : Prop :=
  ∀ (stop : EndMark) (depth : Nat) (rest : List Char),
    stop.cut? depth (text ++ rest) =
      (stop.cut? depth rest).map fun (before, behind) => (text ++ before, behind)

/-- Parentheses and square brackets. -/
def isBracket (c : Char) : Bool := c == '(' || c == '[' || c == ')' || c == ']'

namespace IsLevel

variable {text text' : List Char}

theorem nil : IsLevel [] := by
  intro stop depth rest
  simp

theorem append (h : IsLevel text) (h' : IsLevel text') : IsLevel (text ++ text') := by
  intro stop depth rest
  rw [List.append_assoc, h, h', Option.map_map]
  congr
  funext pair
  simp

theorem singleton {c : Char} (h : isBracket c = false) : IsLevel [c] := by
  intro stop depth rest
  simp only [isBracket, Bool.or_eq_false_iff] at h
  obtain ⟨⟨⟨hparen, hbracket⟩, hclosed⟩, hclosed'⟩ := h
  have hdepth : bracketDepth c depth = depth := by
    simp [bracketDepth, hparen, hbracket, hclosed, hclosed']
  have hmark : stop.character? ≠ some c := by
    intro hmark
    cases stop <;> cases hmark
    · cases hclosed
    · cases hclosed'
  simp [EndMark.cut?, hmark, hdepth]

theorem of_chars (h : ∀ c ∈ text, isBracket c = false) : IsLevel text := by
  induction text with
  | nil => exact nil
  | cons c text ih =>
      obtain ⟨hc, htext⟩ := List.forall_mem_cons.mp h
      exact (singleton hc).append (ih htext)

/-- Inside brackets, one more bracket is open, so that the closing bracket is no end mark. -/
theorem enclosed {opening closing : Char} (hopening : opening = '(' ∨ opening = '[')
    (hclosing : closing = ')' ∨ closing = ']') (h : IsLevel text) :
    IsLevel (opening :: (text ++ [closing])) := by
  intro stop depth rest
  have hmark : stop.character? ≠ some opening := by
    rcases hopening with rfl | rfl <;> cases stop <;> decide
  have hopen : bracketDepth opening depth = depth + 1 := by
    rcases hopening with rfl | rfl <;> rfl
  have hclose : bracketDepth closing (depth + 1) = depth := by
    rcases hclosing with rfl | rfl <;> rfl
  have hinside : stop.cut? (depth + 1) (closing :: rest) =
      (stop.cut? depth rest).map fun (before, behind) => (closing :: before, behind) := by
    simp [EndMark.cut?, hclose]
  have htext := h stop (depth + 1) (closing :: rest)
  rw [hinside, Option.map_map] at htext
  simp [EndMark.cut?, hmark, hopen, htext, Function.comp_def]

theorem of_isWord (h : IsWord text) : IsLevel text := by
  refine of_chars fun c hc => ?_
  have hword := h.chars c hc
  simp [isBracket, ne_of_isWordChar hword (show isWordChar '(' = false by decide),
    ne_of_isWordChar hword (show isWordChar '[' = false by decide),
    ne_of_isWordChar hword (show isWordChar ')' = false by decide),
    ne_of_isWordChar hword (show isWordChar ']' = false by decide)]

theorem of_isIdentifier {name : String} (h : isIdentifier name = true) : IsLevel name.toList :=
  of_isWord (isWord_of_isIdentifier h)

theorem of_isBlanks (h : IsBlanks text) : IsLevel text := by
  refine of_chars fun c hc => ?_
  have hblank := h c hc
  simp only [isBlank, Bool.or_eq_true, beq_iff_eq] at hblank
  rcases hblank with rfl | rfl <;> decide

theorem of_all (h : text.all (fun c => !isBracket c) = true) : IsLevel text := by
  refine of_chars fun c hc => ?_
  simpa using List.all_eq_true.mp h c hc

theorem of_unary (op : UnaryOp) : IsLevel op.symbol.toList := of_all (by cases op <;> decide)

theorem of_binary (op : BinaryOp) : IsLevel op.symbol.toList := of_all (by cases op <;> decide)

end IsLevel

namespace Grammar

variable {names : Names} {text : List Char} {e : Expr}

theorem IsOperand.startsOperand (h : IsOperand names text e) : StartsOperand text := by
  cases h with
  | number htext => exact htext.isWord.startsOperand
  | @unary op blanks text operand => cases op <;> exact ⟨_, _, rfl, by decide⟩
  | parentheses => exact ⟨'(', _, rfl, by decide⟩
  | slot hname => exact (isWord_of_isIdentifier hname).startsOperand.append _
  | @call function text argument? =>
      exact (isWord_of_isIdentifier function.isIdentifier_name).startsOperand.append text
  | method hobject => exact (isWord_of_isIdentifier hobject).startsOperand.append _

mutual

theorem IsOperand.isLevel {names : Names} {text : List Char} {e : Expr} :
    IsOperand names text e → IsLevel text
  | .number htext _ => .of_isWord htext.isWord
  | .unary _ hblanks hoperand =>
      .append (.of_unary _) (.append (.of_isBlanks hblanks) hoperand.isLevel)
  | .parentheses he => .enclosed (.inl rfl) (.inl rfl) he.isLevel
  | .slot hname _ hoffset => .append (.of_isIdentifier hname) hoffset.isLevel
  | .call hargument => .append (.of_isIdentifier (Builtin.isIdentifier_name _)) hargument.isLevel
  | .method hobject _ hargument =>
      .append (.of_isIdentifier hobject) (.append (.singleton (by decide))
        (.append (.of_isIdentifier (Method.isIdentifier_name _)) hargument.isLevel))

theorem IsOffset.isLevel {names : Names} {text : List Char} {offset? : Option Expr} :
    IsOffset names text offset? → IsLevel text
  | .none => .nil
  | .some he => .enclosed (.inr rfl) (.inr rfl) he.isLevel

theorem IsArgument.isLevel {names : Names} {arity : Nat} {text : List Char}
    {argument? : Option Expr} : IsArgument names arity text argument? → IsLevel text
  | .none hblanks => .enclosed (.inl rfl) (.inl rfl) (.of_isBlanks hblanks)
  | .some he => .enclosed (.inl rfl) (.inl rfl) he.isLevel

theorem IsRun.isLevel {names : Names} {text : List Char} {run : OperatorRun} :
    IsRun names text run → IsLevel text
  | .nil hblanks => .of_isBlanks hblanks
  | .cons hbefore hbehind hoperand hrun =>
      .append (.of_isBlanks hbefore) (.append (.of_binary _) (.append (.of_isBlanks hbehind)
        (.append hoperand.isLevel hrun.isLevel)))

theorem IsEquation.isLevel {names : Names} {text : List Char} {e : Expr} :
    IsEquation names text e → IsLevel text
  | .mk hblanks hfirst hrun _ =>
      .append (.of_isBlanks hblanks) (.append hfirst.isLevel hrun.isLevel)

end

/-- Where an equation stands in front of its end mark, the text is cut at this end mark. -/
theorem IsEquation.cut?_append (h : IsEquation names text e) {stop : EndMark} {rest : List Char}
    (hrest : stop.At rest) : stop.cut? 0 (text ++ rest) = some (text, rest) := by
  rw [h.isLevel, EndMark.cut?_of_at hrest]
  simp

end Grammar

end TapePuzzle
