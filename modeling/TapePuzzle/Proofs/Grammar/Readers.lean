import TapePuzzle.Proofs.Grammar.Derivations
import TapePuzzle.Proofs.Reading.Places

/-!
# Readers and the grammar of equations

The reader of equations accepts the texts that the grammar derives, and no others. Main statements:
`accepts_readEquation`, by which every text that the grammar derives is read, and
`derives_readEquation`, by which every text that is read has a derivation of the tree that is found.
So it can be decided whether a text is an equation.
-/

namespace TapePuzzle

open Grammar

theorem Names.role_builtin (names : Names) (function : Builtin) :
    names.role function.name = .builtin function := by
  cases function <;> rfl

theorem Names.name_of_role_builtin {names : Names} {name : String} {function : Builtin}
    (h : names.role name = .builtin function) : function.name = name := by
  unfold role at h
  split at h
  · cases h
  · split at h
    · rename_i found hfound
      cases h
      simpa using List.find?_some hfound
    · unfold declared at h
      split at h
      · cases h
      · split at h
        · cases h
        · split at h <;> cases h

theorem ObjectKind.method?_name {kind : ObjectKind} {verb : Method} (h : verb ∈ kind.methods) :
    kind.method? verb.name = some verb := by
  revert h
  cases kind <;> cases verb <;> decide

theorem afterBlanks_append {blanks text : List Char} (hblanks : IsBlanks blanks)
    (htext : Stops isBlank text) : afterBlanks (blanks ++ text) = text :=
  (takeWhile_append_of_stops hblanks htext).2

theorem stops_append {p : Char → Bool} {blanks text : List Char} (hblanks : IsBlanks blanks)
    (hspace : p ' ' = false) (htab : p '\t' = false) (htext : Stops p text) :
    Stops p (blanks ++ text) := by
  cases blanks with
  | nil => exact htext
  | cons c blanks =>
      have hblank := hblanks c List.mem_cons_self
      simp only [isBlank, Bool.or_eq_true, beq_iff_eq] at hblank
      rcases hblank with rfl | rfl
      · exact hspace
      · exact htab

/-! ## What the grammar derives is read -/

/-- The reader answers this equation, apart from its places, and stops in front of `rest`. -/
def Recovers (result : Checked (Expr × Cursor)) (e : Expr) (rest : List Char) : Prop :=
  ∃ found past, result = .ok (found, past) ∧ found.unplaced = e ∧ past.rest = rest

/-- What follows an operand: nothing that goes on with a name or number, and no offset. -/
def EndsOperand (rest : List Char) : Prop := Stops (fun c => isNameChar c || c == '[') rest

/-- The reader accepts all operands that are shorter than `size`. -/
def OperandReader.Accepts (operand : OperandReader) (names : Names) (size : Nat) : Prop :=
  ∀ text e c rest, IsOperand names text e → text.length < size → c.rest = text ++ rest →
    EndsOperand rest → Recovers (operand c) e rest

/-- The reader accepts all equations that are shorter than `size`. -/
def EquationReader.Accepts (equation : EquationReader) (names : Names) (size : Nat) : Prop :=
  ∀ stop text e c rest, IsEquation names text e → text.length < size → c.rest = text ++ rest →
    stop.At rest → Recovers (equation stop c) e rest

section Operators

variable {names : Names} {c : Cursor} {text rest : List Char} {fuel : Nat} {e : Expr}

theorem recovers_number (htext : IsInteger text) (hrange : inRange (readInteger text) = true)
    (h : c.rest = text ++ rest) (hend : Stops Char.isDigit rest) :
    Recovers (readOperand names (fuel + 1) c) (.number (readInteger text) .nowhere) rest := by
  obtain ⟨past, hpast, hrest, rfl⟩ := Cursor.eat?_integer htext h hend
  refine ⟨.number (readInteger past.matched) (past.spanFrom c.offset), past, ?_, rfl, hrest⟩
  rw [readOperand, hpast]
  simp [readNumber, hrange, bind, Except.bind]

theorem recovers_unary {op : UnaryOp} (h : c.rest = op.symbol.toList ++ text)
    (hsign : op = .negate → Stops Char.isDigit text)
    (hoperand : ∀ c' : Cursor, c'.rest = afterBlanks text →
      Recovers (readOperand names fuel c') e rest) :
    Recovers (readOperand names (fuel + 1) c) (.unary op e .nowhere) rest := by
  obtain ⟨past, hpast, hpastRest⟩ := Cursor.eatFirst?_unary h
  have hskip : past.skipBlanks.rest = afterBlanks text := by
    rw [Cursor.rest_skipBlanks, hpastRest]
  obtain ⟨found, behind, hfound, rfl, hrest⟩ := hoperand _ hskip
  refine ⟨.unary op found (behind.spanFrom c.offset), behind, ?_, rfl, hrest⟩
  rw [readOperand, Cursor.eat?_integer_of_unary h hsign]
  dsimp only
  rw [hpast]
  dsimp only
  rw [hfound]
  rfl

theorem recovers_parentheses (h : c.rest = '(' :: text)
    (hinner : ∀ c' : Cursor, c'.rest = text →
      Recovers (readEquationWith (readOperand names fuel) .closeParen c') e (')' :: rest)) :
    Recovers (readOperand names (fuel + 1) c) e rest := by
  have hliteral : c.rest = "(".toList ++ text := h
  obtain ⟨opened, hopened, hopenedRest⟩ := Cursor.eat?_literal hliteral
  obtain ⟨found, last, hfound, rfl, hlast⟩ := hinner opened hopenedRest
  have hmark : last.rest = ")".toList ++ rest := hlast
  obtain ⟨closed, hclosed, hrest⟩ := Cursor.expect_literal hmark
  have hunary : c.eatFirst? (fun op : UnaryOp => .literal op.symbol) UnaryOp.all = none := by
    refine Cursor.eatFirst?_eq_none fun op _ => ?_
    cases op <;> exact Cursor.eat?_literal_of_ne rfl (by rw [h]; rfl)
  refine ⟨found.withSpan (closed.spanFrom c.offset), closed, ?_, by simp, hrest⟩
  rw [readOperand, Cursor.eat?_integer_of_stops (by rw [h]; rfl)]
  dsimp only
  rw [hunary, hopened]
  dsimp only
  rw [hfound]
  dsimp only [bind, Except.bind]
  rw [hclosed]

theorem recovers_identifier {name : String} (hname : isIdentifier name = true)
    (h : c.rest = name.toList ++ text) (hend : Stops isNameChar text)
    (hnamed : ∀ past : Cursor, past.rest = text → past.word = name →
      Recovers (readNamed names (readEquationWith (readOperand names fuel)) c.offset past) e rest) :
    Recovers (readOperand names (fuel + 1) c) e rest := by
  obtain ⟨first, more, heq, hfirst, -⟩ := isIdentifier_iff.mp hname
  have hhead : c.rest.head? = some first := by rw [h, heq]; rfl
  have hliteral : ∀ {literal : String} {letter : Char}, literal.toList.head? = some letter →
      isNameStart letter = false → c.eat? (.literal literal) = none := by
    intro literal letter hletter hstart
    refine Cursor.eat?_literal_of_ne hletter ?_
    rw [Stops, hhead]
    refine beq_eq_false_iff_ne.mpr ?_
    rintro rfl
    rw [hfirst] at hstart
    cases hstart
  have hunary : c.eatFirst? (fun op : UnaryOp => .literal op.symbol) UnaryOp.all = none := by
    refine Cursor.eatFirst?_eq_none fun op _ => ?_
    cases op <;> exact hliteral rfl rfl
  obtain ⟨past, hpast, hrest, hword⟩ := Cursor.eat?_identifier hname h hend
  have hparen : c.eat? (.literal "(") = none := hliteral rfl rfl
  obtain ⟨found, behind, hfound, hsame, hbehind⟩ := hnamed past hrest hword
  refine ⟨found, behind, ?_, hsame, hbehind⟩
  rw [readOperand, Cursor.eat?_integer_of_identifier hname h]
  dsimp only
  rw [hunary, hparen, hpast]
  exact hfound

end Operators

theorem EndMark.At.endsOperand {stop : EndMark} {rest : List Char} (h : stop.At rest) :
    EndsOperand rest := by
  rw [EndsOperand, Stops, h]
  cases stop <;> rfl

theorem EndsOperand.stops {rest : List Char} (h : EndsOperand rest) : Stops isNameChar rest := by
  cases rest with
  | nil => rfl
  | cons c rest => exact (Bool.or_eq_false_iff.mp h).1

theorem EndsOperand.stops_bracket {rest : List Char} (h : EndsOperand rest) :
    Stops (· == '[') rest := by
  cases rest with
  | nil => rfl
  | cons c rest => exact (Bool.or_eq_false_iff.mp h).2

theorem EndsOperand.stops_digit {rest : List Char} (h : EndsOperand rest) :
    Stops Char.isDigit rest := by
  cases rest with
  | nil => rfl
  | cons c rest =>
      have hname : isNameChar c = false := h.stops
      show c.isDigit = false
      simp only [isNameChar, Char.isAlphanum, Bool.or_eq_false_iff] at hname
      exact hname.1.2

/-- Neither a run nor the end mark behind it continues the operand in front of it. -/
theorem Grammar.IsRun.endsOperand {names : Names} {text : List Char} {run : OperatorRun}
    (h : IsRun names text run) {stop : EndMark} {rest : List Char} (hrest : stop.At rest) :
    EndsOperand (text ++ rest) := by
  cases h with
  | nil hblanks => exact stops_append hblanks rfl rfl hrest.endsOperand
  | @cons op before behind text more operand run hbefore hbehind hoperand hrun =>
      rw [List.append_assoc]
      refine stops_append hbefore rfl rfl ?_
      cases op <;> rfl

section Runs

variable {names : Names} {operand : OperandReader} {size fuel : Nat} {stop : EndMark}
  {text rest : List Char} {c : Cursor}

/-- All operators of a run are read. The induction is over the run, each operator takes one unit of
    fuel, and its symbol is at least one character long. -/
theorem accepts_readRun (hoperand : operand.Accepts names size) {run : OperatorRun}
    (h : IsRun names text run) (hsize : text.length < size) (hfuel : text.length < fuel)
    (hc : c.rest = text ++ rest) (hrest : stop.At rest) (afterNumber : Bool) :
    ∃ found past, readRun operand stop fuel afterNumber c = .ok (found, past) ∧
      found.unplaced = run ∧ past.rest = rest := by
  induction run generalizing text fuel c afterNumber with
  | nil =>
      cases h with
      | nil hblanks =>
          obtain ⟨fuel, rfl⟩ : ∃ less, fuel = less + 1 := ⟨fuel - 1, by omega⟩
          have hstops : Stops isBlank rest := by
            rw [Stops, hrest]
            cases stop <;> rfl
          have hskip : c.skipBlanks.rest = rest := by
            rw [Cursor.rest_skipBlanks, hc, afterBlanks_append hblanks hstops]
          refine ⟨[], c.skipBlanks, ?_, rfl, hskip⟩
          rw [readRun]
          dsimp only
          rw [Cursor.sees_endMark (by rw [hskip]; exact hrest), if_pos rfl]
  | cons entry run ih =>
      cases h with
      | @cons op before behind text more right run hbefore hbehind hright hrun =>
          obtain ⟨fuel, rfl⟩ : ∃ less, fuel = less + 1 := ⟨fuel - 1, by omega⟩
          have hsymbol : 0 < op.symbol.toList.length := by cases op <;> decide
          simp only [List.length_append] at hsize hfuel
          have hstart := hright.startsOperand
          have hstops :
              Stops isBlank (op.symbol.toList ++ (behind ++ (text ++ (more ++ rest)))) := by
            cases op <;> rfl
          have hskip : c.skipBlanks.rest =
              op.symbol.toList ++ (behind ++ (text ++ (more ++ rest))) := by
            rw [Cursor.rest_skipBlanks, hc, ← afterBlanks_append hbefore hstops]
            simp
          have hequals : Stops (· == '=') (behind ++ (text ++ (more ++ rest))) :=
            stops_append hbehind rfl rfl ((hstart.append _).stops_char rfl)
          obtain ⟨past, hpast, hpastRest⟩ := Cursor.eatFirst?_binary hskip hequals
          have hskip' : past.skipBlanks.rest = text ++ (more ++ rest) := by
            rw [Cursor.rest_skipBlanks, hpastRest]
            exact afterBlanks_append hbehind (hstart.append _).stops_isBlank
          obtain ⟨found, last, hfound, rfl, hlast⟩ :=
            hoperand _ _ _ _ hright (by omega) hskip' (hrun.endsOperand hrest)
          have hless : more.length < fuel := by omega
          obtain ⟨foundRun, done, hdone, rfl, hdoneRest⟩ :=
            ih hrun (by omega) hless hlast found.isNumber
          refine ⟨(op, found) :: foundRun, done, ?_, rfl, hdoneRest⟩
          rw [readRun]
          dsimp only
          rw [Cursor.sees_endMark_of_operator hskip, if_neg (by simp), hpast]
          dsimp only
          rw [hfound]
          dsimp only [bind, Except.bind]
          rw [hdone]

theorem accepts_readEquationWith (hoperand : operand.Accepts names size) :
    EquationReader.Accepts (readEquationWith operand) names size := by
  intro stop text e c rest h hsize hc hrest
  cases h with
  | @mk blanks text more first e run hblanks hfirst hrun hshape =>
      simp only [List.length_append] at hsize
      have hskip : c.skipBlanks.rest = text ++ (more ++ rest) := by
        have hstops := (hfirst.startsOperand.append (more ++ rest)).stops_isBlank
        rw [Cursor.rest_skipBlanks, hc, ← afterBlanks_append hblanks hstops]
        simp
      obtain ⟨found, behind, hfound, rfl, hbehind⟩ :=
        hoperand _ _ _ _ hfirst (by omega) hskip (hrun.endsOperand hrest)
      have hfuel : more.length < behind.rest.length + 1 := by
        rw [hbehind, List.length_append]
        omega
      obtain ⟨foundRun, last, hlast, rfl, hlastRest⟩ :=
        accepts_readRun hoperand hrun (by omega) hfuel hbehind hrest found.isNumber
      refine ⟨shape found foundRun, last, ?_, (grouping_shape found foundRun).unique hshape,
        hlastRest⟩
      rw [readEquationWith, hfound]
      dsimp only [bind, Except.bind]
      rw [hlast]

end Runs

section Names

variable {names : Names} {equation : EquationReader} {size : Nat} {text rest : List Char}
  {c : Cursor}

theorem accepts_readSlotRef (hequation : equation.Accepts names size) {offset? : Option Expr}
    (h : IsOffset names text offset?) (hsize : text.length ≤ size) (hc : c.rest = text ++ rest)
    (hrest : EndsOperand rest) (ident : Ident) :
    ∃ slot past, readSlotRef equation ident c = .ok (slot, past) ∧
      slot.unplaced = ⟨ident.unplaced, offset?, .nowhere⟩ ∧ past.rest = rest := by
  cases h with
  | none =>
      have hbracket : c.eat? (.literal "[") = none :=
        Cursor.eat?_literal_of_ne rfl (by rw [hc]; exact hrest.stops_bracket)
      refine ⟨⟨ident, none, ⟨ident.span.line, ident.span.startColumn, c.column⟩⟩, c, ?_, rfl, hc⟩
      rw [readSlotRef, hbracket]
  | @some text offset hoffset =>
      simp only [List.length_cons, List.length_append] at hsize
      have hopening : c.rest = "[".toList ++ (text ++ ']' :: rest) := by simpa using hc
      obtain ⟨opened, hopened, hopenedRest⟩ := Cursor.eat?_literal hopening
      obtain ⟨found, last, hfound, rfl, hlast⟩ :=
        hequation .closeBracket _ _ _ _ hoffset (by omega) hopenedRest rfl
      have hclosing : last.rest = "]".toList ++ rest := hlast
      obtain ⟨closed, hclosed, hclosedRest⟩ := Cursor.expect_literal hclosing
      refine ⟨⟨ident, some found, ⟨ident.span.line, ident.span.startColumn, closed.column⟩⟩, closed,
        ?_, rfl, hclosedRest⟩
      rw [readSlotRef, hopened]
      dsimp only
      rw [hfound]
      dsimp only [bind, Except.bind]
      rw [hclosed]

/-- The blanks that an argument starts with are passed before it is read, which changes nothing. -/
theorem Grammar.IsEquation.afterBlanks {e : Expr} (h : IsEquation names text e) :
    ∃ tight, IsEquation names tight e ∧ StartsOperand tight ∧ tight.length ≤ text.length ∧
      ∀ rest, TapePuzzle.afterBlanks (text ++ rest) = tight ++ rest := by
  cases h with
  | @mk blanks text more first e run hblanks hfirst hrun hshape =>
      have hstart := hfirst.startsOperand
      have hnone : IsBlanks [] := by simp [IsBlanks]
      refine ⟨text ++ more, .mk hnone hfirst hrun hshape, hstart.append more, by simp,
        fun rest => ?_⟩
      have hstops := (hstart.append (more ++ rest)).stops_isBlank
      simpa using afterBlanks_append hblanks hstops

theorem Grammar.IsArgument.stops {arity : Nat} {argument? : Option Expr}
    (h : IsArgument names arity text argument?) (rest : List Char) :
    Stops isNameChar (text ++ rest) := by
  cases h <;> rfl

theorem accepts_readArgument (hequation : equation.Accepts names size) {arity : Nat}
    {argument? : Option Expr} (h : IsArgument names arity text argument?)
    (hsize : text.length ≤ size) (hc : c.rest = text ++ rest) (callee : String) :
    ∃ found? past, readArgument equation callee arity c = .ok (found?, past) ∧
      found?.map Expr.unplaced = argument? ∧ past.rest = rest := by
  cases h with
  | @none blanks hblanks =>
      have hopening : c.rest = "(".toList ++ (blanks ++ ')' :: rest) := by simpa using hc
      obtain ⟨opened, hopened, hopenedRest⟩ := Cursor.eat?_literal hopening
      have hclosing : opened.skipBlanks.rest = ")".toList ++ rest := by
        rw [Cursor.rest_skipBlanks, hopenedRest]
        exact afterBlanks_append hblanks rfl
      obtain ⟨closed, hclosed, hclosedRest⟩ := Cursor.eat?_literal hclosing
      refine ⟨none, closed, ?_, rfl, hclosedRest⟩
      simp [readArgument, hopened, hclosed]
  | @some text argument hargument =>
      simp only [List.length_cons, List.length_append] at hsize
      have hopening : c.rest = "(".toList ++ (text ++ ')' :: rest) := by simpa using hc
      obtain ⟨opened, hopened, hopenedRest⟩ := Cursor.eat?_literal hopening
      obtain ⟨tight, htight, hstart, hlength, hafter⟩ := hargument.afterBlanks
      have hskip : opened.skipBlanks.rest = tight ++ ')' :: rest := by
        rw [Cursor.rest_skipBlanks, hopenedRest, hafter]
      have hparen : opened.skipBlanks.eat? (.literal ")") = none := by
        refine Cursor.eat?_literal_of_ne rfl ?_
        rw [hskip]
        exact (hstart.append _).stops_char rfl
      obtain ⟨found, last, hfound, rfl, hlast⟩ :=
        hequation .closeParen _ _ _ _ htight (by omega) hskip rfl
      have hclosing : last.rest = ")".toList ++ rest := hlast
      obtain ⟨closed, hclosed, hclosedRest⟩ := Cursor.expect_literal hclosing
      refine ⟨some found, closed, ?_, rfl, hclosedRest⟩
      simp [readArgument, hopened, hparen, hfound, hclosed, bind, Except.bind]

theorem recovers_slot (hequation : equation.Accepts names size) {name : String}
    {offset? : Option Expr} (hslot : names.HasSlot name) (h : IsOffset names text offset?)
    (hsize : text.length ≤ size) (hc : c.rest = text ++ rest) (hword : c.word = name)
    (hrest : EndsOperand rest) (start : Nat) :
    Recovers (readNamed names equation start c)
      (SlotRef.toExpr ⟨⟨name, .nowhere⟩, offset?, .nowhere⟩ .nowhere) rest := by
  obtain ⟨index, hrole⟩ := hslot
  obtain ⟨slot, past, hread, hsame, hpast⟩ :=
    accepts_readSlotRef hequation h hsize hc hrest ⟨c.word, c.spanFrom start⟩
  refine ⟨slot.toExpr (past.spanFrom start), past, ?_, ?_, hpast⟩
  · simp only [readNamed, hword, hrole] at hread ⊢
    rw [hread]
    rfl
  · rw [SlotRef.unplaced_toExpr, hsame, Ident.unplaced, hword]

theorem recovers_call (hequation : equation.Accepts names size) {function : Builtin}
    {argument? : Option Expr} (h : IsArgument names function.arity text argument?)
    (hsize : text.length ≤ size) (hc : c.rest = text ++ rest) (hword : c.word = function.name)
    (start : Nat) :
    Recovers (readNamed names equation start c) (.callOf function argument? .nowhere) rest := by
  obtain ⟨found?, past, hread, rfl, hpast⟩ :=
    accepts_readArgument hequation h hsize hc function.name
  refine ⟨.callOf function found? (past.spanFrom start), past, ?_, by cases found? <;> rfl, hpast⟩
  simp only [readNamed, hword, names.role_builtin]
  rw [hread]
  cases found? <;> rfl

theorem recovers_method (hequation : equation.Accepts names size) {object : String} {verb : Method}
    {argument? : Option Expr} (hmethod : names.HasMethod object verb)
    (h : IsArgument names verb.arity text argument?) (hsize : text.length ≤ size)
    (hc : c.rest = '.' :: (verb.name.toList ++ (text ++ rest))) (hword : c.word = object)
    (start : Nat) :
    Recovers (readNamed names equation start c)
      (.methodOf ⟨object, .nowhere⟩ verb argument? .nowhere) rest := by
  obtain ⟨kind, hrole, hverb⟩ := hmethod
  have hdot : c.rest = ".".toList ++ (verb.name.toList ++ (text ++ rest)) := hc
  obtain ⟨dotted, hdotted, hdottedRest⟩ := Cursor.expect_literal hdot
  have hstops := h.stops rest
  obtain ⟨named, hnamed, hnamedRest, hname⟩ :=
    Cursor.eat?_identifier verb.isIdentifier_name hdottedRest hstops
  obtain ⟨found?, past, hread, rfl, hpast⟩ :=
    accepts_readArgument hequation h hsize hnamedRest verb.name
  refine ⟨.methodOf ⟨c.word, c.spanFrom start⟩ verb found? (past.spanFrom start), past, ?_, ?_,
    hpast⟩
  · simp only [readNamed, hword, hrole, readMethod, hdotted, bind, Except.bind, hnamed, hname,
      ObjectKind.method?_name hverb, hread]
    cases found? <;> rfl
  · rw [hword]
    cases found? <;> rfl

end Names

/-- Operands are read if the fuel is more than their length. What is nested in an operand is shorter
    than the operand, so that one unit of fuel less is enough for it. -/
theorem accepts_readOperand (names : Names) (fuel : Nat) :
    OperandReader.Accepts (readOperand names fuel) names fuel := by
  induction fuel with
  | zero =>
      intro text e c rest h hsize
      cases hsize
  | succ fuel ih =>
      intro text e c rest h hsize hc hrest
      have hequation := accepts_readEquationWith ih
      cases h with
      | number htext hrange => exact recovers_number htext hrange hc hrest.stops_digit
      | @unary op blanks text operand hsign hblanks hoperand =>
          have hsymbol : op.symbol.toList.length = 1 := by cases op <;> rfl
          have hstart := hoperand.startsOperand
          simp only [List.length_append] at hsize
          rw [List.append_assoc] at hc
          refine recovers_unary hc (fun hop => ?_) fun c' hc' => ?_
          · obtain ⟨first, more, rfl, -⟩ := hstart
            have hdigit := hsign hop
            cases blanks <;> exact hdigit
          · refine ih _ _ _ _ hoperand (by omega) ?_ hrest
            rw [hc', List.append_assoc]
            exact afterBlanks_append hblanks (hstart.append rest).stops_isBlank
      | @parentheses text e he =>
          simp only [List.length_cons, List.length_append] at hsize
          have hopening : c.rest = '(' :: (text ++ ')' :: rest) := by simpa using hc
          exact recovers_parentheses hopening fun c' hc' =>
            hequation .closeParen _ _ _ _ he (by omega) hc' rfl
      | @slot name text offset? hname hslot hoffset =>
          rw [List.append_assoc] at hc
          simp only [List.length_append] at hsize
          have hstops : Stops isNameChar (text ++ rest) := by
            cases hoffset with
            | none => exact hrest.stops
            | some => rfl
          refine recovers_identifier hname hc hstops fun past hpast hword => ?_
          exact recovers_slot hequation hslot hoffset (by omega) hpast hword hrest c.offset
      | @call function text argument? hargument =>
          rw [List.append_assoc] at hc
          simp only [List.length_append] at hsize
          refine recovers_identifier function.isIdentifier_name hc (hargument.stops rest)
            fun past hpast hword => ?_
          exact recovers_call hequation hargument (by omega) hpast hword c.offset
      | @method object verb text argument? hobject hmethod hargument =>
          simp only [List.length_append, List.length_cons] at hsize
          have hnamed : c.rest =
              object.toList ++ '.' :: (verb.name.toList ++ (text ++ rest)) := by simpa using hc
          refine recovers_identifier hobject hnamed rfl fun past hpast hword => ?_
          exact recovers_method hequation hmethod hargument (by omega) hpast hword c.offset

/-- An equation in front of its end mark is read, up to the end mark. -/
theorem accepts_readEquation {names : Names} {text rest : List Char} {e : Expr} {stop : EndMark}
    {c : Cursor} (h : IsEquation names text e) (hc : c.rest = text ++ rest) (hrest : stop.At rest) :
    Recovers (readEquation names stop c) e rest := by
  refine accepts_readEquationWith (accepts_readOperand names _) _ _ _ _ _ h ?_ hc hrest
  rw [hc, List.length_append]
  omega

/-! ## What is read has a derivation -/

namespace Cursor

variable {c past : Cursor}

theorem rest_of_eat?_literal {literal : String} (h : c.eat? (.literal literal) = some past) :
    c.rest = literal.toList ++ past.rest := by
  obtain ⟨⟨found, rest⟩, hsplit, rfl⟩ := Option.map_eq_some_iff.mp h
  obtain ⟨tail, htail, heq⟩ := Option.map_eq_some_iff.mp hsplit
  cases heq
  exact after?_eq_some_iff.mp htail

theorem rest_of_expect {literal : String} (h : c.expect literal = .ok past) :
    c.rest = literal.toList ++ past.rest := by
  unfold expect at h
  split at h
  · rename_i past' hpast
    cases h
    exact rest_of_eat?_literal hpast
  · cases h

theorem rest_of_eat?_identifier (h : c.eat? .identifier = some past) :
    c.rest = past.word.toList ++ past.rest := by
  rw [word, String.toList_ofList]
  exact rest_of_eat? h

theorem exists_blanks (c : Cursor) :
    ∃ blanks, IsBlanks blanks ∧ c.rest = blanks ++ c.skipBlanks.rest :=
  ⟨leadingBlanks c.rest,
    fun letter hletter => List.all_eq_true.mp List.all_takeWhile letter hletter,
    List.takeWhile_append_dropWhile.symm⟩

/-- Behind the blanks, the end of the line is seen only where nothing is left. -/
theorem at_of_sees {stop : EndMark} (h : c.skipBlanks.sees stop.pattern = true) :
    stop.At c.skipBlanks.rest := by
  cases stop with
  | endOfLine =>
      rw [EndMark.pattern, sees_endOfLine] at h
      have hnil : afterBlanks c.rest = [] := by
        cases hrest : afterBlanks c.rest with
        | nil => rfl
        | cons first more =>
            have hfirst := List.head?_dropWhile_not isBlank c.rest
            rw [rest_skipBlanks, hrest] at h
            simp only [List.all_cons, Bool.and_eq_true] at h
            rw [show c.rest.dropWhile isBlank = first :: more from hrest] at hfirst
            simp [h.1] at hfirst
      rw [rest_skipBlanks, hnil]
      rfl
  | closeParen | closeBracket =>
      rw [EndMark.pattern, sees_eq_isSome_eat?] at h
      obtain ⟨past, hpast⟩ := Option.isSome_iff_exists.mp h
      rw [rest_of_eat?_literal hpast]
      rfl

/-- Where no number is read, no digit follows a minus sign. -/
theorem stops_of_eat?_integer {rest : List Char} (h : c.eat? .integer = none)
    (hrest : c.rest = '-' :: rest) : Stops Char.isDigit rest := by
  refine splitDigits?_eq_none_iff.mp ?_
  simpa [eat?, Pattern.split?, hrest, splitInteger?] using h

end Cursor

/-- Whatever the reader accepts is an operand. -/
def OperandReader.Derives (operand : OperandReader) (names : Names) : Prop :=
  ∀ c e past, operand c = .ok (e, past) →
    ∃ text, c.rest = text ++ past.rest ∧ IsOperand names text e.unplaced

/-- Whatever the reader accepts is an equation in front of its end mark. -/
def EquationReader.Derives (equation : EquationReader) (names : Names) : Prop :=
  ∀ stop c e past, equation stop c = .ok (e, past) →
    ∃ text, c.rest = text ++ past.rest ∧ stop.At past.rest ∧ IsEquation names text e.unplaced

section Runs

variable {names : Names} {operand : OperandReader} {stop : EndMark} {fuel : Nat}
  {c last : Cursor}

theorem derives_readRun (hoperand : operand.Derives names) {run : OperatorRun} {afterNumber : Bool}
    (h : readRun operand stop fuel afterNumber c = .ok (run, last)) :
    ∃ text, c.rest = text ++ last.rest ∧ stop.At last.rest ∧ IsRun names text run.unplaced := by
  induction fuel generalizing afterNumber c run with
  | zero => cases h
  | succ fuel ih =>
      obtain ⟨before, hbefore, hrest⟩ := c.exists_blanks
      simp only [readRun] at h
      split at h
      · rename_i hsees
        cases h
        exact ⟨before, hrest, Cursor.at_of_sees hsees, .nil hbefore⟩
      · split at h
        · cases h
        · rename_i op past hpast
          obtain ⟨⟨right, behind⟩, hright, h⟩ := bind_eq_ok_iff.mp h
          obtain ⟨⟨more, last'⟩, hmore, h⟩ := bind_eq_ok_iff.mp h
          cases h
          have hoperator := Cursor.eat?_of_eatFirst? hpast
          have hsymbol := Cursor.rest_of_eat?_literal hoperator
          obtain ⟨blanks, hblanks, hpastRest⟩ := past.exists_blanks
          obtain ⟨text, htext, hderived⟩ := hoperand _ _ _ hright
          obtain ⟨moreText, hmoreText, hat, hrun⟩ := ih hmore
          refine ⟨before ++ (op.symbol.toList ++ (blanks ++ (text ++ moreText))), ?_, hat,
            .cons hbefore hblanks hderived hrun⟩
          rw [hrest, hsymbol, hpastRest, htext, hmoreText]
          simp

theorem derives_readEquationWith (hoperand : operand.Derives names) :
    EquationReader.Derives (readEquationWith operand) names := by
  intro stop c e past h
  obtain ⟨⟨first, behind⟩, hfirst, h⟩ := bind_eq_ok_iff.mp h
  obtain ⟨⟨run, last⟩, hrun, h⟩ := bind_eq_ok_iff.mp h
  cases h
  obtain ⟨blanks, hblanks, hrest⟩ := c.exists_blanks
  obtain ⟨text, htext, hderived⟩ := hoperand _ _ _ hfirst
  obtain ⟨more, hmore, hat, hderivedRun⟩ := derives_readRun hoperand hrun
  refine ⟨blanks ++ (text ++ more), ?_, hat,
    .mk hblanks hderived hderivedRun (grouping_shape first run)⟩
  rw [hrest, htext, hmore]
  simp

end Runs

section Names

variable {names : Names} {equation : EquationReader} {c past : Cursor}

theorem derives_readSlotRef (hequation : equation.Derives names) {ident : Ident} {slot : SlotRef}
    (h : readSlotRef equation ident c = .ok (slot, past)) :
    ∃ text offset?, c.rest = text ++ past.rest ∧ IsOffset names text offset? ∧
      slot.unplaced = ⟨ident.unplaced, offset?, .nowhere⟩ := by
  unfold readSlotRef at h
  split at h
  · cases h
    exact ⟨[], none, rfl, .none, rfl⟩
  · rename_i opened hopened
    obtain ⟨⟨offset, last⟩, hoffset, h⟩ := bind_eq_ok_iff.mp h
    obtain ⟨closed, hclosed, h⟩ := bind_eq_ok_iff.mp h
    cases h
    obtain ⟨text, htext, -, hderived⟩ := hequation _ _ _ _ hoffset
    refine ⟨'[' :: (text ++ [']']), some offset.unplaced, ?_, .some hderived, rfl⟩
    rw [Cursor.rest_of_eat?_literal hopened, htext, Cursor.rest_of_expect hclosed]
    simp

/-- In front of an equation, any number of blanks can stand. -/
theorem Grammar.IsEquation.blanks_append {blanks text : List Char} {e : Expr}
    (h : IsEquation names text e) (hblanks : IsBlanks blanks) :
    IsEquation names (blanks ++ text) e := by
  cases h with
  | @mk blanks' text more first e run hblanks' hfirst hrun hshape =>
      rw [← List.append_assoc]
      refine .mk (fun c hc => ?_) hfirst hrun hshape
      exact (List.mem_append.mp hc).elim (hblanks c) (hblanks' c)

theorem derives_readArgument (hequation : equation.Derives names) {callee : String} {arity : Nat}
    {argument? : Option Expr} (harity : arity = 0 ∨ arity = 1)
    (h : readArgument equation callee arity c = .ok (argument?, past)) :
    ∃ text, c.rest = text ++ past.rest ∧
      IsArgument names arity text (argument?.map Expr.unplaced) := by
  unfold readArgument at h
  split at h
  · cases h
  · rename_i opened hopened
    obtain ⟨blanks, hblanks, hopenedRest⟩ := opened.exists_blanks
    have hrest := Cursor.rest_of_eat?_literal hopened
    dsimp only at h
    split at h
    · rename_i closed hclosed
      split at h
      · cases h
      · rename_i hnone
        cases h
        obtain rfl := harity.resolve_right hnone
        refine ⟨'(' :: (blanks ++ [')']), ?_, .none hblanks⟩
        rw [hrest, hopenedRest, Cursor.rest_of_eat?_literal hclosed]
        simp
    · split at h
      · cases h
      · rename_i hone
        obtain ⟨⟨argument, last⟩, hargument, h⟩ := bind_eq_ok_iff.mp h
        obtain ⟨closed, hclosed, h⟩ := bind_eq_ok_iff.mp h
        cases h
        obtain rfl := harity.resolve_left hone
        obtain ⟨text, htext, -, hderived⟩ := hequation _ _ _ _ hargument
        refine ⟨'(' :: (blanks ++ text ++ [')']), ?_, .some (hderived.blanks_append hblanks)⟩
        rw [hrest, hopenedRest, htext, Cursor.rest_of_expect hclosed]
        simp

theorem derives_readMethod (hequation : equation.Derives names) {kind : ObjectKind}
    (object : Ident) {start : Nat} {e : Expr} (hrole : names.role object.name = .object kind)
    (hobject : isIdentifier object.name = true)
    (h : readMethod equation kind object start c = .ok (e, past)) :
    ∃ text, c.rest = text ++ past.rest ∧
      IsOperand names (object.name.toList ++ text) e.unplaced := by
  obtain ⟨dotted, hdotted, h⟩ := bind_eq_ok_iff.mp h
  split at h
  · cases h
  · rename_i named hnamed
    split at h
    · cases h
    · rename_i verb hverb
      obtain ⟨⟨argument?, closed⟩, hargument, h⟩ := bind_eq_ok_iff.mp h
      obtain ⟨text, htext, hderived⟩ :=
        derives_readArgument hequation verb.arity_eq_zero_or_one hargument
      have hmethod : names.HasMethod object.name verb :=
        ⟨kind, hrole, List.mem_of_find?_eq_some hverb⟩
      have hword : verb.name = named.word := by simpa using List.find?_some hverb
      have hoperand := IsOperand.method hobject hmethod hderived
      refine ⟨'.' :: (verb.name.toList ++ text), ?_, ?_⟩
      · have hclosed : closed = past := by cases argument? <;> cases h <;> rfl
        rw [Cursor.rest_of_expect hdotted, Cursor.rest_of_eat?_identifier hnamed, htext, hword,
          hclosed]
        simp
      · cases argument? <;> cases h <;> exact hoperand

theorem derives_readNamed (hequation : equation.Derives names) {start : Nat} {e : Expr}
    (hname : isIdentifier c.word = true) (h : readNamed names equation start c = .ok (e, past)) :
    ∃ text, c.rest = text ++ past.rest ∧ IsOperand names (c.word.toList ++ text) e.unplaced := by
  unfold readNamed at h
  dsimp only at h
  split at h
  · rename_i index hrole
    obtain ⟨⟨slot, behind⟩, hslot, h⟩ := bind_eq_ok_iff.mp h
    cases h
    obtain ⟨text, offset?, htext, hderived, hsame⟩ := derives_readSlotRef hequation hslot
    refine ⟨text, htext, ?_⟩
    rw [SlotRef.unplaced_toExpr, hsame, Ident.unplaced]
    exact .slot hname ⟨index, hrole⟩ hderived
  · rename_i kind hrole
    exact derives_readMethod hequation ⟨c.word, c.spanFrom start⟩ hrole hname h
  · rename_i function hrole
    obtain ⟨⟨argument?, closed⟩, hargument, h⟩ := bind_eq_ok_iff.mp h
    obtain ⟨text, htext, hderived⟩ :=
      derives_readArgument hequation function.arity_eq_zero_or_one hargument
    have hword : function.name = c.word := Names.name_of_role_builtin hrole
    have hoperand := IsOperand.call hderived
    rw [hword] at hoperand
    cases argument? <;> cases h <;> exact ⟨text, htext, hoperand⟩
  · cases h
  · cases h
  · cases h

end Names

/-- Operands of every depth have a derivation: what is read with more fuel contains only equations
    that were read with less. -/
theorem derives_readOperand (names : Names) (fuel : Nat) :
    OperandReader.Derives (readOperand names fuel) names := by
  induction fuel with
  | zero =>
      intro c e past h
      cases h
  | succ fuel ih =>
      intro c e past h
      have hequation := derives_readEquationWith ih
      simp only [readOperand] at h
      split at h
      · rename_i number hnumber
        obtain ⟨e', hread, h⟩ := bind_eq_ok_iff.mp h
        cases h
        simp only [readNumber] at hread
        split at hread
        · rename_i hrange
          cases hread
          exact ⟨past.matched, Cursor.rest_of_eat? hnumber,
            .number (Cursor.isInteger_of_eat? hnumber) hrange⟩
        · cases hread
      · rename_i hnumber
        split at h
        · rename_i op signed hsigned
          obtain ⟨⟨operand, behind⟩, hoperand, h⟩ := bind_eq_ok_iff.mp h
          cases h
          have hoperator := Cursor.eat?_of_eatFirst? hsigned
          have hsymbol := Cursor.rest_of_eat?_literal hoperator
          obtain ⟨blanks, hblanks, hrest⟩ := signed.exists_blanks
          obtain ⟨text, htext, hderived⟩ := ih _ _ _ hoperand
          refine ⟨op.symbol.toList ++ (blanks ++ text), ?_, .unary ?_ hblanks hderived⟩
          · rw [hsymbol, hrest, htext]
            simp
          · rintro rfl
            have hdigit : Stops Char.isDigit signed.rest :=
              Cursor.stops_of_eat?_integer hnumber hsymbol
            rw [hrest, htext] at hdigit
            obtain ⟨first, more, rfl, -⟩ := hderived.startsOperand
            cases blanks <;> exact hdigit
        · split at h
          · rename_i opened hopened
            obtain ⟨⟨inner, last⟩, hinner, h⟩ := bind_eq_ok_iff.mp h
            obtain ⟨closed, hclosed, h⟩ := bind_eq_ok_iff.mp h
            cases h
            obtain ⟨text, htext, -, hderived⟩ := hequation _ _ _ _ hinner
            refine ⟨'(' :: (text ++ [')']), ?_, ?_⟩
            · rw [Cursor.rest_of_eat?_literal hopened, htext, Cursor.rest_of_expect hclosed]
              simp
            · rw [Expr.unplaced_withSpan]
              exact .parentheses hderived
          · split at h
            · rename_i named hnamed
              obtain ⟨text, htext, hderived⟩ :=
                derives_readNamed hequation (Cursor.isIdentifier_of_eat? hnamed) h
              refine ⟨named.word.toList ++ text, ?_, hderived⟩
              rw [Cursor.rest_of_eat?_identifier hnamed, htext]
              simp
            · cases h

/-- Whatever is read as an equation is one, and its end mark follows it. -/
theorem derives_readEquation (names : Names) : EquationReader.Derives (readEquation names) names :=
  fun _ _ _ _ h => derives_readEquationWith (derives_readOperand names _) _ _ _ _ h

/-- A text is an equation exactly if it is read as one up to its end, and its tree is the one that
    is found. -/
theorem Grammar.isEquation_iff_reads {names : Names} {text : List Char} {e : Expr} :
    IsEquation names text e ↔
      ((readEquation names .endOfLine (Cursor.start 1 text)).map (·.1.unplaced)).toOption =
        some e := by
  constructor
  · intro h
    have hreads : Recovers (readEquation names .endOfLine (Cursor.start 1 text)) e [] :=
      accepts_readEquation h (List.append_nil text).symm rfl
    obtain ⟨found, past, hread, rfl, -⟩ := hreads
    rw [hread]
    rfl
  · intro h
    cases hread : readEquation names .endOfLine (Cursor.start 1 text) with
    | error finding =>
        rw [hread] at h
        cases h
    | ok result =>
        obtain ⟨found, past⟩ := result
        rw [hread] at h
        obtain rfl : found.unplaced = e := Option.some.inj h
        obtain ⟨taken, htext, hend, hderived⟩ := derives_readEquation names _ _ _ _ hread
        have hnil : past.rest = [] := List.head?_eq_none_iff.mp hend
        rw [hnil, List.append_nil] at htext
        obtain rfl : text = taken := htext
        exact hderived

instance (names : Names) (text : List Char) (e : Expr) : Decidable (IsEquation names text e) :=
  decidable_of_iff _ isEquation_iff_reads.symm

/-- The reader accepts exactly its grammar. It answers a tree, apart from places, and moves to the
    rest of the line if and only if the first end mark outside of brackets stands in front of this
    rest and the text up to there is an equation with this tree. -/
theorem readEquation_iff_isEquation (names : Names) (stop : EndMark) (c : Cursor) (e : Expr)
    (rest : List Char) :
    (∃ found past, readEquation names stop c = .ok (found, past) ∧ found.unplaced = e ∧
      past.lineNumber = c.lineNumber ∧ past.line = c.line ∧ past.rest = rest) ↔
      ∃ text, stop.cut? 0 c.rest = some (text, rest) ∧ IsEquation names text e := by
  constructor
  · rintro ⟨found, past, hread, rfl, -, -, rfl⟩
    obtain ⟨text, htext, hat, hderived⟩ := derives_readEquation names _ _ _ _ hread
    refine ⟨text, ?_, hderived⟩
    rw [htext]
    exact hderived.cut?_append hat
  · rintro ⟨text, hcut, hderived⟩
    obtain ⟨hrest, hat⟩ := EndMark.at_of_cut? hcut
    obtain ⟨found, past, hread, hfound, hpast⟩ := accepts_readEquation hderived hrest hat
    have hreaches := leads_readEquation names stop c
    rw [hread] at hreaches
    exact ⟨found, past, hread, hfound, hreaches.lineNumber, hreaches.line, hpast⟩

/-- An equation about a slot and a stack. It has one tree, and none where they are not declared. -/
example :
    let names : Names := { slots := [("a", 0)], objects := [("s", .stack)] }
    let text := "a[ -1] - s.pop()*2".toList
    let slot : Expr := .slotAt ⟨"a", .nowhere⟩ (.number (-1) .nowhere) .nowhere .nowhere
    let top : Expr := .method ⟨"s", .nowhere⟩ .pop .nowhere
    let two : Expr := .number 2 .nowhere
    let tree : Expr := .binary slot .subtract (.binary top .multiply two .nowhere) .nowhere
    let other : Expr := .binary (.binary slot .subtract top .nowhere) .multiply two .nowhere
    IsEquation names text tree ∧ ¬IsEquation names text other ∧
      ¬IsEquation { names with slots := [] } text tree ∧
      ¬IsEquation { names with objects := [] } text tree := by
  decide +kernel

end TapePuzzle
