import TapePuzzle.Reading.Equation

/-!
# What reading an equation guarantees

`Expr.WellFormed` says that an equation makes sense over a table of names: its numbers are values,
every slot and object it mentions is declared as such, every method is one that the kind of its
object has, and every call has the arguments that it takes. Main statement: whatever the reader of
equations accepts is well formed.
-/

namespace TapePuzzle

/-- A computation in two parts succeeds exactly if both parts do. -/
theorem bind_eq_ok_iff {ε α β : Type} {first : Except ε α} {next : α → Except ε β} {result : β} :
    (first >>= next) = .ok result ↔ ∃ value, first = .ok value ∧ next value = .ok result := by
  cases first with
  | error reason => simp [bind, Except.bind]
  | ok value => simp [bind, Except.bind]

namespace Names

/-- The name stands for a slot. -/
def HasSlot (names : Names) (name : String) : Prop := ∃ index, names.role name = .slot index

/-- The name stands for an object of a kind that has the method. -/
def HasMethod (names : Names) (name : String) (method : Method) : Prop :=
  ∃ kind, names.role name = .object kind ∧ method ∈ kind.methods

/-- The name stands for a label. -/
def HasLabel (names : Names) (name : String) : Prop := ∃ line, names.role name = .label line

end Names

/-- An equation that makes sense over the given names. -/
def Expr.WellFormed (names : Names) : Expr → Prop
  | .number value _ => inRange value = true
  | .slot name _ _ => names.HasSlot name.name
  | .slotAt name offset _ _ => names.HasSlot name.name ∧ offset.WellFormed names
  | .call function _ => function.arity = 0
  | .callWith function argument _ => function.arity = 1 ∧ argument.WellFormed names
  | .method object verb _ => names.HasMethod object.name verb ∧ verb.arity = 0
  | .methodWith object verb argument _ =>
      names.HasMethod object.name verb ∧ verb.arity = 1 ∧ argument.WellFormed names
  | .binary left _ right _ => left.WellFormed names ∧ right.WellFormed names
  | .unary _ operand _ => operand.WellFormed names

/-- A slot reference that makes sense over the given names. -/
def SlotRef.WellFormed (names : Names) (slot : SlotRef) : Prop :=
  names.HasSlot slot.name.name ∧ ∀ offset ∈ slot.offset, offset.WellFormed names

@[simp] theorem Expr.wellFormed_withSpan {names : Names} (s : Span) (e : Expr) :
    (e.withSpan s).WellFormed names ↔ e.WellFormed names := by
  cases e <;> rfl

theorem SlotRef.wellFormed_toExpr {names : Names} {slot : SlotRef}
    (hslot : slot.WellFormed names) (s : Span) : (slot.toExpr s).WellFormed names := by
  obtain ⟨name, offset, span⟩ := slot
  cases offset with
  | none => exact hslot.1
  | some offset => exact ⟨hslot.1, hslot.2 offset rfl⟩

theorem Builtin.arity_eq_zero_or_one (function : Builtin) :
    function.arity = 0 ∨ function.arity = 1 := by
  cases function <;> decide

theorem Method.arity_eq_zero_or_one (method : Method) : method.arity = 0 ∨ method.arity = 1 := by
  cases method <;> decide

/-! ## Operator runs -/

/-- All right operands of a run make sense. -/
def RunWellFormed (names : Names) (run : OperatorRun) : Prop :=
  ∀ entry ∈ run, entry.2.WellFormed names

theorem RunWellFormed.split {names : Names} {run before behind : OperatorRun}
    {weakest : BinaryOp × Expr} (hrun : RunWellFormed names run)
    (hsplit : splitWeakest? run = some (before, weakest, behind)) :
    RunWellFormed names before ∧ weakest.2.WellFormed names ∧ RunWellFormed names behind := by
  have happend := append_of_splitWeakest? hsplit
  subst happend
  refine ⟨?_, ?_, ?_⟩
  · intro entry hentry
    exact hrun entry (List.mem_append_left _ hentry)
  · exact hrun weakest (by simp)
  · intro entry hentry
    exact hrun entry (by simp [hentry])

theorem wellFormed_shapeWithin {names : Names} (size : Nat) {first : Expr} {run : OperatorRun}
    (hfirst : first.WellFormed names) (hrun : RunWellFormed names run) :
    (shapeWithin size first run).WellFormed names := by
  induction size generalizing first run with
  | zero => exact hfirst
  | succ size ih =>
      unfold shapeWithin
      split
      · exact hfirst
      · rename_i before op operand behind hsplit
        obtain ⟨hbefore, hoperand, hbehind⟩ := hrun.split hsplit
        exact ⟨ih hfirst hbefore, ih hoperand hbehind⟩

/-! ## Readers -/

/-- The reader accepts only operands that make sense. -/
def OperandSound (names : Names) (operand : OperandReader) : Prop :=
  ∀ c e past, operand c = .ok (e, past) → e.WellFormed names

/-- The reader accepts only equations that make sense. -/
def EquationSound (names : Names) (equation : EquationReader) : Prop :=
  ∀ stop c e past, equation stop c = .ok (e, past) → e.WellFormed names

theorem wellFormed_of_readNumber {names : Names} {start : Nat} {c : Cursor} {e : Expr}
    (h : readNumber start c = .ok e) : e.WellFormed names := by
  simp only [readNumber] at h
  split at h
  · rename_i hrange
    cases h
    exact hrange
  · cases h

theorem wellFormed_of_readRun {names : Names} {operand : OperandReader}
    (hoperand : OperandSound names operand) {stop : EndMark} {fuel : Nat} {afterNumber : Bool}
    {c last : Cursor} {run : OperatorRun}
    (h : readRun operand stop fuel afterNumber c = .ok (run, last)) :
    RunWellFormed names run := by
  induction fuel generalizing afterNumber c run with
  | zero => cases h
  | succ fuel ih =>
      simp only [readRun] at h
      split at h
      · cases h
        intro entry hentry
        cases hentry
      · split at h
        · cases h
        · obtain ⟨⟨right, behind⟩, hright, h⟩ := bind_eq_ok_iff.mp h
          obtain ⟨⟨more, last'⟩, hmore, h⟩ := bind_eq_ok_iff.mp h
          cases h
          intro entry hentry
          rcases List.mem_cons.mp hentry with rfl | hentry
          · exact hoperand _ _ _ hright
          · exact ih hmore entry hentry

theorem equationSound_readEquationWith {names : Names} {operand : OperandReader}
    (hoperand : OperandSound names operand) :
    EquationSound names (readEquationWith operand) := by
  intro stop c e past h
  obtain ⟨⟨first, behind⟩, hfirst, h⟩ := bind_eq_ok_iff.mp h
  obtain ⟨⟨run, last⟩, hrun, h⟩ := bind_eq_ok_iff.mp h
  cases h
  exact wellFormed_shapeWithin _ (hoperand _ _ _ hfirst) (wellFormed_of_readRun hoperand hrun)

theorem wellFormed_of_readSlotRef {names : Names} {equation : EquationReader}
    (hequation : EquationSound names equation) {name : Ident} {c past : Cursor} {slot : SlotRef}
    (hname : names.HasSlot name.name) (h : readSlotRef equation name c = .ok (slot, past)) :
    slot.WellFormed names := by
  unfold readSlotRef at h
  split at h
  · cases h
    exact ⟨hname, by simp⟩
  · obtain ⟨⟨offset, last⟩, hoffset, h⟩ := bind_eq_ok_iff.mp h
    obtain ⟨closed, -, h⟩ := bind_eq_ok_iff.mp h
    cases h
    refine ⟨hname, ?_⟩
    intro offset' hmem
    cases hmem
    exact hequation _ _ _ _ hoffset

/-- An argument is read only for a callee that takes one, and left out only for one that takes
    none. -/
theorem argument_of_readArgument {names : Names} {equation : EquationReader}
    (hequation : EquationSound names equation) {callee : String} {arity : Nat} {c past : Cursor}
    {argument? : Option Expr} (h : readArgument equation callee arity c = .ok (argument?, past)) :
    match argument? with
    | none => arity ≠ 1
    | some argument => arity ≠ 0 ∧ argument.WellFormed names := by
  unfold readArgument at h
  split at h
  · cases h
  · dsimp only at h
    split at h
    · split at h
      · cases h
      · rename_i harity
        cases h
        exact harity
    · split at h
      · cases h
      · rename_i harity
        obtain ⟨⟨argument, last⟩, hargument, h⟩ := bind_eq_ok_iff.mp h
        obtain ⟨closed, -, h⟩ := bind_eq_ok_iff.mp h
        cases h
        exact ⟨harity, hequation _ _ _ _ hargument⟩

theorem wellFormed_of_readMethod {names : Names} {equation : EquationReader}
    (hequation : EquationSound names equation) {kind : ObjectKind} {object : Ident} {start : Nat}
    {c past : Cursor} {e : Expr} (hobject : names.role object.name = .object kind)
    (h : readMethod equation kind object start c = .ok (e, past)) : e.WellFormed names := by
  obtain ⟨dotted, -, h⟩ := bind_eq_ok_iff.mp h
  split at h
  · cases h
  · split at h
    · cases h
    · rename_i named _ method hmethod
      have hhas : names.HasMethod object.name method :=
        ⟨kind, hobject, List.mem_of_find?_eq_some hmethod⟩
      obtain ⟨⟨argument?, closed⟩, hargument, h⟩ := bind_eq_ok_iff.mp h
      have hargument := argument_of_readArgument hequation hargument
      have harity := method.arity_eq_zero_or_one
      cases argument? with
      | none =>
          cases h
          exact ⟨hhas, harity.resolve_right hargument⟩
      | some argument =>
          cases h
          exact ⟨hhas, harity.resolve_left hargument.1, hargument.2⟩

theorem wellFormed_of_readNamed {names : Names} {equation : EquationReader}
    (hequation : EquationSound names equation) {start : Nat} {c past : Cursor} {e : Expr}
    (h : readNamed names equation start c = .ok (e, past)) : e.WellFormed names := by
  unfold readNamed at h
  dsimp only at h
  split at h
  · rename_i index hrole
    obtain ⟨⟨slot, behind⟩, hslot, h⟩ := bind_eq_ok_iff.mp h
    cases h
    exact SlotRef.wellFormed_toExpr (wellFormed_of_readSlotRef hequation ⟨index, hrole⟩ hslot) _
  · rename_i kind hrole
    exact wellFormed_of_readMethod hequation hrole h
  · rename_i function hrole
    obtain ⟨⟨argument?, closed⟩, hargument, h⟩ := bind_eq_ok_iff.mp h
    have hargument := argument_of_readArgument hequation hargument
    have harity := function.arity_eq_zero_or_one
    cases argument? with
    | none =>
        cases h
        exact harity.resolve_right hargument
    | some argument =>
        cases h
        exact ⟨harity.resolve_left hargument.1, hargument.2⟩
  · cases h
  · cases h
  · cases h

/-- Operands of every depth make sense: what is read with more fuel contains only equations that
    were read with less. -/
theorem operandSound_readOperand (names : Names) (fuel : Nat) :
    OperandSound names (readOperand names fuel) := by
  induction fuel with
  | zero =>
      intro c e past h
      cases h
  | succ fuel ih =>
      intro c e past h
      have hequation := equationSound_readEquationWith ih
      simp only [readOperand] at h
      split at h
      · obtain ⟨number, hnumber, h⟩ := bind_eq_ok_iff.mp h
        cases h
        exact wellFormed_of_readNumber hnumber
      · split at h
        · obtain ⟨⟨operand, behind⟩, hoperand, h⟩ := bind_eq_ok_iff.mp h
          cases h
          have hwell := ih _ _ _ hoperand
          exact hwell
        · split at h
          · obtain ⟨⟨inner, last⟩, hinner, h⟩ := bind_eq_ok_iff.mp h
            obtain ⟨closed, -, h⟩ := bind_eq_ok_iff.mp h
            cases h
            exact (Expr.wellFormed_withSpan _ _).mpr (hequation _ _ _ _ hinner)
          · split at h
            · exact wellFormed_of_readNamed hequation h
            · cases h

/-- Whatever the reader of equations accepts is well formed. -/
theorem equationSound_readEquation (names : Names) : EquationSound names (readEquation names) := by
  intro stop c e past h
  exact equationSound_readEquationWith (operandSound_readOperand names _) _ _ _ _ h

end TapePuzzle
