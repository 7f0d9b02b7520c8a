import TapePuzzle.Language.Program
import TapePuzzle.Reading.Equation

/-!
# Operator runs as trees

A run of operators has one tree in which operators of a higher precedence take their operands first
and operators of the same precedence group to the left. `Grouping` says which tree this is, without
looking for the operator at its root. Main statement: `shape` finds the tree, apart from places.
-/

namespace TapePuzzle

/-! ## Trees without places -/

/-- The span of what stands in no text. -/
def Span.nowhere : Span := ⟨0, 0, 0⟩

def Ident.unplaced (ident : Ident) : Ident := ⟨ident.name, .nowhere⟩

/-- The equation without the places of its parts. -/
def Expr.unplaced : Expr → Expr
  | number value _ => number value .nowhere
  | slot name _ _ => slot name.unplaced .nowhere .nowhere
  | slotAt name offset _ _ => slotAt name.unplaced offset.unplaced .nowhere .nowhere
  | call function _ => call function .nowhere
  | callWith function argument _ => callWith function argument.unplaced .nowhere
  | method object verb _ => method object.unplaced verb .nowhere
  | methodWith object verb argument _ =>
      methodWith object.unplaced verb argument.unplaced .nowhere
  | binary left op right _ => binary left.unplaced op right.unplaced .nowhere
  | unary op operand _ => unary op operand.unplaced .nowhere

@[simp] theorem Expr.unplaced_withSpan (s : Span) (e : Expr) :
    (e.withSpan s).unplaced = e.unplaced := by
  cases e <;> rfl

/-- The slot without its place. -/
def SlotRef.unplaced (slot : SlotRef) : SlotRef :=
  ⟨slot.name.unplaced, slot.offset.map Expr.unplaced, .nowhere⟩

theorem SlotRef.unplaced_toExpr (slot : SlotRef) (s : Span) :
    (slot.toExpr s).unplaced = slot.unplaced.toExpr .nowhere := by
  obtain ⟨name, offset?, span⟩ := slot
  cases offset? <;> rfl

/-- The run without the places of its operands. -/
def OperatorRun.unplaced (run : OperatorRun) : OperatorRun :=
  run.map fun entry => (entry.1, entry.2.unplaced)

/-- What a statement does, without places. -/
def Action.unplaced : Action → Action
  | assign target value => assign target.unplaced value.unplaced
  | evaluate equation => evaluate equation.unplaced
  | ifTrue condition => ifTrue condition.unplaced
  | otherwise => otherwise
  | whileTrue condition => whileTrue condition.unplaced
  | jump label => jump label.unplaced

/-- The line without the place of its statement. -/
def Line.unplaced : Line → Line
  | silent => silent
  | code depth statement => code depth ⟨statement.action.unplaced, .nowhere⟩

/-! ## Precedence -/

/-- The tree of a run all of whose operators have at least the precedence `least`. To the left of
    the root stand operators that bind as tightly as the root or more tightly, and to the right only
    operators that bind more tightly. -/
inductive Grouping : (least : Nat) → (first : Expr) → OperatorRun → Expr → Prop where
  | operand (least : Nat) (e : Expr) : Grouping least e [] e
  | binary {least : Nat} {op : BinaryOp} {first operand left right : Expr}
      {before behind : OperatorRun} (hop : least ≤ op.precedence)
      (hleft : Grouping op.precedence first before left)
      (hright : Grouping (op.precedence + 1) operand behind right) :
      Grouping least first (before ++ (op, operand) :: behind) (.binary left op right .nowhere)

namespace Grouping

variable {least most : Nat} {first e e' : Expr} {run : OperatorRun}

theorem least_le (h : Grouping least first run e) : ∀ entry ∈ run, least ≤ entry.1.precedence := by
  induction h with
  | operand least e => simp
  | binary hop hleft hright ihLeft ihRight =>
      intro entry hentry
      rcases List.mem_append.mp hentry with hbefore | hbehind
      · exact Nat.le_trans hop (ihLeft entry hbefore)
      · rcases List.mem_cons.mp hbehind with rfl | hbehind
        · exact hop
        · have hright := ihRight entry hbehind
          omega

/-- A run has at most one cut that can be the root: of two, the left one would bind less tightly
    than the right one, and the right one not more tightly than the left one. -/
theorem cut_unique {before behind before' behind' : OperatorRun} {root root' : BinaryOp × Expr}
    (hcut : before ++ root :: behind = before' ++ root' :: behind')
    (hbefore : ∀ entry ∈ before, root.1.precedence ≤ entry.1.precedence)
    (hbehind : ∀ entry ∈ behind, root.1.precedence < entry.1.precedence)
    (hbefore' : ∀ entry ∈ before', root'.1.precedence ≤ entry.1.precedence)
    (hbehind' : ∀ entry ∈ behind', root'.1.precedence < entry.1.precedence) :
    before = before' ∧ root = root' ∧ behind = behind' := by
  rcases List.append_eq_append_iff.mp hcut with ⟨between, hfront, hback⟩ | ⟨between, hfront, hback⟩
  · cases between with
    | nil => simp_all
    | cons entry between =>
        obtain ⟨rfl, hbetween⟩ := List.cons.inj hback
        have hle := hbefore' root (by simp [hfront])
        have hlt := hbehind root' (by simp [hbetween])
        omega
  · cases between with
    | nil => simp_all
    | cons entry between =>
        obtain ⟨rfl, hbetween⟩ := List.cons.inj hback
        have hle := hbefore root' (by simp [hfront])
        have hlt := hbehind' root (by simp [hbetween])
        omega

/-- A run has one tree. -/
theorem unique (h : Grouping least first run e) (h' : Grouping most first run e') : e = e' := by
  induction h generalizing most e' with
  | operand least e =>
      generalize hrun : ([] : OperatorRun) = run at h'
      cases h' with
      | operand => rfl
      | binary => simp at hrun
  | binary hop hleft hright ihLeft ihRight =>
      rename_i first operand left right before behind
      generalize hrun : before ++ _ :: behind = run at h'
      cases h' with
      | operand => simp at hrun
      | binary hop' hleft' hright' =>
          obtain ⟨rfl, heq, rfl⟩ := cut_unique hrun hleft.least_le hright.least_le hleft'.least_le
            hright'.least_le
          cases heq
          rw [ihLeft hleft', ihRight hright']

end Grouping

/-! ## The shape of a run -/

theorem splitWeakest?_cons (entry : BinaryOp × Expr) (run : OperatorRun) :
    ∃ before weakest behind, splitWeakest? (entry :: run) = some (before, weakest, behind) := by
  unfold splitWeakest?
  split
  · exact ⟨_, _, _, rfl⟩
  · split
    · exact ⟨_, _, _, rfl⟩
    · exact ⟨_, _, _, rfl⟩

/-- The weakest operator is found at its last place. -/
theorem precedence_of_splitWeakest? {run before behind : OperatorRun} {weakest : BinaryOp × Expr}
    (h : splitWeakest? run = some (before, weakest, behind)) :
    (∀ entry ∈ before, weakest.1.precedence ≤ entry.1.precedence) ∧
      ∀ entry ∈ behind, weakest.1.precedence < entry.1.precedence := by
  induction run generalizing before weakest behind with
  | nil => cases h
  | cons first run ih =>
      unfold splitWeakest? at h
      split at h
      · cases h
        simp
      · rename_i before' weakest' behind' hsplit
        obtain ⟨hbefore, hbehind⟩ := ih hsplit
        split at h
        · rename_i hle
          cases h
          exact ⟨List.forall_mem_cons.mpr ⟨hle, hbefore⟩, hbehind⟩
        · rename_i hlt
          cases h
          refine ⟨by simp, ?_⟩
          rw [← append_of_splitWeakest? hsplit]
          intro entry hentry
          rcases List.mem_append.mp hentry with hentry | hentry
          · have hle := hbefore entry hentry
            omega
          · rcases List.mem_cons.mp hentry with rfl | hentry
            · omega
            · have hle := hbehind entry hentry
              omega

theorem grouping_shapeWithin {size least : Nat} {first : Expr} {run : OperatorRun}
    (hsize : run.length ≤ size) (hleast : ∀ entry ∈ run, least ≤ entry.1.precedence) :
    Grouping least first.unplaced run.unplaced (shapeWithin size first run).unplaced := by
  induction size generalizing least first run with
  | zero =>
      obtain rfl := List.length_eq_zero_iff.mp (Nat.le_zero.mp hsize)
      exact .operand least first.unplaced
  | succ size ih =>
      cases run with
      | nil => exact .operand least first.unplaced
      | cons entry run =>
          obtain ⟨before, ⟨op, operand⟩, behind, hsplit⟩ := splitWeakest?_cons entry run
          obtain ⟨hbefore, hbehind⟩ := precedence_of_splitWeakest? hsplit
          have happend := append_of_splitWeakest? hsplit
          rw [shapeWithin, hsplit]
          rw [← happend] at hsize hleast ⊢
          simp only [List.length_append, List.length_cons] at hsize
          have hleft : Grouping op.precedence first.unplaced before.unplaced
              (shapeWithin size first before).unplaced := ih (by omega) hbefore
          have hright : Grouping (op.precedence + 1) operand.unplaced behind.unplaced
              (shapeWithin size operand behind).unplaced := ih (by omega) hbehind
          have hop : least ≤ op.precedence := hleast (op, operand) (by simp)
          simpa [OperatorRun.unplaced, Expr.unplaced] using Grouping.binary hop hleft hright

/-- The shape of a run is its tree. -/
theorem grouping_shape (first : Expr) (run : OperatorRun) :
    Grouping 0 first.unplaced run.unplaced (shape first run).unplaced :=
  grouping_shapeWithin (Nat.le_refl _) fun _ _ => Nat.zero_le _

end TapePuzzle
