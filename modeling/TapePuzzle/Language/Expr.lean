import TapePuzzle.Language.Operator
import TapePuzzle.Language.Vocabulary
import TapePuzzle.Text.Span

/-!
# Equations

The tree of an equation. Every node knows where it stands in the program text; parentheses leave no
node of their own and only widen the span of what they enclose.
-/

namespace TapePuzzle

/-- A name where it is used. -/
structure Ident where
  name : String
  span : Span
  deriving DecidableEq, Repr

/-- An equation. -/
inductive Expr where
  | number (value : Int) (span : Span)
  /-- A slot by its name; `reference` leaves out the parentheses that `span` may include. -/
  | slot (name : Ident) (reference span : Span)
  /-- The slot `offset` places after the one named. -/
  | slotAt (name : Ident) (offset : Expr) (reference span : Span)
  | call (function : Builtin) (span : Span)
  | callWith (function : Builtin) (argument : Expr) (span : Span)
  | method (object : Ident) (method : Method) (span : Span)
  | methodWith (object : Ident) (method : Method) (argument : Expr) (span : Span)
  | binary (left : Expr) (op : BinaryOp) (right : Expr) (span : Span)
  | unary (op : UnaryOp) (operand : Expr) (span : Span)
  deriving DecidableEq, Repr

namespace Expr

def span : Expr → Span
  | number _ s => s
  | slot _ _ s => s
  | slotAt _ _ _ s => s
  | call _ s => s
  | callWith _ _ s => s
  | method _ _ s => s
  | methodWith _ _ _ s => s
  | binary _ _ _ s => s
  | unary _ _ s => s

/-- The same equation with another span at its root. -/
def withSpan (s : Span) : Expr → Expr
  | number v _ => number v s
  | slot n r _ => slot n r s
  | slotAt n o r _ => slotAt n o r s
  | call f _ => call f s
  | callWith f a _ => callWith f a s
  | method o m _ => method o m s
  | methodWith o m a _ => methodWith o m a s
  | binary l op r _ => binary l op r s
  | unary op e _ => unary op e s

@[simp] theorem span_withSpan (s : Span) (e : Expr) : (e.withSpan s).span = s := by
  cases e <;> rfl

def isNumber : Expr → Bool
  | number _ _ => true
  | _ => false

end Expr

/-- A slot as the target of an assignment. -/
structure SlotRef where
  name : Ident
  offset : Option Expr
  span : Span
  deriving DecidableEq, Repr

/-- The equation that reads the slot, with span `s`. -/
def SlotRef.toExpr (slot : SlotRef) (s : Span) : Expr :=
  match slot.offset with
  | none => .slot slot.name slot.span s
  | some offset => .slotAt slot.name offset slot.span s

end TapePuzzle
