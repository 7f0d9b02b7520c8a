import TapePuzzle.Language.Expr

/-!
# Statements

A statement fills one line. Blocks are not part of a statement: a program keeps them as the depth
of its lines.
-/

namespace TapePuzzle

/-- What a statement does. -/
inductive Action where
  | assign (target : SlotRef) (value : Expr)
  /-- Evaluates an equation for its effects. -/
  | evaluate (equation : Expr)
  | ifTrue (condition : Expr)
  | otherwise
  | whileTrue (condition : Expr)
  | jump (label : Ident)
  deriving DecidableEq, Repr

/-- A statement where it stands. -/
structure Statement where
  action : Action
  span : Span
  deriving DecidableEq, Repr

/-- The kind of block whose header the statement is. -/
def Statement.opens? (s : Statement) : Option BlockKind :=
  match s.action with
  | .ifTrue _ => some .ifBlock
  | .whileTrue _ => some .whileBlock
  | .otherwise => some .elseBlock
  | .assign _ _ | .evaluate _ | .jump _ => none

end TapePuzzle
