import TapePuzzle.Diagnosis.Issue
import TapePuzzle.Language.Expr
import TapePuzzle.Names
import TapePuzzle.Text.Cursor
import TapePuzzle.Text.Decimal

/-!
# Reading equations

An equation is a first operand and a run of operators, each with its right operand. The run is read
from left to right and then shaped into a tree by precedence. Operands nest, so reading an operand
takes the reader of the equations inside it; the nesting is never deeper than the line is long.
-/

namespace TapePuzzle

/-- A result, or what is wrong instead and where. -/
abbrev Checked := Except Finding

/-- Reads an operand at the cursor and moves past it. -/
abbrev OperandReader := Cursor → Checked (Expr × Cursor)

/-- Reads an equation at the cursor and moves to its end mark. -/
abbrev EquationReader := EndMark → Cursor → Checked (Expr × Cursor)

/-- Refuses the line at the position of the cursor. -/
def Cursor.refuse {α : Type} (c : Cursor) (issue : Issue) : Checked α :=
  .error ⟨issue, c.here⟩

/-- Moves past `wanted`, which has to stand at the cursor. -/
def Cursor.expect (wanted : String) (c : Cursor) : Checked Cursor :=
  match c.eat? (.literal wanted) with
  | some past => .ok past
  | none => c.refuse (.expectedLiteral wanted c.rest.head?)

def EndMark.pattern : EndMark → Pattern
  | endOfLine => .endOfLine
  | closeParen => .literal ")"
  | closeBracket => .literal "]"

/-- Operators of an equation, each with the operand to its right. -/
abbrev OperatorRun := List (BinaryOp × Expr)

/-- Splits a run at the last of its weakest operators. -/
def splitWeakest? : OperatorRun → Option (OperatorRun × (BinaryOp × Expr) × OperatorRun)
  | [] => none
  | entry :: run =>
      match splitWeakest? run with
      | none => some ([], entry, [])
      | some (before, weakest, behind) =>
          if weakest.1.precedence ≤ entry.1.precedence then some (entry :: before, weakest, behind)
          else some ([], entry, run)

theorem append_of_splitWeakest? {run before behind : OperatorRun} {weakest : BinaryOp × Expr}
    (h : splitWeakest? run = some (before, weakest, behind)) :
    before ++ weakest :: behind = run := by
  induction run generalizing before weakest behind with
  | nil => cases h
  | cons entry run ih =>
      unfold splitWeakest? at h
      split at h
      · rename_i hnone
        cases h
        cases run with
        | nil => rfl
        | cons entry' run' =>
            unfold splitWeakest? at hnone
            split at hnone
            · cases hnone
            · split at hnone <;> cases hnone
      · rename_i before' weakest' behind' hsome
        split at h
        · cases h
          rw [List.cons_append, ih hsome]
        · cases h
          rfl

/-- The tree of an equation whose run has at most `size` operators: the last of the weakest
    operators is the root, so that equal operators group to the left. -/
def shapeWithin : (size : Nat) → (first : Expr) → OperatorRun → Expr
  | 0, first, _ => first
  | size + 1, first, run =>
      match splitWeakest? run with
      | none => first
      | some (before, (op, operand), behind) =>
          let left := shapeWithin size first before
          let right := shapeWithin size operand behind
          .binary left op right (left.span.merge right.span)

/-- The tree of an equation. -/
def shape (first : Expr) (run : OperatorRun) : Expr := shapeWithin run.length first run

/-- A number, whose text is the latest match and starts at byte `start`. -/
def readNumber (start : Nat) (c : Cursor) : Checked Expr :=
  let value := readInteger c.matched
  if inRange value then .ok (.number value (c.spanFrom start))
  else .error ⟨.numberOutOfRange c.word, c.spanFrom start⟩

/-- What is wrong where neither an operator nor the end mark stands. -/
def operatorIssue (stop : EndMark) (afterNumber : Bool) (c : Cursor) : Issue :=
  if afterNumber && c.rest.head?.any Char.isDigit then .missingOperator
  else .expectedOperator stop c.rest.head?

/-- Reads operators and their right operands up to the end mark. Every operator takes at least one
    character, so `fuel` is more than enough if it is more than the characters left. -/
def readRun (operand : OperandReader) (stop : EndMark) :
    (fuel : Nat) → (afterNumber : Bool) → Cursor → Checked (OperatorRun × Cursor)
  | 0, afterNumber, c => c.refuse (operatorIssue stop afterNumber c)
  | fuel + 1, afterNumber, c =>
      let c := c.skipBlanks
      if c.sees stop.pattern then .ok ([], c)
      else
        match c.eatFirst? (fun op : BinaryOp => .literal op.symbol) BinaryOp.all with
        | none => c.refuse (operatorIssue stop afterNumber c)
        | some (op, past) => do
            let (right, behind) ← operand past.skipBlanks
            let (run, last) ← readRun operand stop fuel right.isNumber behind
            .ok ((op, right) :: run, last)

/-- Reads an equation up to its end mark, which is left standing. -/
def readEquationWith (operand : OperandReader) (stop : EndMark) (c : Cursor) :
    Checked (Expr × Cursor) := do
  let (first, behind) ← operand c.skipBlanks
  let (run, last) ← readRun operand stop (behind.rest.length + 1) first.isNumber behind
  .ok (shape first run, last)

/-- Reads the offset that may follow the name of a slot. -/
def readSlotRef (equation : EquationReader) (name : Ident) (c : Cursor) :
    Checked (SlotRef × Cursor) :=
  match c.eat? (.literal "[") with
  | none => .ok (⟨name, none, ⟨name.span.line, name.span.startColumn, c.column⟩⟩, c)
  | some opened => do
      let (offset, last) ← equation .closeBracket opened
      let closed ← last.expect "]"
      .ok (⟨name, some offset, ⟨name.span.line, name.span.startColumn, closed.column⟩⟩, closed)

/-- Reads the argument of a call in its parentheses. Whether there has to be one depends on the
    arity of what is called. -/
def readArgument (equation : EquationReader) (callee : String) (arity : Nat) (c : Cursor) :
    Checked (Option Expr × Cursor) :=
  match c.eat? (.literal "(") with
  | none => c.refuse (.expectedParen callee)
  | some opened =>
      let inner := opened.skipBlanks
      match inner.eat? (.literal ")") with
      | some closed =>
          if arity = 1 then .error ⟨.missingArgument callee, closed.spanFrom inner.offset⟩
          else .ok (none, closed)
      | none =>
          if arity = 0 then inner.refuse (.surplusArgument callee)
          else do
            let (argument, last) ← equation .closeParen inner
            let closed ← last.expect ")"
            .ok (some argument, closed)

/-- Reads the method call that follows the name of an object. -/
def readMethod (equation : EquationReader) (kind : ObjectKind) (object : Ident) (start : Nat)
    (c : Cursor) : Checked (Expr × Cursor) := do
  let dotted ← c.expect "."
  match dotted.eat? .identifier with
  | none => dotted.refuse (.expectedMethodName object.name)
  | some named =>
      match kind.method? named.word with
      | none =>
          .error ⟨.unknownMethod kind object.name named.word, named.spanFrom dotted.offset⟩
      | some method => do
          let (argument?, closed) ← readArgument equation method.name method.arity named
          let span := closed.spanFrom start
          match argument? with
          | none => .ok (.method object method span, closed)
          | some argument => .ok (.methodWith object method argument span, closed)

/-- Reads an operand that starts with a name. The name is the latest match and starts at byte
    `start`. -/
def readNamed (names : Names) (equation : EquationReader) (start : Nat) (c : Cursor) :
    Checked (Expr × Cursor) :=
  let ident : Ident := ⟨c.word, c.spanFrom start⟩
  match names.role ident.name with
  | .slot _ => do
      let (slot, behind) ← readSlotRef equation ident c
      .ok (slot.toExpr (behind.spanFrom start), behind)
  | .object kind => readMethod equation kind ident start c
  | .builtin function => do
      let (argument?, closed) ← readArgument equation function.name function.arity c
      let span := closed.spanFrom start
      match argument? with
      | none => .ok (.call function span, closed)
      | some argument => .ok (.callWith function argument span, closed)
  | .keyword => .error ⟨.keywordInEquation ident.name, ident.span⟩
  | .label _ => .error ⟨.labelInEquation ident.name, ident.span⟩
  | .unknown => .error ⟨.unknownName ident.name, ident.span⟩

/-- Reads an operand. A sign in front of digits belongs to the number; other operators in front
    apply to the operand after them. Each level of nesting takes at least one character, so `fuel`
    is enough if it is more than the characters left. -/
def readOperand (names : Names) : (fuel : Nat) → OperandReader
  | 0, c => c.refuse (.expectedValue c.rest.head?)
  | fuel + 1, c =>
      match c.eat? .integer with
      | some past => do
          let number ← readNumber c.offset past
          .ok (number, past)
      | none =>
      match c.eatFirst? (fun op : UnaryOp => .literal op.symbol) UnaryOp.all with
      | some (op, past) => do
          let (operand, behind) ← readOperand names fuel past.skipBlanks
          .ok (.unary op operand (behind.spanFrom c.offset), behind)
      | none =>
      match c.eat? (.literal "(") with
      | some opened => do
          let (inner, last) ← readEquationWith (readOperand names fuel) .closeParen opened
          let closed ← last.expect ")"
          .ok (inner.withSpan (closed.spanFrom c.offset), closed)
      | none =>
      match c.eat? .identifier with
      | some past => readNamed names (readEquationWith (readOperand names fuel)) c.offset past
      | none => c.refuse (.expectedValue c.rest.head?)

/-- Reads an equation over the given names up to its end mark, which is left standing. -/
def readEquation (names : Names) (stop : EndMark) (c : Cursor) : Checked (Expr × Cursor) :=
  readEquationWith (readOperand names (c.rest.length + 1)) stop c

end TapePuzzle
