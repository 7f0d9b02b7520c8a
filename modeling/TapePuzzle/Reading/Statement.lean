import TapePuzzle.Language.Statement
import TapePuzzle.Reading.Equation

/-!
# Reading statements

A statement starts with a keyword, or is an assignment, or is an equation on its own. It has to
fill its line.
-/

namespace TapePuzzle

/-- Reads the condition of `if` or `while` and the colon after it. -/
def readCondition (names : Names) (kind : BlockKind) (c : Cursor) : Checked (Expr × Cursor) :=
  let c := c.skipBlanks
  match c.eat? (.literal "(") with
  | none => c.refuse (.expectedParen kind.keyword)
  | some opened => do
      let (condition, last) ← readEquation names .closeParen opened
      let closed ← last.expect ")"
      let done ← closed.skipBlanks.expect ":"
      .ok (condition, done)

/-- Reads the label that `jump` goes to. -/
def readJump (names : Names) (c : Cursor) : Checked (Action × Cursor) :=
  let c := c.skipBlanks
  match c.eat? .identifier with
  | none => c.refuse .expectedLabelName
  | some named =>
      let ident : Ident := ⟨named.word, named.spanFrom c.offset⟩
      match names.role ident.name with
      | .label _ => .ok (.jump ident, named)
      | _ => .error ⟨.unknownLabel ident.name, ident.span⟩

/-- What is wrong with assigning to a name that is not a slot. -/
def assignmentIssue (name : String) : Role → Issue
  | .unknown => .unknownName name
  | _ => .notASlot name

/-- Whether a single equals sign stands at the cursor. -/
def Cursor.seesAssignment (c : Cursor) : Bool :=
  c.sees (.literal "=") && !c.sees (.literal "==")

/-- Reads the target of an assignment and moves to the equals sign. There is no target if the line
    does not go on with an equals sign. -/
def readTarget? (names : Names) (c : Cursor) : Checked (Option (SlotRef × Cursor)) :=
  match c.eat? .identifier with
  | none => .ok none
  | some named => do
      let ident : Ident := ⟨named.word, named.spanFrom c.offset⟩
      match names.role ident.name with
      | .slot _ =>
          let (slot, behind) ← readSlotRef (readEquation names) ident named
          let sign := behind.skipBlanks
          .ok (if sign.seesAssignment then some (slot, sign) else none)
      | role =>
          if named.skipBlanks.seesAssignment then
            .error ⟨assignmentIssue ident.name role, ident.span⟩
          else .ok none

/-- Reads an assignment or an equation on its own. -/
def readPlain (names : Names) (c : Cursor) : Checked (Action × Cursor) := do
  match ← readTarget? names c with
  | some (target, sign) =>
      let assigned ← sign.expect "="
      let (value, last) ← readEquation names .endOfLine assigned
      .ok (.assign target value, last)
  | none =>
      let (equation, last) ← readEquation names .endOfLine c
      .ok (.evaluate equation, last)

/-- Reads what a statement does, as its first word decides. -/
def readAction (names : Names) (c : Cursor) : Checked (Action × Cursor) :=
  match c.eat? (.word BlockKind.ifBlock.keyword) with
  | some past => do
      let (condition, last) ← readCondition names .ifBlock past
      .ok (.ifTrue condition, last)
  | none =>
  match c.eat? (.word BlockKind.whileBlock.keyword) with
  | some past => do
      let (condition, last) ← readCondition names .whileBlock past
      .ok (.whileTrue condition, last)
  | none =>
  match c.eat? (.word BlockKind.elseBlock.keyword) with
  | some past => do
      let done ← past.skipBlanks.expect ":"
      .ok (.otherwise, done)
  | none =>
  match c.eat? (.word "jump") with
  | some past => readJump names past
  | none => readPlain names c

/-- Reads a statement up to the end of its line. -/
def readStatement (names : Names) (c : Cursor) : Checked Statement := do
  let (action, last) ← readAction names c
  match last.eat? .endOfLine with
  | some done => .ok ⟨action, done.spanFrom c.offset⟩
  | none =>
      let rest := last.skipBlanks
      rest.refuse (.trailingText (String.ofList rest.rest))

end TapePuzzle
