import TapePuzzle.Indentation
import TapePuzzle.Language.Vocabulary
import TapePuzzle.Text.Span
import TapePuzzle.Value

/-!
# What can be wrong with a program

`Issue` lists the causes for which a program is refused. The number under which a cause is known
and its wording are functions of the cause.
-/

namespace TapePuzzle

/-- The number of a cause. -/
structure IssueCode where
  number : Nat
  deriving DecidableEq, Repr

/-- The part of the language that a cause belongs to. -/
inductive IssueCategory where
  | layout
  | data
  | indentation
  | statement
  | equation
  | name
  deriving DecidableEq, Repr

def IssueCategory.label : IssueCategory → String
  | .layout => "structure"
  | .data => "data"
  | .indentation => "indentation"
  | .statement => "statement"
  | .equation => "equation"
  | .name => "name"

namespace IssueCode

/-- The category is the hundred in which the number lies; names also take every number that
    belongs to no other category. -/
def category (code : IssueCode) : IssueCategory :=
  match code.number / 100 with
  | 1 => .layout
  | 2 => .data
  | 3 => .indentation
  | 4 => .statement
  | 5 => .equation
  | _ => .name

def label (code : IssueCode) : String := s!"E{code.number}"

end IssueCode

/-- How every program text begins. -/
def headerLine : String := "tally 1"

/-- The line that opens the data segment. -/
def dataMarker : String := ".data"

/-- The line that opens the text segment. -/
def textMarker : String := ".text"

/-- What an equation runs up to. -/
inductive EndMark where
  | endOfLine
  | closeParen
  | closeBracket
  deriving DecidableEq, Repr

def EndMark.description : EndMark → String
  | endOfLine => "end of line"
  | closeParen => "')'"
  | closeBracket => "']'"

/-- A cause for which a program is refused. -/
inductive Issue where
  | missingHeader
  | missingDataMarker
  | missingTextMarker
  | duplicateTextMarker
  | missingTapeLength
  | duplicateTapeLength
  | invalidTapeLength
  | invalidDeclaration
  | invalidSlotBinding
  | missingObjectName (kind : ObjectKind)
  | invalidObjectValue
  | slotIndexOutOfRange (last : Nat)
  | duplicateSlot (index : Nat)
  | objectTooLong (name : String) (length : Nat)
  | indentation (issue : IndentIssue)
  | missingBlock (kind : BlockKind)
  | trailingText (text : String)
  | elseWithoutIf
  | expectedParen (callee : String)
  | expectedLabelName
  | expectedLiteral (wanted : String) (found : Option Char)
  | expectedOperator (stop : EndMark) (found : Option Char)
  | expectedValue (found : Option Char)
  | numberOutOfRange (text : String)
  | missingOperator
  | expectedMethodName (object : String)
  | unknownMethod (kind : ObjectKind) (object method : String)
  | missingArgument (callee : String)
  | surplusArgument (callee : String)
  | unknownName (name : String)
  | keywordInEquation (name : String)
  | duplicateName (name : String) (line : Nat)
  | labelInEquation (name : String)
  | unknownLabel (name : String)
  | reservedName (name : String)
  | notASlot (name : String)
  deriving DecidableEq, Repr

/-- How messages name the next character of a line. -/
def describeNext : Option Char → String
  | some c => s!"'{c}'"
  | none => "end of line"

namespace Issue

/-- The number under which the cause is known. -/
def code : Issue → IssueCode
  | missingHeader => ⟨100⟩
  | missingDataMarker => ⟨101⟩
  | missingTextMarker => ⟨102⟩
  | duplicateTextMarker => ⟨103⟩
  | missingTapeLength => ⟨200⟩
  | duplicateTapeLength => ⟨201⟩
  | invalidTapeLength => ⟨202⟩
  | invalidDeclaration | invalidSlotBinding | missingObjectName _ | invalidObjectValue => ⟨203⟩
  | slotIndexOutOfRange _ => ⟨204⟩
  | duplicateSlot _ => ⟨205⟩
  | objectTooLong _ _ => ⟨206⟩
  | indentation .unexpectedPattern => ⟨300⟩
  | indentation .expectedIncrease => ⟨301⟩
  | indentation .unexpectedIncrease => ⟨302⟩
  | missingBlock _ => ⟨303⟩
  | trailingText _ => ⟨401⟩
  | elseWithoutIf => ⟨402⟩
  | expectedParen _ | expectedLabelName | expectedLiteral _ _ | expectedOperator _ _ => ⟨403⟩
  | expectedValue _ => ⟨500⟩
  | numberOutOfRange _ => ⟨501⟩
  | missingOperator => ⟨502⟩
  | expectedMethodName _ | unknownMethod _ _ _ => ⟨503⟩
  | missingArgument _ | surplusArgument _ => ⟨504⟩
  | unknownName _ => ⟨600⟩
  | keywordInEquation _ => ⟨601⟩
  | duplicateName _ _ => ⟨602⟩
  | labelInEquation _ => ⟨603⟩
  | unknownLabel _ => ⟨604⟩
  | reservedName _ => ⟨605⟩
  | notASlot _ => ⟨606⟩

/-- The explanation shown to the author of the program. -/
def message : Issue → String
  | missingHeader => s!"expected '{headerLine}' on the first line"
  | missingDataMarker => s!"expected '{dataMarker}' on the second line"
  | missingTextMarker => s!"missing '{textMarker}' line"
  | duplicateTextMarker => s!"'{textMarker}' may appear only once"
  | missingTapeLength => "the data segment must start with 'tapelength N'"
  | duplicateTapeLength => "'tapelength' may appear only once"
  | invalidTapeLength => s!"tape length must be a number between 1 and {maxTapeLength}"
  | invalidDeclaration => "expected a slot binding or an object declaration"
  | invalidSlotBinding => "expected 'index [name] [value]'"
  | missingObjectName kind => s!"expected a name after '{kind.keyword}'"
  | invalidObjectValue => "object values must be numbers"
  | slotIndexOutOfRange last => s!"slot index must be between 0 and {last}"
  | duplicateSlot index => s!"slot {index} is bound more than once"
  | objectTooLong name length =>
      s!"'{name}' declares {length} values, at most {maxObjectLength} are allowed"
  | indentation issue => issue.message
  | missingBlock kind => s!"expected an indented block after '{kind.keyword}'"
  | trailingText text => s!"unexpected '{text}' after the statement"
  | elseWithoutIf => "'else' must follow the body of an 'if' at the same indentation"
  | expectedParen callee => s!"expected '(' after '{callee}'"
  | expectedLabelName => "expected a label name after 'jump'"
  | expectedLiteral wanted found => s!"expected '{wanted}', found {describeNext found}"
  | expectedOperator stop found =>
      s!"expected an operator or {stop.description}, found {describeNext found}"
  | expectedValue found => s!"expected a value, found {describeNext found}"
  | numberOutOfRange text => s!"number {text} is outside [{minValue}, {maxValue}]"
  | missingOperator => "missing operator between numbers"
  | expectedMethodName object => s!"expected a method name after '{object}.'"
  | unknownMethod kind object method => s!"{kind.keyword} '{object}' has no method '{method}'"
  | missingArgument callee => s!"'{callee}' takes 1 argument, got 0"
  | surplusArgument callee => s!"'{callee}' takes no arguments"
  | unknownName name => s!"unrecognized name '{name}'"
  | keywordInEquation name => s!"keyword '{name}' cannot be used in an equation"
  | duplicateName name line => s!"name '{name}' is already declared on line {line}"
  | labelInEquation name => s!"label '{name}' cannot be used in an equation"
  | unknownLabel name => s!"no label named '{name}'"
  | reservedName name => s!"'{name}' is a reserved word and cannot be used as a name"
  | notASlot name => s!"'{name}' is not a slot and cannot be assigned"

end Issue

/-- A cause and the place where it shows. -/
structure Finding where
  issue : Issue
  span : Span
  deriving DecidableEq, Repr

end TapePuzzle
