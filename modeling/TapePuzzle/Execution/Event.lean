import TapePuzzle.Language.Operator
import TapePuzzle.Value

/-!
# Stops and events

What can cut a line short, and the journal of what the line did up to there. The journal is for
onlookers: no later line depends on it.
-/

namespace TapePuzzle

/-- A stop that the program asks for. Whether the run then passes depends on its test case. -/
inductive Halt where
  /-- The program called `end`. -/
  | finished
  /-- `input` was called and no input is left. -/
  | inputExhausted
  /-- `next` was called and the feed is empty. -/
  | feedExhausted (object : String)
  deriving DecidableEq, Repr

def Halt.message : Halt → String
  | finished => "end() called"
  | inputExhausted => "no inputs remaining"
  | feedExhausted object => s!"feed '{object}' has no values remaining"

/-- A state that running a program without diagnostics does not reach. -/
inductive Defect where
  | unknownSlot (name : String)
  | unknownObject (name : String)
  | unknownLabel (name : String)
  | missingArgument (callee : String)
  | notAStatement (line : Nat)
  | notAHeader (line : Nat)
  | enclosedByStatement (line : Nat)
  | noHeader (line : Nat)
  | noLanding (line : Nat)
  | noStatements
  deriving DecidableEq, Repr

def Defect.message : Defect → String
  | unknownSlot name => s!"slot '{name}' is not on the tape"
  | unknownObject name => s!"object '{name}' does not exist"
  | unknownLabel name => s!"label '{name}' does not exist"
  | missingArgument callee => s!"'{callee}' is missing its argument"
  | notAStatement line => s!"line {line} is not a statement"
  | notAHeader line => s!"line {line} does not open a block"
  | enclosedByStatement line => s!"line {line} encloses a block but is not a header"
  | noHeader line => s!"no enclosing header found for line {line}"
  | noLanding line => s!"no line to continue with after line {line}"
  | noStatements => "the program has no statements"

/-- A fault that ends the run. -/
inductive Fault where
  | divisionByZero
  | remainderByZero
  | slotOutOfRange (index : Int) (length : Nat)
  | emptyObject (object verb : String)
  | fullObject (object : String)
  | lineLimit (limit : Nat)
  | defect (defect : Defect)
  deriving DecidableEq, Repr

def Fault.message : Fault → String
  | divisionByZero => "division by zero"
  | remainderByZero => "modulo by zero"
  | slotOutOfRange index length =>
      s!"slot index {index} is outside the tape of {length} slots"
  | emptyObject object verb => s!"cannot {verb} from '{object}': it is empty"
  | fullObject object =>
      s!"cannot push onto '{object}': it already holds {maxObjectLength} values"
  | lineLimit limit => s!"execution exceeded the limit of {limit} lines"
  | defect d => s!"internal error: {d.message}"

/-- What keeps a line from being carried out to its end. -/
inductive Stop where
  | halt (halt : Halt)
  | fault (fault : Fault)
  deriving DecidableEq, Repr

/-- One thing that a line did. -/
inductive Event where
  | load (slot : Nat) (value : Int)
  | store (slot : Nat) (value : Int)
  /-- Both operands of an operator were needed. -/
  | arithmetic (op : BinaryOp) (left right result : Int)
  /-- The left operand settled the result, so the right one was never evaluated. -/
  | shortCircuit (op : BinaryOp) (left result : Int)
  | unary (op : UnaryOp) (operand result : Int)
  | push (object : String) (value : Int)
  /-- A value left an object. -/
  | take (object : String) (value : Int)
  /-- The length of an object was read. -/
  | examine (object : String) (value : Int)
  | input (value : Int)
  | output (value : Int)
  | halt (reason : Halt)
  deriving DecidableEq, Repr

end TapePuzzle
