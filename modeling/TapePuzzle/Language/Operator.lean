/-!
# Operators
-/

namespace TapePuzzle

/-- Operators between two operands. -/
inductive BinaryOp where
  | or
  | and
  | equal
  | notEqual
  | less
  | greater
  | lessEqual
  | greaterEqual
  | add
  | subtract
  | multiply
  | divide
  | remainder
  deriving DecidableEq, Repr

namespace BinaryOp

/-- All operators, each before every operator whose symbol is a beginning of its own. Trying them
    in this order finds the longest symbol. -/
def all : List BinaryOp :=
  [or, and, greaterEqual, lessEqual, equal, notEqual, greater, less, add, subtract, multiply,
    divide, remainder]

def symbol : BinaryOp → String
  | or => "||"
  | and => "&&"
  | equal => "=="
  | notEqual => "!="
  | less => "<"
  | greater => ">"
  | lessEqual => "<="
  | greaterEqual => ">="
  | add => "+"
  | subtract => "-"
  | multiply => "*"
  | divide => "/"
  | remainder => "%"

/-- How tightly an operator binds. Operators of a higher number take their operands first. -/
def precedence : BinaryOp → Nat
  | or => 0
  | and => 1
  | equal | notEqual | less | greater | lessEqual | greaterEqual => 2
  | add | subtract => 3
  | multiply | divide | remainder => 4

/-- Whether results of the operator wrap into the range of values. -/
def wraps : BinaryOp → Bool
  | add | subtract | multiply => true
  | _ => false

end BinaryOp

/-- Operators in front of one operand. -/
inductive UnaryOp where
  | negate
  | not
  deriving DecidableEq, Repr

namespace UnaryOp

/-- All operators, in the order in which they are tried. -/
def all : List UnaryOp := [negate, not]

def symbol : UnaryOp → String
  | negate => "-"
  | not => "!"

end UnaryOp

end TapePuzzle
