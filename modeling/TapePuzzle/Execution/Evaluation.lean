import TapePuzzle.Execution.Event
import TapePuzzle.Execution.Memory

/-!
# Evaluating equations

Operands are evaluated from left to right. A stop keeps the memory and the journal as they are at
that moment: what a line did before it stops is done.

Integers have no bound here. A valid program whose input is in range handles only values from -999
to 999, and operators on these stay within signed words of 32 bits (`Event.FitsWord`), so that words
give the same results. For input out of range they need not.
-/

namespace TapePuzzle

/-- The memory of a run and the journal of the line being evaluated. -/
structure Machine where
  memory : Memory
  events : List Event
  deriving DecidableEq, Repr

/-- A computation that works on a machine and may stop early. -/
abbrev Eval := ExceptT Stop (StateM Machine)

namespace Eval

def halt {α : Type} (reason : Halt) : Eval α := throw (.halt reason)

def fault {α : Type} (reason : Fault) : Eval α := throw (.fault reason)

def defect {α : Type} (reason : Defect) : Eval α := fault (.defect reason)

def memory : Eval Memory := return (← get).memory

/-- Changes the memory. -/
def update (f : Memory → Memory) : Eval Unit :=
  modify fun m => { m with memory := f m.memory }

/-- Writes an event into the journal. -/
def record (event : Event) : Eval Unit :=
  modify fun m => { m with events := m.events ++ [event] }

end Eval

/-- One for true, zero for false. -/
def truth (b : Bool) : Int := if b then 1 else 0

/-- What an operator makes of two values. Division goes to the floor, and a remainder has the sign
    of its dividend. -/
def BinaryOp.apply (op : BinaryOp) (left right : Int) : Except Fault Int :=
  match op with
  | .add => .ok (wrap (left + right))
  | .subtract => .ok (wrap (left - right))
  | .multiply => .ok (wrap (left * right))
  | .divide => if right = 0 then .error .divisionByZero else .ok (left.fdiv right)
  | .remainder => if right = 0 then .error .remainderByZero else .ok (left.tmod right)
  | .equal => .ok (truth (left = right))
  | .notEqual => .ok (truth (left ≠ right))
  | .less => .ok (truth (left < right))
  | .greater => .ok (truth (left > right))
  | .lessEqual => .ok (truth (left ≤ right))
  | .greaterEqual => .ok (truth (left ≥ right))
  | .and => .ok (truth (left ≠ 0 ∧ right ≠ 0))
  | .or => .ok (truth (left ≠ 0 ∨ right ≠ 0))

/-- The result of an operator that its left operand decides alone. -/
def BinaryOp.decided? (op : BinaryOp) (left : Int) : Option Int :=
  match op with
  | .and => if left = 0 then some 0 else none
  | .or => if left ≠ 0 then some 1 else none
  | _ => none

/-- What an operator makes of one value. -/
def UnaryOp.apply (op : UnaryOp) (operand : Int) : Int :=
  match op with
  | .negate => wrap (-operand)
  | .not => truth (operand = 0)

namespace Eval

/-- The place on the tape that is `offset` places after `base`. -/
def displace (base : Nat) (offset : Int) : Eval Nat := do
  let length := (← memory).tape.length
  let index : Int := base + offset
  if 0 ≤ index ∧ index < length then return index.toNat
  else fault (.slotOutOfRange index length)

/-- Finds a slot by its name. -/
def locate (name : String) : Eval Nat := do
  match slotIndex? (← memory).tape name with
  | some index => return index
  | none => defect (.unknownSlot name)

/-- Reads a slot. -/
def loadSlot (index : Nat) : Eval Int := do
  match (← memory).tape[index]? with
  | some slot =>
      record (.load index slot.value)
      return slot.value
  | none => fault (.slotOutOfRange index (← memory).tape.length)

/-- Takes the next input value. -/
def takeInput : Eval Int := do
  match (← memory).input with
  | [] => halt .inputExhausted
  | value :: rest =>
      update fun m => { m with input := rest }
      record (.input value)
      return value

/-- Appends a value to the output. -/
def writeOutput (value : Int) : Eval Int := do
  update fun m => { m with output := m.output ++ [value] }
  record (.output value)
  return value

/-- Finds an object by its name. -/
def object (name : String) : Eval Container := do
  match (← memory).object? name with
  | some object => return object
  | none => defect (.unknownObject name)

/-- Appends a value to an object. -/
def pushValue (name : String) (value : Int) : Eval Int := do
  let values := (← object name).values
  if maxObjectLength ≤ values.length then fault (.fullObject name)
  else
    update (·.writeObject name (values ++ [value]))
    record (.push name value)
    return value

/-- Takes the first value out of an object; `stop` says what happens if there is none. -/
def takeFirst (name : String) (stop : Stop) : Eval Int := do
  match (← object name).values with
  | [] => throw stop
  | value :: rest =>
      update (·.writeObject name rest)
      record (.take name value)
      return value

/-- Takes the last value out of an object; `stop` says what happens if there is none. -/
def takeLast (name : String) (stop : Stop) : Eval Int := do
  let values := (← object name).values
  match values.getLast? with
  | none => throw stop
  | some value =>
      update (·.writeObject name values.dropLast)
      record (.take name value)
      return value

/-- Reads the length of an object. -/
def examine (name : String) : Eval Int := do
  let length : Int := (← object name).values.length
  record (.examine name length)
  return length

/-- Calls a method without an argument. -/
def callMethod (name : String) : Method → Eval Int
  | .pop => takeLast name (.fault (.emptyObject name Method.pop.name))
  | .dequeue => takeFirst name (.fault (.emptyObject name Method.dequeue.name))
  | .next => takeFirst name (.halt (.feedExhausted name))
  | .length => examine name
  | .push => defect (.missingArgument Method.push.name)
  | .enqueue => defect (.missingArgument Method.enqueue.name)

/-- Calls a method with an argument that is already evaluated. -/
def callMethodWith (name : String) (method : Method) (argument : Int) : Eval Int :=
  match method with
  | .push | .enqueue => pushValue name argument
  | .pop | .dequeue | .next | .length => callMethod name method

/-- Calls a function without an argument. -/
def callFunction : Builtin → Eval Int
  | .input => takeInput
  | .finish => halt .finished
  | .output => defect (.missingArgument Builtin.output.name)

/-- Calls a function with an argument that is already evaluated. -/
def callFunctionWith (function : Builtin) (argument : Int) : Eval Int :=
  match function with
  | .output => writeOutput argument
  | .input | .finish => callFunction function

/-- Combines two operands that are already evaluated. -/
def combine (op : BinaryOp) (left right : Int) : Eval Int :=
  match op.apply left right with
  | .error reason => fault reason
  | .ok result => do
      record (.arithmetic op left right result)
      return result

end Eval

open Eval in
/-- Evaluates an equation. -/
def Expr.eval : Expr → Eval Int
  | .number value _ => return value
  | .slot name _ _ => do
      let base ← locate name.name
      loadSlot base
  | .slotAt name offset _ _ => do
      let base ← locate name.name
      let index ← displace base (← offset.eval)
      loadSlot index
  | .call function _ => callFunction function
  | .callWith function argument _ => do
      callFunctionWith function (← argument.eval)
  | .method object verb _ => callMethod object.name verb
  | .methodWith object verb argument _ => do
      callMethodWith object.name verb (← argument.eval)
  | .unary op operand _ => do
      let value ← operand.eval
      let result := op.apply value
      record (.unary op value result)
      return result
  | .binary left op right _ => do
      let leftValue ← left.eval
      match op.decided? leftValue with
      | some result =>
          record (.shortCircuit op leftValue result)
          return result
      | none =>
          let rightValue ← right.eval
          combine op leftValue rightValue

open Eval in
/-- The place on the tape that an assignment writes to. -/
def SlotRef.resolve (slot : SlotRef) : Eval Nat := do
  let base ← locate slot.name.name
  match slot.offset with
  | none => return base
  | some offset => displace base (← offset.eval)

open Eval in
/-- Carries out an assignment. The offset of the target is evaluated first, then the value. -/
def assign (target : SlotRef) (value : Expr) : Eval Unit := do
  let index ← target.resolve
  let result ← value.eval
  update (·.writeSlot index result)
  record (.store index result)

end TapePuzzle
