import TapePuzzle.Execution.Control
import TapePuzzle.Execution.Evaluation
import TapePuzzle.Puzzle.Basic

/-!
# Runs

A run takes a program through a test case line by line. It ends when the program halts, when it
faults, or as soon as its output differs from what the test case expects.

Values and counts have no bound here. Words of 32 bits hold the same values for test cases in range,
as all values then stay in range, and the same counts for limits below 2 ^ 32 - 1, as at most one
line more than the limit is counted.
-/

namespace TapePuzzle

/-- How a run misses what its test case expects. -/
inductive Mismatch where
  | emptyProgram
  | surplusOutput (expected : Nat)
  | output (index : Nat) (expected actual : Int)
  | outputCount (expected actual : Nat)
  | slotCount (expected actual : Nat)
  | slot (index : Nat) (expected actual : Int)
  deriving DecidableEq, Repr

def Mismatch.message : Mismatch → String
  | emptyProgram => "the program is empty"
  | surplusOutput expected =>
      s!"the program produced more than the {expected} expected output value(s)"
  | output index expected actual => s!"output {index} should be {expected} but was {actual}"
  | outputCount expected actual =>
      s!"expected {expected} output value(s) but the program produced {actual}"
  | slotCount expected actual => s!"expected {expected} slot(s) but the tape has {actual}"
  | slot index expected actual =>
      s!"slot {index} should end as {expected} but holds {actual}"

/-- How a run ends. -/
inductive Ending where
  | success (reason : Halt)
  | fail (reason : Mismatch)
  | error (reason : Fault)
  /-- The program never started, because it was refused when it was read. -/
  | invalid (diagnostics : Nat)
  deriving DecidableEq, Repr

def Ending.message : Ending → String
  | success reason => reason.message
  | fail reason => reason.message
  | error reason => reason.message
  | invalid diagnostics => s!"the program has {diagnostics} error(s) and cannot run"

/-- How far a run is. -/
inductive Stage where
  | new
  | running
  | ended (ending : Ending)
  deriving DecidableEq, Repr

/-- How far a run is, without the reason for its end. -/
inductive Status where
  | new
  | running
  | success
  | fail
  | error
  | invalid
  deriving DecidableEq, Repr

namespace Status

def label : Status → String
  | new => "NEW"
  | running => "RUNNING"
  | success => "SUCCESS"
  | fail => "FAIL"
  | error => "ERROR"
  | invalid => "INVALID"

def isTerminal : Status → Bool
  | new | running => false
  | success | fail | error | invalid => true

end Status

namespace Stage

def status : Stage → Status
  | new => .new
  | running => .running
  | ended (.success _) => .success
  | ended (.fail _) => .fail
  | ended (.error _) => .error
  | ended (.invalid _) => .invalid

def message? : Stage → Option String
  | new | running => none
  | ended ending => some ending.message

def isOver : Stage → Bool
  | new | running => false
  | ended _ => true

end Stage

theorem Stage.isTerminal_status (stage : Stage) : stage.status.isTerminal = stage.isOver := by
  cases stage with
  | new => rfl
  | running => rfl
  | ended ending => cases ending <;> rfl

theorem Stage.isSome_message? (stage : Stage) : stage.message?.isSome = stage.isOver := by
  cases stage <;> rfl

/-- The most lines a run executes unless another limit is set. -/
def defaultLineLimit : Nat := 1000

/-- A program running on a test case. -/
structure Run where
  program : Program
  expectedOutput : List Int
  expectedSlots : Option (List Int)
  /-- A run that goes on after this many lines faults. -/
  limit : Nat
  memory : Memory
  control : Control := {}
  /-- How many lines were begun, counting one that a halt or a fault cut short. -/
  executed : Nat := 0
  stage : Stage := .new
  /-- What the latest step did. -/
  events : List Event := []
  deriving DecidableEq, Repr

/-- What is shown of a run. -/
structure Snapshot where
  status : Status
  line : Option Nat
  executed : Nat
  tape : List Slot
  objects : List Container
  input : List Int
  output : List Int
  expectedOutput : List Int
  message : Option String
  deriving DecidableEq, Repr

/-- The first place where two lists differ, with the values there. -/
def firstDifference? : (index : Nat) → List Int → List Int → Option (Nat × Int × Int)
  | index, a :: as, b :: bs =>
      if a = b then firstDifference? (index + 1) as bs else some (index, a, b)
  | _, _, _ => none

namespace Run

/-- The start of a run. Tape and objects are those of the program; the test case only contributes
    its input and what it expects. -/
def start (program : Program) (case : TestCase) (limit : Nat) : Run where
  program := program
  expectedOutput := case.expectedOutput
  expectedSlots := case.expectedSlots
  limit := limit
  memory := Memory.load program case.input
  stage :=
    if program.isValid then .new else .ended (.invalid program.diagnostics.length)

def status (r : Run) : Status := r.stage.status

def message? (r : Run) : Option String := r.stage.message?

def isOver (r : Run) : Bool := r.stage.isOver

def snapshot (r : Run) : Snapshot where
  status := r.status
  line := r.control.position
  executed := r.executed
  tape := r.memory.tape
  objects := r.memory.objects
  input := r.memory.input
  output := r.memory.output
  expectedOutput := r.expectedOutput
  message := r.message?

/-- Ends the run. -/
def finish (r : Run) (ending : Ending) : Run := { r with stage := .ended ending }

/-- How the output differs from what is expected of the whole run. -/
def outputMismatch? (r : Run) : Option Mismatch :=
  match firstDifference? 0 r.expectedOutput r.memory.output with
  | some (index, expected, actual) => some (.output index expected actual)
  | none =>
      if r.memory.output.length = r.expectedOutput.length then none
      else some (.outputCount r.expectedOutput.length r.memory.output.length)

/-- How the tape differs from what is expected of the whole run. -/
def slotMismatch? (r : Run) : Option Mismatch :=
  match r.expectedSlots with
  | none => none
  | some expectedSlots =>
      if expectedSlots.length = r.memory.slotValues.length then
        (firstDifference? 0 expectedSlots r.memory.slotValues).map
          fun (index, expected, actual) => .slot index expected actual
      else some (.slotCount expectedSlots.length r.memory.slotValues.length)

/-- How a run that halts now misses what is expected. -/
def mismatch? (r : Run) : Option Mismatch := r.outputMismatch? <|> r.slotMismatch?

/-- How the last output so far differs from the expected one. -/
def earlyMismatch? (r : Run) : Option Mismatch :=
  match r.memory.output.getLast? with
  | none => none
  | some actual =>
      let index := r.memory.output.length - 1
      match r.expectedOutput[index]? with
      | none => some (.surplusOutput r.expectedOutput.length)
      | some expected =>
          if expected = actual then none else some (.output index expected actual)

/-- Ends a running run whose last output is wrong. -/
def checkOutput (r : Run) : Run :=
  match r.stage, r.earlyMismatch? with
  | .running, some mismatch => r.finish (.fail mismatch)
  | _, _ => r

/-- Ends a run that stopped in the middle of a line. A halt passes if nothing is missed. -/
def settle (r : Run) : Stop → Run
  | .fault fault => r.finish (.error fault)
  | .halt halt =>
      let r := { r with events := r.events ++ [Event.halt halt] }
      match r.mismatch? with
      | some mismatch => r.finish (.fail mismatch)
      | none => r.finish (.success halt)

/-- Carries out a statement and says how to go on. -/
def perform (program : Program) (statement : Statement) : Eval Onward :=
  match statement.action with
  | .assign target value => do
      assign target value
      return .fallThrough
  | .evaluate equation => do
      let _ ← equation.eval
      return .fallThrough
  | .ifTrue condition | .whileTrue condition => do
      let value ← condition.eval
      return if value ≠ 0 then .enterBlock else .fallThrough
  | .otherwise => return .enterBlock
  | .jump label =>
      match program.label? label.name with
      | some line => return .jumpTo line
      | none => Eval.defect (.unknownLabel label.name)

/-- Executes the line at the current position. -/
def executeLine (r : Run) (index : Nat) : Run :=
  match r.program.lines[index]?.bind Line.statement? with
  | none => r.settle (.fault (.defect (.notAStatement index)))
  | some statement =>
      let (result, machine) := (perform r.program statement).run ⟨r.memory, []⟩
      let r := { r with memory := machine.memory, events := machine.events }
      match result with
      | .ok onward => { r with stage := .running, control := { r.control with onward := onward } }
      | .error stop => r.settle stop

/-- Moves to the next line and executes it, unless that is one line too many. -/
def executeNext (r : Run) : Run :=
  match r.control.next r.program.lines with
  | .error defect => r.settle (.fault (.defect defect))
  | .ok (index, blocks) =>
      let control : Control := { position := some index, blocks := blocks }
      let r := { r with control := control, executed := r.executed + 1 }
      if r.limit < r.executed then r.settle (.fault (.lineLimit r.limit))
      else r.executeLine index

/-- One step without the check of the output: executes one line. An empty program fails at once. -/
def plainStep (r : Run) : Run :=
  let r := { r with events := [] }
  if r.isOver then r
  else if !r.program.hasCode then r.finish (.fail .emptyProgram)
  else r.executeNext

/-- One step: executes one line and checks the output. Nothing happens once the run is over. -/
def step (r : Run) : Run := r.plainStep.checkOutput

/-- At most `count` steps, until the run is over. -/
def steps : (count : Nat) → Run → Run
  | 0, r => r
  | count + 1, r => if r.isOver then r else steps count r.step

theorem steps_of_isOver {r : Run} (h : r.isOver = true) (count : Nat) : r.steps count = r := by
  cases count with
  | zero => rfl
  | succ count => rw [steps, if_pos h]

/-- The end of the run. Each step either ends the run or executes one more line, and no more than
    `limit + 1` lines are executed. -/
def complete (r : Run) : Run := r.steps (r.limit + 1 - r.executed)

/-- The states after each of at most `count` steps, until the run is over. -/
def trace : (count : Nat) → Run → List Run
  | 0, _ => []
  | count + 1, r => if r.isOver then [] else r.step :: trace count r.step

end Run

end TapePuzzle
