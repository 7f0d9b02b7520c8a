import TapePuzzle.Language.Vocabulary
import TapePuzzle.Value

/-!
# Puzzles

A puzzle fixes the length of the tape and the test cases that a solution has to pass. A learner
submits a program text and, where the puzzle allows it, names and initial values of slots.
-/

namespace TapePuzzle

/-- An object as a test case declares it, with its initial values. -/
structure ObjectDecl where
  kind : ObjectKind
  name : String
  values : List Int := []
  deriving DecidableEq, Repr

/-- What a program is run on, and what it has to achieve. -/
structure TestCase where
  objects : List ObjectDecl := []
  /-- Initial values of the slots; zeros if missing. -/
  slots : Option (List Int) := none
  input : List Int := []
  expectedOutput : List Int := []
  /-- Values that the slots have to end with, if that matters. -/
  expectedSlots : Option (List Int) := none
  deriving DecidableEq, Repr

structure Puzzle where
  slotCount : Nat
  testCases : List TestCase
  /-- Names of the first slots; some may have none. -/
  slotNames : List (Option String) := []
  /-- A learner's own initial values count only if this is set. -/
  editableValues : Bool := false
  /-- A learner's own names for slots count only if this is set. -/
  renamableSlots : Bool := false
  deriving DecidableEq, Repr

/-- A name, a value, or both, that a learner picks for the slot at `index`. -/
structure SlotBinding where
  index : Nat
  name : Option String := none
  value : Option Int := none
  deriving DecidableEq, Repr

namespace SlotBinding

/-- Chooses a name only. -/
def named (index : Nat) (name : String) : SlotBinding := { index := index, name := some name }

/-- Chooses a value only. -/
def valued (index : Nat) (value : Int) : SlotBinding := { index := index, value := some value }

end SlotBinding

/-- Why a puzzle is refused. -/
inductive PuzzleFlaw where
  | slotCount (count : Nat)
  | noTestCases
  | slotNames (given slots : Nat)
  | slotList (case : Nat) (field : String) (given slots : Nat)
  | objectTooLong (case : Nat) (name : String) (length : Nat)
  | valueOutOfRange (case : Nat) (value : Int)
  deriving DecidableEq, Repr

/-- What is wrong, in words. -/
def PuzzleFlaw.description : PuzzleFlaw → String
  | slotCount count => s!"slot count must be between 1 and {maxTapeLength}, got {count}"
  | noTestCases => "puzzle has no test cases"
  | slotNames given slots => s!"{given} slot names given for {slots} slots"
  | slotList case field given slots =>
      s!"test case {case}: {field} has {given} values, expected {slots}"
  | objectTooLong case name length =>
      s!"test case {case}: object '{name}' has {length} values, " ++
        s!"at most {maxObjectLength} are allowed"
  | valueOutOfRange case value =>
      s!"test case {case}: value {value} is outside [{minValue}, {maxValue}]"

def PuzzleFlaw.message (flaw : PuzzleFlaw) : String := s!"invalid puzzle: {flaw.description}"

namespace TestCase

/-- All values of a test case, in the order in which they are checked. -/
def values (case : TestCase) : List Int :=
  case.slots.getD [] ++ case.expectedSlots.getD [] ++ case.input ++ case.expectedOutput ++
    case.objects.flatMap ObjectDecl.values

/-- Checks the length of a list of slot values, if it is given. -/
def checkSlotList (index slotCount : Nat) (field : String) (values? : Option (List Int)) :
    Except PuzzleFlaw Unit :=
  match values? with
  | none => .ok ()
  | some values =>
      if values.length = slotCount then .ok ()
      else .error (.slotList index field values.length slotCount)

/-- Checks test case `index` of a puzzle. -/
def check (index slotCount : Nat) (case : TestCase) : Except PuzzleFlaw Unit := do
  checkSlotList index slotCount "slots" case.slots
  checkSlotList index slotCount "expected_slots" case.expectedSlots
  match case.objects.find? fun object => maxObjectLength < object.values.length with
  | some object => .error (.objectTooLong index object.name object.values.length)
  | none =>
      match case.values.find? fun value => !inRange value with
      | some value => .error (.valueOutOfRange index value)
      | none => .ok ()

/-- Checks test cases that are counted from `index`. -/
def checkAll (slotCount : Nat) : (index : Nat) → List TestCase → Except PuzzleFlaw Unit
  | _, [] => .ok ()
  | index, case :: cases => do
      case.check index slotCount
      checkAll slotCount (index + 1) cases

end TestCase

namespace Puzzle

/-- Checks the rules that every puzzle obeys. -/
def validate (p : Puzzle) : Except PuzzleFlaw Unit :=
  if p.slotCount = 0 ∨ maxTapeLength < p.slotCount then .error (.slotCount p.slotCount)
  else if p.testCases.isEmpty then .error .noTestCases
  else if p.slotCount < p.slotNames.length then
    .error (.slotNames p.slotNames.length p.slotCount)
  else TestCase.checkAll p.slotCount 0 p.testCases

/-- The name that the puzzle gives to a slot. -/
def defaultName? (p : Puzzle) (index : Nat) : Option String := (p.slotNames[index]?).join

end Puzzle

end TapePuzzle
