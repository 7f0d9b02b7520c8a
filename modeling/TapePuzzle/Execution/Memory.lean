import TapePuzzle.Language.Program

/-!
# Memory of a run

The state that the statements of a program work on.
-/

namespace TapePuzzle

/-- The tape, the objects, the input that is left and the output so far. -/
structure Memory where
  tape : List Slot := []
  objects : List Container := []
  input : List Int := []
  output : List Int := []
  deriving DecidableEq, Repr

namespace Memory

/-- The memory a program starts with. -/
def load (program : Program) (input : List Int) : Memory where
  tape := program.tape
  objects := program.objects
  input := input

/-- The values on the tape. -/
def slotValues (m : Memory) : List Int := m.tape.map Slot.value

/-- Writes a slot. -/
def writeSlot (m : Memory) (index : Nat) (value : Int) : Memory :=
  { m with tape := m.tape.modify index fun slot => { slot with value := value } }

/-- Finds an object by its name. -/
def object? (m : Memory) (name : String) : Option Container := findObject? m.objects name

/-- Replaces the values of the first object called `name`. -/
def setValues (name : String) (values : List Int) : List Container → List Container
  | [] => []
  | object :: objects =>
      if object.name = name then { object with values := values } :: objects
      else object :: setValues name values objects

/-- Replaces the values of the object called `name`. -/
def writeObject (m : Memory) (name : String) (values : List Int) : Memory :=
  { m with objects := setValues name values m.objects }

end Memory

end TapePuzzle
