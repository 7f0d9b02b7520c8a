import TapePuzzle.Language.Program
import TapePuzzle.Puzzle.Basic
import TapePuzzle.Text.Decimal

/-!
# Submissions

What a learner submits for a puzzle, and the program text that it gives for a test case: a data
segment written from the puzzle, the case and the learner's choices, then the learner's text.
-/

namespace TapePuzzle

/-- A learner's program text and choices for slots. -/
structure Submission where
  text : List Char
  bindings : List SlotBinding
  deriving DecidableEq, Repr

/-- The choice that counts for a slot: the last one in the list. -/
def bindingFor? (bindings : List SlotBinding) (index : Nat) : Option SlotBinding :=
  bindings.reverse.find? fun binding => binding.index = index

namespace Puzzle

/-- The name of a slot: the learner's, where the puzzle allows it, or the puzzle's. -/
def slotName? (p : Puzzle) (bindings : List SlotBinding) (index : Nat) : Option String :=
  let chosen? := if p.renamableSlots then (bindingFor? bindings index).bind (·.name) else none
  chosen? <|> p.defaultName? index

/-- The initial value of a slot: the learner's, where the puzzle allows it, or the one of the test
    case. -/
def slotValue (p : Puzzle) (case : TestCase) (bindings : List SlotBinding) (index : Nat) : Int :=
  let chosen? := if p.editableValues then (bindingFor? bindings index).bind (·.value) else none
  let given? := case.slots.bind (·[index]?)
  (chosen? <|> given?).getD 0

/-- The initial tape of a test case. A choice for a slot that the tape does not have is without
    effect. -/
def initialTape (p : Puzzle) (case : TestCase) (bindings : List SlotBinding) : List Slot :=
  (List.range p.slotCount).map fun index =>
    { name := p.slotName? bindings index, value := p.slotValue case bindings index }

end Puzzle

/-- The line of the data segment about a slot. Slots without a name that hold zero need none. -/
def slotLine? (slot : Slot) (index : Nat) : Option (List Char) :=
  let place := writeInteger index
  match slot.name with
  | some name => some (place ++ [' '] ++ name.toList ++ [' '] ++ writeInteger slot.value)
  | none => if slot.value = 0 then none else some (place ++ [' '] ++ writeInteger slot.value)

/-- The line of the data segment that declares an object. -/
def objectLine (object : ObjectDecl) : List Char :=
  object.kind.keyword.toList ++ [' '] ++ object.name.toList ++
    object.values.flatMap fun value => [' '] ++ writeInteger value

/-- The lines before the learner's text. -/
def headingLines (tape : List Slot) (objects : List ObjectDecl) : List (List Char) :=
  [headerLine.toList, dataMarker.toList, "tapelength ".toList ++ writeInteger tape.length] ++
    tape.zipIdx.filterMap (fun (slot, index) => slotLine? slot index) ++
    objects.map objectLine ++ [textMarker.toList]

/-- The text before the learner's text. -/
def heading (tape : List Slot) (objects : List ObjectDecl) : List Char :=
  (headingLines tape objects).flatMap fun line => line ++ ['\n']

/-- A program text built for one test case. -/
structure Assembly where
  /-- What comes before the learner's text. -/
  heading : List Char
  text : List Char
  deriving DecidableEq, Repr

namespace Assembly

/-- The program text that a submission gives for a test case. -/
def build (puzzle : Puzzle) (case : TestCase) (submission : Submission) : Assembly where
  heading := TapePuzzle.heading (puzzle.initialTape case submission.bindings) case.objects
  text := submission.text

/-- The whole program text. -/
def source (a : Assembly) : List Char := a.heading ++ a.text

/-- Number of lines before the learner's text. -/
def offset (a : Assembly) : Nat := a.heading.count '\n'

end Assembly

end TapePuzzle
