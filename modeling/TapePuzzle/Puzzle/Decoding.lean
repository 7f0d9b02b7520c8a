import TapePuzzle.Json.Reader
import TapePuzzle.Puzzle.Basic

/-!
# Puzzle files

Puzzles are written as JSON. A structure is an object with its fields by name, or an array with its
fields in their order; fields that have a default may be missing. Unknown fields are ignored.
-/

namespace TapePuzzle

/-- Why a puzzle file is refused. -/
inductive PuzzleError where
  /-- The text is not JSON, or not a puzzle. -/
  | unreadable
  | flawed (flaw : PuzzleFlaw)
  deriving DecidableEq, Repr

namespace Json

/-- The fields called `names`, each if it is there. An object may not repeat one of them, and an
    array may not go on after them. -/
def fields? (names : List String) : Json → Option (List (Option Json))
  | .object members => do
      let members ← members.mapM fun (name?, value) => name?.map fun name => (name, value)
      if names.any fun name => 1 < (members.filter fun member => member.1 = name).length then none
      else return names.map fun name => members.lookup name
  | .array items =>
      if names.length < items.length then none
      else some (items.map some ++ List.replicate (names.length - items.length) none)
  | _ => none

/-- A field that has to be there. -/
def required {α : Type} (decode : Json → Option α) (field : Option Json) : Option α :=
  field.bind decode

/-- A field that takes a default if it is missing. -/
def withDefault {α : Type} (default : α) (decode : Json → Option α) : Option Json → Option α
  | none => some default
  | some value => decode value

/-- A value that may be null. -/
def nullable {α : Type} (decode : Json → Option α) : Json → Option (Option α)
  | .null => some none
  | value => (decode value).map some

/-- An array whose items are all decoded the same way. -/
def listOf {α : Type} (decode : Json → Option α) : Json → Option (List α)
  | .array items => items.mapM decode
  | _ => none

def toBool? : Json → Option Bool
  | .bool value => some value
  | _ => none

def toText? : Json → Option String
  | .string text => text
  | _ => none

/-- A count below 2^64. -/
def toCount? : Json → Option Nat
  | .integer value => if 0 ≤ value ∧ value < UInt64.size then some value.toNat else none
  | _ => none

/-- A signed number of 32 bits. -/
def toValue? : Json → Option Int
  | .integer value =>
      if Int32.minValue.toInt ≤ value ∧ value ≤ Int32.maxValue.toInt then some value else none
  | _ => none

/-- A kind of object: its word, or an object with this word as the only name and null as its
    value. -/
def toObjectKind? : Json → Option ObjectKind
  | .string (some word) => ObjectKind.ofKeyword? word
  | .object [(some word, .null)] => ObjectKind.ofKeyword? word
  | _ => none

def toObjectDecl? (json : Json) : Option ObjectDecl := do
  match ← json.fields? ["kind", "name", "values"] with
  | [kind, name, values] =>
      return {
        kind := ← required toObjectKind? kind
        name := ← required toText? name
        values := ← withDefault [] (listOf toValue?) values }
  | _ => none

def toTestCase? (json : Json) : Option TestCase := do
  match ← json.fields? ["objects", "slots", "input", "expected_output", "expected_slots"] with
  | [objects, slots, input, expectedOutput, expectedSlots] =>
      return {
        objects := ← withDefault [] (listOf toObjectDecl?) objects
        slots := ← withDefault none (nullable (listOf toValue?)) slots
        input := ← withDefault [] (listOf toValue?) input
        expectedOutput := ← withDefault [] (listOf toValue?) expectedOutput
        expectedSlots := ← withDefault none (nullable (listOf toValue?)) expectedSlots }
  | _ => none

def toPuzzle? (json : Json) : Option Puzzle := do
  match ← json.fields?
      ["slot_count", "test_cases", "slot_names", "editable_values", "renamable_slots"] with
  | [slotCount, testCases, slotNames, editableValues, renamableSlots] =>
      return {
        slotCount := ← required toCount? slotCount
        testCases := ← required (listOf toTestCase?) testCases
        slotNames := ← withDefault [] (listOf (nullable toText?)) slotNames
        editableValues := ← withDefault false toBool? editableValues
        renamableSlots := ← withDefault false toBool? renamableSlots }
  | _ => none

end Json

/-- Reads and checks a puzzle file. -/
def Puzzle.ofString (text : String) : Except PuzzleError Puzzle :=
  match (Json.read? text.toList).bind Json.toPuzzle? with
  | none => .error .unreadable
  | some puzzle =>
      match puzzle.validate with
      | .error flaw => .error (.flawed flaw)
      | .ok () => .ok puzzle

end TapePuzzle
