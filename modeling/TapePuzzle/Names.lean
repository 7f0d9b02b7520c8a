import TapePuzzle.Language.Vocabulary

/-!
# Names of a program

The names that a program declares, and what a name stands for in an equation.
-/

namespace TapePuzzle

/-- What a name stands for. -/
inductive Role where
  /-- A slot, by its place on the tape. -/
  | slot (index : Nat)
  | object (kind : ObjectKind)
  | builtin (function : Builtin)
  | keyword
  /-- A label, by its line in the text segment. -/
  | label (line : Nat)
  | unknown
  deriving DecidableEq, Repr

/-- Declared names. Of two declarations of one name, the later one counts. -/
structure Names where
  slots : List (String × Nat) := []
  objects : List (String × ObjectKind) := []
  labels : List (String × Nat) := []
  deriving DecidableEq, Repr

namespace Names

def addSlot (names : Names) (name : String) (index : Nat) : Names :=
  { names with slots := (name, index) :: names.slots }

def addObject (names : Names) (name : String) (kind : ObjectKind) : Names :=
  { names with objects := (name, kind) :: names.objects }

def addLabel (names : Names) (name : String) (line : Nat) : Names :=
  { names with labels := (name, line) :: names.labels }

/-- What a declared name stands for. Slots win over objects, and objects over labels. -/
def declared (names : Names) (name : String) : Role :=
  match names.slots.lookup name with
  | some index => .slot index
  | none =>
      match names.objects.lookup name with
      | some kind => .object kind
      | none =>
          match names.labels.lookup name with
          | some line => .label line
          | none => .unknown

/-- What a name stands for. Keywords and functions win over declarations. -/
def role (names : Names) (name : String) : Role :=
  if keywords.contains name then .keyword
  else
    match Builtin.ofName? name with
    | some function => .builtin function
    | none => names.declared name

end Names

end TapePuzzle
