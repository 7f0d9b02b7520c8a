import TapePuzzle.Diagnosis.Diagnostic
import TapePuzzle.Language.Statement

/-!
# Programs

What a program text means once it is read: the initial tape and objects, the labels, and the lines
of its text segment.
-/

namespace TapePuzzle

/-- One place on the tape. -/
structure Slot where
  name : Option String := none
  value : Int := 0
  deriving DecidableEq, Repr

/-- A stack, queue or feed under its name. -/
structure Container where
  name : String
  kind : ObjectKind
  /-- Front to back: queues and feeds yield the first value, stacks the last. -/
  values : List Int
  deriving DecidableEq, Repr

/-- What a line of the text segment comes to once it is read. -/
inductive Line where
  /-- A line that executes nothing: nothing said, a label, or refused. -/
  | silent
  /-- A statement, `depth` blocks deep. -/
  | code (depth : Nat) (statement : Statement)
  deriving DecidableEq, Repr

namespace Line

def depth? : Line → Option Nat
  | silent => none
  | code depth _ => some depth

def statement? : Line → Option Statement
  | silent => none
  | code _ statement => some statement

def isCode (line : Line) : Bool := line.depth?.isSome

def isElse (line : Line) : Bool :=
  match line with
  | code _ ⟨.otherwise, _⟩ => true
  | _ => false

end Line

/-- Where on a tape the first slot of a name stands. -/
def slotIndex? (tape : List Slot) (name : String) : Option Nat :=
  tape.findIdx? fun slot => slot.name = some name

/-- The first object of a name. -/
def findObject? (objects : List Container) (name : String) : Option Container :=
  objects.find? fun object => object.name = name

/-- A program. It can run only if it has no diagnostics. -/
structure Program where
  tape : List Slot := []
  objects : List Container := []
  /-- Each label with its line in the text segment, counted from zero. -/
  labels : List (String × Nat) := []
  lines : List Line := []
  diagnostics : List Diagnostic := []
  /-- The line of the text marker, so that line `i` of the text segment is line
      `textOffset + 1 + i` of the whole text. -/
  textOffset : Nat := 0
  deriving DecidableEq, Repr

namespace Program

def isValid (p : Program) : Bool := p.diagnostics.isEmpty

def hasCode (p : Program) : Bool := p.lines.any Line.isCode

def slotIndex? (p : Program) (name : String) : Option Nat := TapePuzzle.slotIndex? p.tape name

def object? (p : Program) (name : String) : Option Container := findObject? p.objects name

def label? (p : Program) (name : String) : Option Nat := p.labels.lookup name

end Program

end TapePuzzle
