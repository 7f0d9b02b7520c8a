import TapePuzzle.Text.Blank

/-!
# Lines of a program text

A text is cut into lines once; diagnostics quote the lines, and everything else reads them.
-/

namespace TapePuzzle

/-- Cuts a text after each line feed. A final line feed starts no further line, and the empty text
    has no line. -/
def splitLines : List Char → List (List Char)
  | [] => []
  | c :: text =>
      if c = '\n' then [] :: splitLines text
      else
        match splitLines text with
        | [] => [[c]]
        | line :: lines => (c :: line) :: lines

/-- One line of a program text, without its line ending. -/
structure SourceLine where
  /-- Counted from one. -/
  number : Nat
  text : List Char
  deriving DecidableEq, Repr

/-- The lines of `text`. Line feeds and the carriage returns before them do not belong to a line. -/
def sourceLines (text : List Char) : List SourceLine :=
  ((splitLines text).zipIdx 1).map fun (line, number) =>
    ⟨number, dropEndWhile (· == '\r') line⟩

/-- The text of line `number`, counted from one. -/
def lineText? (lines : List SourceLine) (number : Nat) : Option (List Char) :=
  match number with
  | 0 => none
  | index + 1 => (lines[index]?).map SourceLine.text

end TapePuzzle
