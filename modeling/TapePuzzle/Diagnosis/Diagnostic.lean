import TapePuzzle.Diagnosis.Issue
import TapePuzzle.Text.Lines

/-!
# Diagnostics

A diagnostic is what the author of a program is shown: an explanation, its place, and the line it
is about.
-/

namespace TapePuzzle

/-- One explanation of why a program is refused. -/
structure Diagnostic where
  code : IssueCode
  message : String
  span : Span
  sourceLine : String
  deriving DecidableEq, Repr

namespace Diagnostic

/-- Writes out a finding in a program text of the given lines. A place outside the text quotes the
    empty line. -/
def ofFinding (lines : List SourceLine) (finding : Finding) : Diagnostic where
  code := finding.issue.code
  message := finding.issue.message
  span := finding.span
  sourceLine := String.ofList ((lineText? lines finding.span.line).getD [])

def category (d : Diagnostic) : IssueCategory := d.code.category

/-- The same diagnostic in a text that leaves out the first `offset` lines. What was in those lines
    is put on line zero. -/
def rebased (d : Diagnostic) (offset : Nat) : Diagnostic :=
  { d with span := { d.span with line := d.span.line - offset } }

/-- The diagnostic on one line of text. -/
def render (d : Diagnostic) : String :=
  let position := d.span.position
  let code := d.code.label
  let category := d.category.label
  s!"{position}: {code} [{category}] {d.message}"

end Diagnostic

/-- Whether some diagnostic of the given code is on the given line. -/
def hasCodeOnLine (diagnostics : List Diagnostic) (code : IssueCode) (line : Nat) : Bool :=
  diagnostics.any fun d => d.code = code && d.span.line = line

end TapePuzzle
