import TapePuzzle.Reading.Declarations
import TapePuzzle.Reading.Layout
import TapePuzzle.Reading.Statement

/-!
# Reading programs

A program is read in full even if lines are refused, so that its diagnostics are complete. Labels
are declared before any statement is read, so that jumps can go forward.
-/

namespace TapePuzzle

/-- The block that a line opens by its first word, whatever the rest of the line is. -/
def Cursor.opener? (c : Cursor) : Option BlockKind :=
  BlockKind.all.find? fun kind => c.sees (.word kind.keyword)

/-- The place and the statement of a line whose leading blanks were accepted. -/
def readPlaced (names : Names) (placement : Placement) (c : Cursor) : Checked Line :=
  if c.opener? = some .elseBlock ∧ !placement.closedIf then c.refuse .elseWithoutIf
  else do
    let statement ← readStatement names c
    .ok (.code placement.level statement)

/-- Reads a line that has a statement, without its comment and trailing white space. A line that
    opens a block does so even if the rest of it is refused. -/
def readCodeLine (names : Names) (ind : Indentation) (number : Nat) (line : List Char) :
    Checked Line × Indentation :=
  let c := (Cursor.start number line).skipBlanks
  match ind.track (leadingBlanks line) with
  | (.error issue, tracked) => (.error ⟨.indentation issue, c.spanFrom 0⟩, tracked)
  | (.ok placement, tracked) =>
      let opened :=
        match c.opener? with
        | some kind => tracked.expectBlock kind
        | none => tracked
      (readPlaced names placement c, opened)

/-- Whether a line of the text segment has no statement. -/
def isSilent (line : SourceLine) : Bool := saysNothing line.text || (labelOf? line).isSome

/-- What is wrong if the text ends while a block is due: the line of its header says so. -/
def missingBlock? (ind : Indentation) (header? : Option Span) : List Finding :=
  match ind.pending, header? with
  | some kind, some span => [⟨.missingBlock kind, span⟩]
  | _, _ => []

/-- Reads the lines of the text segment. `header?` is where the latest line stands that a block was
    due after. -/
def readTextLines (names : Names) :
    Indentation → (header? : Option Span) → List SourceLine → List Line × List Finding
  | ind, header?, [] => ([], missingBlock? ind header?)
  | ind, header?, line :: lines =>
      if isSilent line then
        let (read, findings) := readTextLines names ind header? lines
        (.silent :: read, findings)
      else
        let code := trimEnd (codePart line.text)
        let (result, ind) := readCodeLine names ind line.number code
        let header? :=
          if ind.pending.isSome then some ⟨line.number, 1, byteLength code + 1⟩ else header?
        let (read, findings) := readTextLines names ind header? lines
        match result with
        | .ok code => (code :: read, findings)
        | .error finding => (.silent :: read, finding :: findings)

/-- What the data segment and the labels of a program declare. -/
def Layout.declarations (layout : Layout) : Declarations :=
  (DataSegment.read layout.data layout.textLine).readLabels layout.text

namespace Program

/-- Reads the segments of a program text whose lines are given for quoting. -/
def ofLayout (lines : List SourceLine) (layout : Layout) : Program :=
  let d := layout.declarations
  let (read, findings) := readTextLines d.names {} none layout.text
  { tape := d.tape
    objects := d.objects
    labels := d.labels
    lines := read
    diagnostics := (d.findings ++ findings).map (Diagnostic.ofFinding lines)
    textOffset := layout.textLine }

/-- Reads the lines of a program text. -/
def ofLines (lines : List SourceLine) : Program :=
  match Layout.ofLines lines with
  | .error finding => { diagnostics := [Diagnostic.ofFinding lines finding] }
  | .ok layout => ofLayout lines layout

/-- Reads a program text. -/
def read (text : List Char) : Program := ofLines (sourceLines text)

/-- Reads a program text given as a string. -/
def ofString (text : String) : Program := read text.toList

end Program

end TapePuzzle
