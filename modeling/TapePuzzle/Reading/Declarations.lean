import TapePuzzle.Language.Program
import TapePuzzle.Reading.Equation

/-!
# Reading declarations

The data segment declares the tape, names and initial values of slots, and objects; the text
segment declares labels. A line that is refused declares nothing.
-/

namespace TapePuzzle

/-- What is declared so far. -/
structure Declarations where
  tape : List Slot := []
  objects : List Container := []
  /-- Each label with its line in the text segment. -/
  labels : List (String × Nat) := []
  names : Names := {}
  /-- Each declared name with the line that declares it. -/
  declared : List (String × Nat) := []
  /-- Slots that a line is already about. -/
  bound : List Nat := []
  /-- What is wrong, in the order of discovery. -/
  findings : List Finding := []
  deriving DecidableEq, Repr

namespace Declarations

/-- Adds a finding. -/
def reject (d : Declarations) (finding : Finding) : Declarations :=
  { d with findings := d.findings ++ [finding] }

/-- Checks that a name can be declared. -/
def checkName (d : Declarations) (ident : Ident) : Checked Unit :=
  if isReserved ident.name then .error ⟨.reservedName ident.name, ident.span⟩
  else
    match d.declared.lookup ident.name with
    | some line => .error ⟨.duplicateName ident.name line, ident.span⟩
    | none => .ok ()

/-- Notes that a name is taken. -/
def take (d : Declarations) (ident : Ident) : Declarations :=
  { d with declared := (ident.name, ident.span.line) :: d.declared }

/-- The declarations that a line results in, or the old ones with what is wrong with the line. -/
def orReject (d : Declarations) (result : Checked Declarations) : Declarations :=
  match result with
  | .ok declared => declared
  | .error finding => d.reject finding

/-- Reads the number that follows `tapelength`, and lays out a tape of that length. -/
def readTapeLength (d : Declarations) (c : Cursor) : Checked Declarations :=
  let c := c.skipBlanks
  match c.eat? .integer with
  | none => c.refuse .invalidTapeLength
  | some counted =>
      let length := readInteger counted.matched
      if 1 ≤ length ∧ length ≤ maxTapeLength ∧ counted.sees .endOfLine then
        .ok { d with tape := List.replicate length.toNat {} }
      else .error ⟨.invalidTapeLength, counted.spanFrom c.offset⟩

/-- Reads a value of the data segment, whose text is the latest match and starts at byte
    `start`. -/
def readDataValue (start : Nat) (c : Cursor) : Checked Int :=
  let value := readInteger c.matched
  if inRange value then .ok value
  else .error ⟨.numberOutOfRange c.word, c.spanFrom start⟩

/-- Reads the index of a slot that no earlier line is about. -/
def readSlotIndex (d : Declarations) (c : Cursor) : Checked (Nat × Cursor) :=
  match c.eat? .integer with
  | none => c.refuse .invalidSlotBinding
  | some counted =>
      let index := readInteger counted.matched
      let span := counted.spanFrom c.offset
      if 0 ≤ index ∧ index < d.tape.length then
        if d.bound.contains index.toNat then .error ⟨.duplicateSlot index.toNat, span⟩
        else .ok (index.toNat, counted)
      else .error ⟨.slotIndexOutOfRange (d.tape.length - 1), span⟩

/-- Reads a name, if one follows. -/
def readSlotName (c : Cursor) : Option Ident × Cursor :=
  let c := c.skipBlanks
  match c.eat? .identifier with
  | none => (none, c)
  | some named => (some ⟨named.word, named.spanFrom c.offset⟩, named)

/-- Reads a value, if one follows. -/
def readSlotValue (c : Cursor) : Checked (Option Int × Cursor) :=
  let c := c.skipBlanks
  match c.eat? .integer with
  | none => .ok (none, c)
  | some counted => do
      let value ← readDataValue c.offset counted
      .ok (some value, counted)

/-- Gives slot `index` a name. -/
def nameSlot (d : Declarations) (index : Nat) (ident : Ident) : Declarations :=
  { d.take ident with
    tape := d.tape.modify index fun slot => { slot with name := some ident.name }
    names := d.names.addSlot ident.name index }

/-- Gives slot `index` a value. -/
def fillSlot (d : Declarations) (index : Nat) (value : Int) : Declarations :=
  { d with tape := d.tape.modify index fun slot => { slot with value := value } }

/-- Reads the name and the value after the index of a slot, either of which may be missing, and
    gives them to the slot. -/
def readSlotBinding (d : Declarations) (index : Nat) (c : Cursor) : Checked Declarations := do
  let (ident?, c) := readSlotName c
  let (value?, c) ← readSlotValue c
  if !c.sees .endOfLine then c.refuse .invalidSlotBinding
  else
    let named ←
      match ident? with
      | none => .ok d
      | some ident => do
          d.checkName ident
          .ok (d.nameSlot index ident)
    match value? with
    | none => .ok named
    | some value => .ok (named.fillSlot index value)

/-- Reads a line about one slot. Once its index is accepted, no other line may be about that slot,
    even if the rest of this one is refused. -/
def bindSlot (d : Declarations) (c : Cursor) : Declarations :=
  match d.readSlotIndex c with
  | .error finding => d.reject finding
  | .ok (index, counted) =>
      let d := { d with bound := index :: d.bound }
      d.orReject (d.readSlotBinding index counted)

/-- Reads values up to the end of the line. Each takes at least one character, so `fuel` is enough
    if it is more than the characters left. -/
def readValues : (fuel : Nat) → Cursor → Checked (List Int)
  | 0, c => c.refuse .invalidObjectValue
  | fuel + 1, c =>
      let c := c.skipBlanks
      if c.sees .endOfLine then .ok []
      else
        match c.eat? .integer with
        | none => c.refuse .invalidObjectValue
        | some counted => do
            let value ← readDataValue c.offset counted
            let values ← readValues fuel counted
            .ok (value :: values)

/-- Adds an object. -/
def addObject (d : Declarations) (ident : Ident) (kind : ObjectKind) (values : List Int) :
    Declarations :=
  { d.take ident with
    objects := d.objects ++ [⟨ident.name, kind, values⟩]
    names := d.names.addObject ident.name kind }

/-- Reads the name and the values of an object after the word for its kind. -/
def readObject (d : Declarations) (kind : ObjectKind) (c : Cursor) : Checked Declarations :=
  match c.eat? .blanks with
  | none => c.refuse (.missingObjectName kind)
  | some start =>
      match start.eat? .identifier with
      | none => start.refuse (.missingObjectName kind)
      | some named => do
          let ident : Ident := ⟨named.word, named.spanFrom start.offset⟩
          let values ← readValues (named.rest.length + 1) named
          if maxObjectLength < values.length then
            .error ⟨.objectTooLong ident.name values.length, ident.span⟩
          else
            d.checkName ident
            .ok (d.addObject ident kind values)

/-- Reads a line that declares a slot or an object. -/
def readDeclaration (d : Declarations) (c : Cursor) : Declarations :=
  if c.sees .integer then d.bindSlot c
  else
    match c.eatFirst? (fun kind : ObjectKind => .word kind.keyword) ObjectKind.all with
    | some (kind, past) => d.orReject (d.readObject kind past)
    | none => d.reject ⟨.invalidDeclaration, c.here⟩

end Declarations

/-- How far the data segment is read. -/
structure DataSegment where
  declarations : Declarations := {}
  /-- Whether a `tapelength` line was read, right or wrong. -/
  sawLength : Bool := false
  /-- Whether it was already said that `tapelength` is missing. -/
  missedLength : Bool := false
  deriving DecidableEq, Repr

namespace DataSegment

/-- Says that `tapelength` is missing, on the given line, unless it is not or this was said
    before. -/
def demandLength (s : DataSegment) (line : Nat) : DataSegment :=
  if s.sawLength || s.missedLength then s
  else
    { s with
      declarations := s.declarations.reject ⟨.missingTapeLength, Span.point line 1⟩
      missedLength := true }

/-- Reads one line. -/
def readLine (s : DataSegment) (line : SourceLine) : DataSegment :=
  if saysNothing line.text then s
  else
    let c := (Cursor.start line.number (codePart line.text)).skipBlanks
    match c.eat? (.word "tapelength") with
    | some past =>
        let d := s.declarations
        if s.sawLength then
          { s with declarations := d.reject ⟨.duplicateTapeLength, past.spanFrom 0⟩ }
        else { s with declarations := d.orReject (d.readTapeLength past), sawLength := true }
    | none =>
        let s := s.demandLength line.number
        { s with declarations := s.declarations.readDeclaration c }

/-- Reads the lines between the two markers; `textLine` is the line of the text marker. -/
def read (lines : List SourceLine) (textLine : Nat) : Declarations :=
  ((lines.foldl readLine {}).demandLength textLine).declarations

end DataSegment

/-- The label that a line declares: a name and a colon alone on the line. The word `else` is not a
    label. -/
def labelOf? (line : SourceLine) : Option Ident := do
  let c := (Cursor.start line.number (codePart line.text)).skipBlanks
  let named ← c.eat? .identifier
  if named.word = "else" then none
  else
    let colon ← named.skipBlanks.eat? (.literal ":")
    if colon.sees .endOfLine then some ⟨named.word, named.spanFrom c.offset⟩ else none

namespace Declarations

/-- Adds a label for line `index` of the text segment. -/
def addLabel (d : Declarations) (ident : Ident) (index : Nat) : Declarations :=
  { d.take ident with
    labels := (ident.name, index) :: d.labels
    names := d.names.addLabel ident.name index }

/-- Declares the label on line `index` of the text segment, if there is one. -/
def readLabel (d : Declarations) (line : SourceLine) (index : Nat) : Declarations :=
  match labelOf? line with
  | none => d
  | some ident =>
      d.orReject do
        d.checkName ident
        .ok (d.addLabel ident index)

/-- Declares the labels of the text segment. -/
def readLabels (d : Declarations) (lines : List SourceLine) : Declarations :=
  lines.zipIdx.foldl (fun d (line, index) => d.readLabel line index) d

end Declarations

end TapePuzzle
