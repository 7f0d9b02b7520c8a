import TapePuzzle.Text.Blank
import TapePuzzle.Text.Span

/-!
# Reading along one line

A `Pattern` splits a text into the longest part it matches at the front and the rest. A `Cursor` is
a line cut in two at the current position; since the cut is between characters, every position is a
character boundary.
-/

namespace TapePuzzle

/-- What can be looked for at a position. -/
inductive Pattern where
  /-- The text itself, whatever comes after it. -/
  | literal (text : String)
  /-- The text as a word of its own: it must not run on into a longer name. -/
  | word (text : String)
  /-- One or more blanks. -/
  | blanks
  /-- A name, taken as long as possible. -/
  | identifier
  /-- Decimal digits after an optional minus sign, taken as long as possible. -/
  | integer
  /-- All that is left of the line, provided that it is blank. -/
  | endOfLine
  deriving DecidableEq, Repr

/-- Splits off the digits at the front of a text, if there are any. -/
def splitDigits? (text : List Char) : Option (List Char × List Char) :=
  match text.takeWhile Char.isDigit with
  | [] => none
  | digits => some (digits, text.dropWhile Char.isDigit)

/-- Splits off the integer at the front of a text, if there is one. -/
def splitInteger? : List Char → Option (List Char × List Char)
  | '-' :: text => (splitDigits? text).map fun (digits, rest) => ('-' :: digits, rest)
  | text => splitDigits? text

/-- Splits off the name at the front of a text, if there is one. -/
def splitIdentifier? : List Char → Option (List Char × List Char)
  | [] => none
  | c :: text =>
      if isNameStart c then some (c :: text.takeWhile isNameChar, text.dropWhile isNameChar)
      else none

/-- The part at the front of a text that the pattern matches, and the rest of the text. -/
def Pattern.split? : Pattern → List Char → Option (List Char × List Char)
  | literal wanted, text => (after? wanted.toList text).map fun rest => (wanted.toList, rest)
  | word wanted, text =>
      (after? wanted.toList text).bind fun rest =>
        if rest.head?.any isNameChar then none else some (wanted.toList, rest)
  | blanks, text =>
      match leadingBlanks text with
      | [] => none
      | found => some (found, afterBlanks text)
  | identifier, text => splitIdentifier? text
  | integer, text => splitInteger? text
  | endOfLine, text => if text.all isBlank then some (text, []) else none

theorem append_of_splitDigits? {text digits rest : List Char}
    (h : splitDigits? text = some (digits, rest)) : digits ++ rest = text := by
  unfold splitDigits? at h
  split at h
  · cases h
  · cases h
    exact List.takeWhile_append_dropWhile

theorem append_of_splitInteger? {text number rest : List Char}
    (h : splitInteger? text = some (number, rest)) : number ++ rest = text := by
  unfold splitInteger? at h
  split at h
  · obtain ⟨⟨digits, tail⟩, hdigits, heq⟩ := Option.map_eq_some_iff.mp h
    cases heq
    rw [List.cons_append, append_of_splitDigits? hdigits]
  · exact append_of_splitDigits? h

theorem append_of_splitIdentifier? {text name rest : List Char}
    (h : splitIdentifier? text = some (name, rest)) : name ++ rest = text := by
  unfold splitIdentifier? at h
  split at h
  · cases h
  · split at h
    · cases h
      rw [List.cons_append, List.takeWhile_append_dropWhile]
    · cases h

/-- Nothing is lost: what a pattern matches and the rest make up the text. -/
theorem Pattern.append_of_split? {p : Pattern} {text found rest : List Char}
    (h : p.split? text = some (found, rest)) : found ++ rest = text := by
  cases p with
  | literal wanted =>
      obtain ⟨tail, htail, heq⟩ := Option.map_eq_some_iff.mp h
      cases heq
      exact (after?_eq_some_iff.mp htail).symm
  | word wanted =>
      obtain ⟨tail, htail, hsplit⟩ := Option.bind_eq_some_iff.mp h
      split at hsplit
      · cases hsplit
      · cases hsplit
        exact (after?_eq_some_iff.mp htail).symm
  | blanks =>
      simp only [split?] at h
      split at h
      · cases h
      · cases h
        exact List.takeWhile_append_dropWhile
  | identifier => exact append_of_splitIdentifier? h
  | integer => exact append_of_splitInteger? h
  | endOfLine =>
      simp only [split?] at h
      split at h
      · cases h
        exact List.append_nil _
      · cases h

/-- A line cut in two, between what has been read and what has not. -/
structure Cursor where
  lineNumber : Nat
  /-- The text passed so far. -/
  passed : List Char
  /-- The text still ahead. -/
  rest : List Char
  /-- The text of the latest match. -/
  matched : List Char
  deriving DecidableEq, Repr

namespace Cursor

/-- The start of a line. -/
def start (lineNumber : Nat) (line : List Char) : Cursor := ⟨lineNumber, [], line, []⟩

/-- The whole line that the cursor moves along. -/
def line (c : Cursor) : List Char := c.passed ++ c.rest

/-- Bytes before the position. -/
def offset (c : Cursor) : Nat := byteLength c.passed

/-- Column of the position, counted from one. -/
def column (c : Cursor) : Nat := c.offset + 1

/-- Whether the whole line is passed. -/
def atEnd (c : Cursor) : Bool := c.rest.isEmpty

/-- The empty span at the position. -/
def here (c : Cursor) : Span := Span.point c.lineNumber c.column

/-- The span that begins after `start` bytes of the line and ends here. -/
def spanFrom (c : Cursor) (start : Nat) : Span := ⟨c.lineNumber, start + 1, c.column⟩

/-- Moves past a match of the pattern and keeps its text. -/
def eat? (p : Pattern) (c : Cursor) : Option Cursor :=
  (p.split? c.rest).map fun (found, rest) =>
    { c with passed := c.passed ++ found, rest := rest, matched := found }

/-- Whether the pattern matches at the position. -/
def sees (p : Pattern) (c : Cursor) : Bool := (p.split? c.rest).isSome

/-- Moves past the blanks at the position, if there are any. -/
def skipBlanks (c : Cursor) : Cursor :=
  { c with passed := c.passed ++ leadingBlanks c.rest, rest := afterBlanks c.rest }

/-- Matching moves along the line and does not change it. -/
theorem line_of_eat? {p : Pattern} {c past : Cursor} (h : c.eat? p = some past) :
    past.line = c.line := by
  obtain ⟨⟨found, rest⟩, hsplit, rfl⟩ := Option.map_eq_some_iff.mp h
  simp [line, List.append_assoc, Pattern.append_of_split? hsplit]

@[simp] theorem line_skipBlanks (c : Cursor) : c.skipBlanks.line = c.line := by
  simp [line, skipBlanks, leadingBlanks, afterBlanks, List.append_assoc]

/-- The text of the latest match, as a name. -/
def word (c : Cursor) : String := String.ofList c.matched

/-- The first alternative whose pattern matches, and the cursor past it. -/
def eatFirst? {α : Type} (pattern : α → Pattern) : List α → Cursor → Option (α × Cursor)
  | [], _ => none
  | choice :: choices, c =>
      match c.eat? (pattern choice) with
      | some past => some (choice, past)
      | none => eatFirst? pattern choices c

end Cursor

/-- The whole characters within the first `bytes` bytes of a text, and the rest. -/
def splitBytes : Nat → List Char → List Char × List Char
  | _, [] => ([], [])
  | bytes, c :: text =>
      if c.utf8Size ≤ bytes then
        let (front, rest) := splitBytes (bytes - c.utf8Size) text
        (c :: front, rest)
      else ([], c :: text)

theorem splitBytes_append (bytes : Nat) (text : List Char) :
    (splitBytes bytes text).1 ++ (splitBytes bytes text).2 = text := by
  induction text generalizing bytes with
  | nil => rfl
  | cons c text ih =>
      unfold splitBytes
      split
      · simp [ih]
      · rfl

namespace Cursor

/-- Moves to byte `bytes` of the line, or to its end if the line is shorter. -/
def moveTo (c : Cursor) (bytes : Nat) : Cursor :=
  let (passed, rest) := splitBytes bytes c.line
  { c with passed := passed, rest := rest }

@[simp] theorem line_moveTo (c : Cursor) (bytes : Nat) : (c.moveTo bytes).line = c.line :=
  splitBytes_append bytes c.line

end Cursor

end TapePuzzle
