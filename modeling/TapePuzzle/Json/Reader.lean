import TapePuzzle.Json.Tree
import TapePuzzle.Text.Cursor
import TapePuzzle.Text.Decimal

/-!
# Reading JSON

A strict reader of JSON texts: no comments, no comma without an item after it, no leading zeros,
no control characters in strings, and nothing but white space around the value.
-/

namespace TapePuzzle.Json

/-- The white space of JSON. -/
def isSpace (c : Char) : Bool := c == ' ' || c == '\t' || c == '\n' || c == '\r'

def skipSpace (text : List Char) : List Char := text.dropWhile isSpace

/-- One element of a string: a character, or a code unit given by its number. -/
inductive Unit16 where
  | char (c : Char)
  | code (unit : Nat)
  deriving DecidableEq, Repr

def isHighSurrogate (unit : Nat) : Bool := 0xD800 ≤ unit && unit < 0xDC00

def isLowSurrogate (unit : Nat) : Bool := 0xDC00 ≤ unit && unit < 0xE000

/-- The character that a surrogate pair stands for. -/
def surrogatePair (high low : Nat) : Char :=
  Char.ofNat (0x10000 + (high - 0xD800) * 0x400 + (low - 0xDC00))

/-- The text of a string, unless a surrogate is not part of a pair. -/
def joinUnits : List Unit16 → Option (List Char)
  | [] => some []
  | .char c :: units => (joinUnits units).map (c :: ·)
  | .code high :: .code low :: units =>
      if isHighSurrogate high then
        if isLowSurrogate low then (joinUnits units).map (surrogatePair high low :: ·) else none
      else if isLowSurrogate high then none
      else (joinUnits (.code low :: units)).map (Char.ofNat high :: ·)
  | .code unit :: units =>
      if isHighSurrogate unit || isLowSurrogate unit then none
      else (joinUnits units).map (Char.ofNat unit :: ·)

/-- The value of a hexadecimal digit. -/
def hexDigit? (c : Char) : Option Nat :=
  if '0' ≤ c ∧ c ≤ '9' then some (c.toNat - '0'.toNat)
  else if 'a' ≤ c ∧ c ≤ 'f' then some (c.toNat - 'a'.toNat + 10)
  else if 'A' ≤ c ∧ c ≤ 'F' then some (c.toNat - 'A'.toNat + 10)
  else none

/-- The number that four hexadecimal digits spell. -/
def hexUnit? (a b c d : Char) : Option Nat := do
  return (((← hexDigit? a) * 16 + (← hexDigit? b)) * 16 + (← hexDigit? c)) * 16 + (← hexDigit? d)

/-- The character that a letter stands for after a backslash. -/
def escaped? : Char → Option Char
  | '"' => some '"'
  | '\\' => some '\\'
  | '/' => some '/'
  | 'b' => some '\x08'
  | 'f' => some '\x0c'
  | 'n' => some '\n'
  | 'r' => some '\r'
  | 't' => some '\t'
  | _ => none

/-- Reads the elements of a string up to its closing quote. -/
def readUnits : List Char → Option (List Unit16 × List Char)
  | [] => none
  | '"' :: rest => some ([], rest)
  | '\\' :: 'u' :: a :: b :: c :: d :: rest => do
      let unit ← hexUnit? a b c d
      let (units, rest) ← readUnits rest
      return (.code unit :: units, rest)
  | '\\' :: letter :: rest => do
      let c ← escaped? letter
      let (units, rest) ← readUnits rest
      return (.char c :: units, rest)
  | c :: rest =>
      if c = '\\' ∨ c.toNat < 0x20 then none
      else do
        let (units, rest) ← readUnits rest
        return (.char c :: units, rest)

/-- Reads a string after its opening quote. -/
def readString (text : List Char) : Option (JsonText × List Char) := do
  let (units, rest) ← readUnits text
  return ((joinUnits units).map String.ofList, rest)

/-- Reads the fraction of a number, if there is one, and says whether there is. -/
def readFraction : List Char → Option (Bool × List Char)
  | '.' :: text => do
      let (_, rest) ← splitDigits? text
      return (true, rest)
  | text => some (false, text)

/-- Drops the sign of an exponent. -/
def dropSign : List Char → List Char
  | '+' :: text => text
  | '-' :: text => text
  | text => text

/-- Reads the exponent of a number, if there is one, and says whether there is. -/
def readExponent : List Char → Option (Bool × List Char)
  | [] => some (false, [])
  | c :: text =>
      if c = 'e' ∨ c = 'E' then do
        let (_, rest) ← splitDigits? (dropSign text)
        return (true, rest)
      else some (false, c :: text)

/-- Reads a number. -/
def readNumber (text : List Char) : Option (Json × List Char) := do
  let (spelling, rest) ← splitInteger? text
  let digits := spelling.dropWhile (· == '-')
  if digits.head? = some '0' ∧ digits.length ≠ 1 then none
  else
    let (fraction, rest) ← readFraction rest
    let (exponent, rest) ← readExponent rest
    if fraction || exponent || spelling = ['-', '0'] then return (.inexact, rest)
    else return (.integer (readInteger spelling), rest)

/-- Reads items that each follow a comma, up to the closing character. Each takes at least one
    character, so `fuel` is enough if it is more than the characters left. -/
def readMore {α : Type} (item : List Char → Option (α × List Char)) (close : Char) :
    (fuel : Nat) → List Char → Option (List α × List Char)
  | 0, _ => none
  | fuel + 1, text =>
      match skipSpace text with
      | [] => none
      | c :: rest =>
          if c = close then some ([], rest)
          else if c = ',' then do
            let (first, rest) ← item rest
            let (items, rest) ← readMore item close fuel rest
            return (first :: items, rest)
          else none

/-- Reads items with commas between them, up to the closing character. -/
def readList {α : Type} (item : List Char → Option (α × List Char)) (close : Char)
    (text : List Char) : Option (List α × List Char) :=
  match skipSpace text with
  | [] => none
  | c :: rest =>
      if c = close then some ([], rest)
      else do
        let (first, rest) ← item (c :: rest)
        let (items, rest) ← readMore item close (rest.length + 1) rest
        return (first :: items, rest)

/-- Reads a member of an object: its name, a colon and its value. -/
def readMember (value : List Char → Option (Json × List Char)) (text : List Char) :
    Option ((JsonText × Json) × List Char) :=
  match skipSpace text with
  | '"' :: rest => do
      let (name, rest) ← readString rest
      match skipSpace rest with
      | ':' :: rest => do
          let (value, rest) ← value rest
          return ((name, value), rest)
      | _ => none
  | _ => none

/-- Reads a value. Each level of nesting takes at least one character, so `fuel` is enough if it is
    more than the characters left. -/
def readValue : (fuel : Nat) → List Char → Option (Json × List Char)
  | 0, _ => none
  | fuel + 1, text =>
      match skipSpace text with
      | 'n' :: 'u' :: 'l' :: 'l' :: rest => some (.null, rest)
      | 't' :: 'r' :: 'u' :: 'e' :: rest => some (.bool true, rest)
      | 'f' :: 'a' :: 'l' :: 's' :: 'e' :: rest => some (.bool false, rest)
      | '"' :: rest => do
          let (text, rest) ← readString rest
          return (.string text, rest)
      | '[' :: rest => do
          let (items, rest) ← readList (readValue fuel) ']' rest
          return (.array items, rest)
      | '\x7b' :: rest => do
          let (members, rest) ← readList (readMember (readValue fuel)) '\x7d' rest
          return (.object members, rest)
      | text => readNumber text

/-- Reads a JSON text. -/
def read? (text : List Char) : Option Json := do
  let (value, rest) ← readValue (text.length + 1) text
  if (skipSpace rest).isEmpty then some value else none

end TapePuzzle.Json
