/-!
# Characters of a line

The character classes that the language distinguishes, the cuts a whole line goes through before
it is read (comment, indentation, trailing white space), and the size of a text in bytes, which is
what columns count.
-/

namespace TapePuzzle

/-- A blank is a space or a tab. Only blanks may stand between the words of a line. -/
def isBlank (c : Char) : Bool := c == ' ' || c == '\t'

/-- Names start with an ASCII letter or an underscore. -/
def isNameStart (c : Char) : Bool := c.isAlpha || c == '_'

/-- Names go on with ASCII letters, digits and underscores. -/
def isNameChar (c : Char) : Bool := c.isAlphanum || c == '_'

/-- The `White_Space` property of Unicode, which decides what trimming removes. -/
def isWhiteSpace (c : Char) : Bool :=
  let n := c.toNat
  (0x9 ≤ n && n ≤ 0xD) || n == 0x20 || n == 0x85 || n == 0xA0 || n == 0x1680 ||
    (0x2000 ≤ n && n ≤ 0x200A) || n == 0x2028 || n == 0x2029 || n == 0x202F || n == 0x205F ||
    n == 0x3000

/-- Number of bytes that a text takes in UTF-8. -/
def byteLength : List Char → Nat
  | [] => 0
  | c :: text => c.utf8Size + byteLength text

@[simp] theorem byteLength_nil : byteLength [] = 0 := rfl

@[simp] theorem byteLength_cons (c : Char) (text : List Char) :
    byteLength (c :: text) = c.utf8Size + byteLength text := rfl

@[simp] theorem byteLength_append (left right : List Char) :
    byteLength (left ++ right) = byteLength left + byteLength right := by
  induction left with
  | nil => simp
  | cons c left ih => simp [ih, Nat.add_assoc]

/-- What remains of `text` after `opening`, if it starts with `opening`. -/
def after? (opening text : List Char) : Option (List Char) :=
  if opening.isPrefixOf text then some (text.drop opening.length) else none

theorem after?_eq_some_iff {opening text rest : List Char} :
    after? opening text = some rest ↔ text = opening ++ rest := by
  unfold after?
  split
  · rename_i h
    obtain ⟨tail, rfl⟩ := List.isPrefixOf_iff_prefix.mp h
    simp
  · rename_i h
    constructor
    · intro hnone
      cases hnone
    · intro heq
      exact absurd (List.isPrefixOf_iff_prefix.mpr ⟨rest, heq.symm⟩) h

/-- Drops the longest run of characters satisfying `p` at the end of a text. -/
def dropEndWhile (p : Char → Bool) : List Char → List Char
  | [] => []
  | c :: text =>
      match dropEndWhile p text with
      | [] => if p c then [] else [c]
      | kept => c :: kept

/-- Drops trailing white space. -/
def trimEnd (text : List Char) : List Char := dropEndWhile isWhiteSpace text

/-- Drops white space at both ends. -/
def trim (text : List Char) : List Char := (trimEnd text).dropWhile isWhiteSpace

/-- The part of a line before its comment, which starts at the first `#`. -/
def codePart (line : List Char) : List Char := line.takeWhile (· != '#')

/-- The spaces and tabs that a line starts with. -/
def leadingBlanks (line : List Char) : List Char := line.takeWhile isBlank

/-- What follows the leading blanks of a line. -/
def afterBlanks (line : List Char) : List Char := line.dropWhile isBlank

/-- A line says nothing if only white space stands before its comment. -/
def saysNothing (line : List Char) : Bool := (codePart line).all isWhiteSpace

end TapePuzzle
