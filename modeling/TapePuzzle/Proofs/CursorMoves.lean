import TapePuzzle.Proofs.Reading.Bytes
import TapePuzzle.Proofs.Reading.Places

/-!
# Moves of a cursor

A cursor can also be kept as a number of bytes into the bytes of a line. Nothing then prevents a
position within a character, and a line cut there is an error. Main statement: if moves go back to
former positions only, then no cut fails, both kinds of cursor go through the same positions and
give the same answers, and each match is the longest that there is.
-/

namespace TapePuzzle

/-- What can be asked of a cursor. -/
inductive Move where
  /-- Pass a match of the pattern, if there is one. -/
  | eat (pattern : Pattern)
  /-- Tell whether the pattern matches. -/
  | peek (pattern : Pattern)
  | skipBlanks
  /-- Go to a position. -/
  | reset (position : Nat)
  deriving DecidableEq, Repr

/-- The positions that the move may go to directly are among the given ones. -/
def Move.ResetsTo (positions : List Nat) : Move → Prop
  | reset position => position ∈ positions
  | _ => True

instance (positions : List Nat) : (move : Move) → Decidable (move.ResetsTo positions)
  | .eat _ => isTrue trivial
  | .peek _ => isTrue trivial
  | .skipBlanks => isTrue trivial
  | .reset position => inferInstanceAs (Decidable (position ∈ positions))

namespace Cursor

/-- The answer to a move, and the cursor after it. What cannot fail is answered by `true`. -/
def obey (c : Cursor) : Move → Bool × Cursor
  | .eat pattern =>
      match c.eat? pattern with
      | some past => (true, past)
      | none => (false, c)
  | .peek pattern => (c.sees pattern, c)
  | .skipBlanks => (true, c.skipBlanks)
  | .reset position => (true, c.moveTo position)

/-- The answers to moves one after the other, and the cursor after them. -/
def run (c : Cursor) : List Move → List Bool × Cursor
  | [] => ([], c)
  | move :: moves =>
      let (answer, next) := c.obey move
      let (answers, last) := next.run moves
      (answer :: answers, last)

/-- The moves go back only to positions that the cursor had before, or to given ones. -/
def Retraces (c : Cursor) (former : List Nat) : List Move → Prop
  | [] => True
  | move :: moves =>
      move.ResetsTo (c.offset :: former) ∧ (c.obey move).2.Retraces (c.offset :: former) moves

instance decidableRetraces (c : Cursor) (former : List Nat) :
    (moves : List Move) → Decidable (c.Retraces former moves)
  | [] => isTrue trivial
  | move :: moves =>
      have := decidableRetraces (c.obey move).2 (c.offset :: former) moves
      inferInstanceAs (Decidable (move.ResetsTo (c.offset :: former) ∧
        (c.obey move).2.Retraces (c.offset :: former) moves))

end Cursor

/-- A position in the bytes of a line. -/
structure ByteCursor where
  lineNumber : Nat
  line : List UInt8
  /-- Bytes before the position. -/
  position : Nat
  /-- The bytes of the latest match. -/
  matched : List UInt8
  deriving DecidableEq, Repr

namespace ByteCursor

/-- The bytes from the position on, if the line can be cut there. -/
def rest? (c : ByteCursor) : Option (List UInt8) := slice? c.line c.position c.line.length

/-- Moves past a match of the pattern and keeps its bytes. No result means that a cut fails. -/
def eat? (pattern : Pattern) (c : ByteCursor) : Option (Bool × ByteCursor) := do
  let rest ← c.rest?
  match pattern.matchLength? rest with
  | none => some (false, c)
  | some bytes =>
      let found ← slice? c.line c.position (c.position + bytes)
      some (true, { c with position := c.position + bytes, matched := found })

/-- Moves to byte `position` of the line, or to its end if the line is shorter. -/
def moveTo (c : ByteCursor) (position : Nat) : ByteCursor :=
  { c with position := min position c.line.length }

/-- The answer to a move and the cursor after it, unless a cut fails. -/
def obey? (c : ByteCursor) : Move → Option (Bool × ByteCursor)
  | .eat pattern => c.eat? pattern
  | .peek pattern => do
      let rest ← c.rest?
      some ((pattern.matchLength? rest).isSome, c)
  | .skipBlanks => do
      let (_, past) ← c.eat? .blanks
      some (true, { past with matched := c.matched })
  | .reset position => some (true, c.moveTo position)

/-- The answers to moves one after the other and the cursor after them, unless a cut fails. -/
def run? (c : ByteCursor) : List Move → Option (List Bool × ByteCursor)
  | [] => some ([], c)
  | move :: moves => do
      let (answer, next) ← c.obey? move
      let (answers, last) ← next.run? moves
      some (answer :: answers, last)

/-- The start of a line. -/
def start (lineNumber : Nat) (line : List UInt8) : ByteCursor := ⟨lineNumber, line, 0, []⟩

end ByteCursor

namespace Cursor

variable {c : Cursor} {pattern : Pattern} {former : List Nat} {moves : List Move} {move : Move}

/-- The same position in the bytes of the line. -/
def toBytes (c : Cursor) : ByteCursor := ⟨c.lineNumber, utf8 c.line, c.offset, utf8 c.matched⟩

/-! ## One move -/

theorem isBoundary_offset {text : List Char} (h : c.line = text) :
    isBoundary (utf8 text) c.offset = true :=
  h ▸ isBoundary_byteLength c.passed c.rest

theorem rest?_toBytes (c : Cursor) : c.toBytes.rest? = some (utf8 c.rest) := by
  have hslice := slice?_utf8 c.passed c.rest []
  rw [List.append_nil] at hslice
  rw [ByteCursor.rest?, toBytes, length_utf8]
  exact hslice

theorem eat?_toBytes (c : Cursor) (pattern : Pattern) :
    c.toBytes.eat? pattern =
      some ((c.obey (.eat pattern)).1, (c.obey (.eat pattern)).2.toBytes) := by
  have hagrees := pattern.agreesOn c.rest
  simp only [ByteCursor.eat?, rest?_toBytes, Option.bind_eq_bind, Option.bind_some, obey, eat?]
  rw [hagrees]
  cases hsplit : pattern.split? c.rest with
  | none => rfl
  | some parts =>
      obtain ⟨found, rest⟩ := parts
      have hline : c.line = c.passed ++ found ++ rest := by
        rw [line, ← Pattern.append_of_split? hsplit, List.append_assoc]
      have hslice := slice?_utf8 c.passed found rest
      rw [← hline, byteLength_append] at hslice
      simp only [Option.map_some, toBytes, offset, hslice, Option.bind_some, byteLength_append]
      rw [hline, line]

theorem splitBytes_byteLength (front back : List Char) :
    splitBytes (byteLength front) (front ++ back) = (front, back) := by
  induction front with
  | nil =>
      cases back with
      | nil => rfl
      | cons c back =>
          have hpos := c.utf8Size_pos
          rw [List.nil_append, splitBytes, if_neg (by simp; omega)]
  | cons c front ih =>
      rw [List.cons_append, splitBytes, byteLength_cons, if_pos (Nat.le_add_right _ _),
        Nat.add_sub_cancel_left, ih]

theorem toBytes_moveTo {position : Nat} (h : isBoundary (utf8 c.line) position = true) :
    (c.moveTo position).toBytes = c.toBytes.moveTo position := by
  obtain ⟨front, back, hline, rfl⟩ := isBoundary_utf8_iff.mp h
  have hsplit := splitBytes_byteLength front back
  rw [hline] at hsplit
  have hle : byteLength front ≤ byteLength c.line := by simp [← hline]
  simp only [toBytes, ByteCursor.moveTo, line_moveTo, length_utf8, Nat.min_eq_left hle]
  simp only [moveTo, hsplit, offset]

/-- Skipping blanks is matching them, the latest match apart. -/
theorem skipBlanks_eq (c : Cursor) :
    c.skipBlanks = { (c.obey (.eat .blanks)).2 with matched := c.matched } := by
  simp only [obey, eat?, Pattern.split?]
  cases hblanks : leadingBlanks c.rest with
  | nil =>
      have hrest : afterBlanks c.rest = c.rest := by
        have happend : leadingBlanks c.rest ++ afterBlanks c.rest = c.rest :=
          List.takeWhile_append_dropWhile
        rwa [hblanks] at happend
      simp [skipBlanks, hblanks, hrest]
  | cons blank more => simp [skipBlanks, hblanks]

/-- On bytes a move does the same, and no cut fails. -/
theorem obey?_toBytes {boundaries : List Nat}
    (h : ∀ position ∈ boundaries, isBoundary (utf8 c.line) position = true)
    (hmove : move.ResetsTo boundaries) :
    c.toBytes.obey? move = some ((c.obey move).1, (c.obey move).2.toBytes) := by
  cases move with
  | eat pattern => exact c.eat?_toBytes pattern
  | peek pattern =>
      have hagrees := pattern.agreesOn c.rest
      simp only [ByteCursor.obey?, rest?_toBytes, Option.bind_eq_bind, Option.bind_some, obey, sees]
      rw [hagrees, Option.isSome_map]
  | skipBlanks =>
      simp only [ByteCursor.obey?, eat?_toBytes, Option.bind_eq_bind, Option.bind_some]
      rw [show c.obey .skipBlanks = (true, c.skipBlanks) from rfl, skipBlanks_eq]
      rfl
  | reset position =>
      rw [ByteCursor.obey?, obey, toBytes_moveTo (h position hmove)]

theorem line_obey (c : Cursor) (move : Move) : (c.obey move).2.line = c.line := by
  cases move with
  | eat pattern =>
      rw [obey]
      split
      · rename_i past hpast
        exact line_of_eat? hpast
      · rfl
  | peek pattern => rfl
  | skipBlanks => exact line_skipBlanks c
  | reset position => exact line_moveTo c position

/-! ## Any moves -/

theorem line_run (c : Cursor) (moves : List Move) : (c.run moves).2.line = c.line := by
  induction moves generalizing c with
  | nil => rfl
  | cons move moves ih => exact (ih _).trans (c.line_obey move)

/-- On bytes moves do the same, and no cut fails. Every former position is a boundary, so that the
    line can be cut again where it was cut before. -/
theorem run?_toBytes
    (hformer : ∀ position ∈ former, isBoundary (utf8 c.line) position = true)
    (h : c.Retraces former moves) :
    c.toBytes.run? moves = some ((c.run moves).1, (c.run moves).2.toBytes) := by
  induction moves generalizing c former with
  | nil => rfl
  | cons move moves ih =>
      obtain ⟨hmove, hmoves⟩ := h
      have hboundaries : ∀ position ∈ c.offset :: former,
          isBoundary (utf8 c.line) position = true := by
        intro position hposition
        rcases List.mem_cons.mp hposition with rfl | hposition
        · exact isBoundary_offset rfl
        · exact hformer position hposition
      have hnext := ih (c.line_obey move ▸ hboundaries) hmoves
      simp only [ByteCursor.run?, obey?_toBytes hboundaries hmove, Option.bind_eq_bind,
        Option.bind_some, hnext, run]

/-! ## What moves do -/

/-- What the moves do at a position of a line. -/
structure MovesAlong (c : Cursor) : Prop where
  /-- A match is found if there is one. -/
  eat_iff : ∀ pattern, (c.obey (.eat pattern)).1 = true ↔
    ∃ found rest, found ++ rest = c.rest ∧ pattern.Takes found rest
  /-- The longest match is passed, and it is kept. -/
  eat_longest : ∀ pattern past, c.obey (.eat pattern) = (true, past) →
    ∃ found rest, pattern.TakesLongest c.rest found rest ∧
      past = { c with passed := c.passed ++ found, rest := rest, matched := found }
  eat_failed : ∀ pattern past, c.obey (.eat pattern) = (false, past) → past = c
  peek : ∀ pattern, c.obey (.peek pattern) = ((c.obey (.eat pattern)).1, c)
  /-- All blanks at the position are passed, and the latest match is kept. -/
  skipBlanks : ∃ skipped rest, skipped ++ rest = c.rest ∧ (∀ b ∈ skipped, isBlank b = true) ∧
    Stops isBlank rest ∧
      c.obey .skipBlanks = (true, { c with passed := c.passed ++ skipped, rest := rest })

theorem obey_eat_eq_true_iff {past : Cursor} :
    c.obey (.eat pattern) = (true, past) ↔ c.eat? pattern = some past := by
  rw [obey]
  split
  · rename_i hpast
    simp [hpast]
  · rename_i hpast
    simp [hpast]

theorem movesAlong (c : Cursor) : c.MovesAlong where
  eat_iff := by
    intro pattern
    rw [← Pattern.isSome_split?_iff, obey, eat?]
    cases pattern.split? c.rest with
    | none => simp
    | some parts => simp
  eat_longest := by
    intro pattern past h
    obtain ⟨⟨found, rest⟩, hsplit, rfl⟩ := Option.map_eq_some_iff.mp (obey_eat_eq_true_iff.mp h)
    exact ⟨found, rest, Pattern.takesLongest_of_split? hsplit, rfl⟩
  eat_failed := by
    intro pattern past h
    rw [obey] at h
    split at h
    · cases h
    · cases h
      rfl
  peek := by
    intro pattern
    rw [obey, obey, sees, eat?]
    cases pattern.split? c.rest with
    | none => rfl
    | some parts => rfl
  skipBlanks :=
    ⟨leadingBlanks c.rest, afterBlanks c.rest, List.takeWhile_append_dropWhile,
      fun _ => List.mem_takeWhile_imp, stops_dropWhile isBlank c.rest, rfl⟩

/-- Whatever moves are made from a boundary of a line, as long as they go back to former positions
    only: on bytes no cut fails, the answers are the same, the position is a boundary of the line,
    and there the moves do what they should. -/
theorem run_stays_on_boundaries (lineNumber : Nat) (text : List Char) {position : Nat}
    (hposition : isBoundary (utf8 text) position = true) {moves : List Move}
    (hmoves : ((start lineNumber text).moveTo position).Retraces [] moves) :
    ∃ answers c, ((start lineNumber text).moveTo position).run moves = (answers, c) ∧
      ((ByteCursor.start lineNumber (utf8 text)).moveTo position).run? moves =
        some (answers, c.toBytes) ∧
      c.line = text ∧ isBoundary (utf8 text) c.offset = true ∧ c.offset ≤ byteLength text ∧
      c.MovesAlong := by
  have hstart : ((start lineNumber text).moveTo position).toBytes =
      (ByteCursor.start lineNumber (utf8 text)).moveTo position := toBytes_moveTo hposition
  have hline : (((start lineNumber text).moveTo position).run moves).2.line = text :=
    (line_run _ moves).trans (line_moveTo (start lineNumber text) position)
  have hend := offset_le (((start lineNumber text).moveTo position).run moves).2
  rw [hline] at hend
  refine ⟨_, _, rfl, ?_, hline, isBoundary_offset hline, hend, movesAlong _⟩
  rw [← hstart]
  exact run?_toBytes (fun _ h => absurd h List.not_mem_nil) hmoves

/-- A line with characters of two and of three bytes. -/
def wideLine : List Char := ['é', ' ', '-', '7', '\t', '€', 'x']

/-- Moves that go back to the start of the number and from there beyond it. -/
def thereAndBack : List Move :=
  [.skipBlanks, .eat .integer, .eat .endOfLine, .reset 3, .peek .identifier,
    .eat (.literal "-7\t€")]

theorem run_stays_on_boundaries_wideLine :
    isBoundary (utf8 wideLine) 2 = true ∧
      ((start 1 wideLine).moveTo 2).Retraces [] thereAndBack ∧
      ∃ answers c, ((start 1 wideLine).moveTo 2).run thereAndBack = (answers, c) ∧
        ((ByteCursor.start 1 (utf8 wideLine)).moveTo 2).run? thereAndBack =
          some (answers, c.toBytes) ∧
        c.line = wideLine ∧ isBoundary (utf8 wideLine) c.offset = true ∧
        c.offset ≤ byteLength wideLine ∧ c.MovesAlong :=
  ⟨by decide, by decide, run_stays_on_boundaries 1 wideLine (by decide) (by decide)⟩

end Cursor

end TapePuzzle
