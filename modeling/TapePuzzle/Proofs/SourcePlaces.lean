import TapePuzzle.Proofs.Reading.LineByLine
import TapePuzzle.Proofs.Reading.TreePlaces

/-!
# Where statements stand in a program text

A statement is read from a line without its comment and its trailing white space, at the number of
the line. Main statement: every statement of a program text stands, with all its parts, on the line
of the text that has its place in the text segment.
-/

namespace TapePuzzle

open Cursor

/-- A statement is read from a line without its comment, and stands on the whole line. -/
theorem standsOn_of_readLineAt {names : Names} {ind : Indentation} {line : SourceLine} {depth : Nat}
    {statement : Statement} (h : readLineAt names ind line = .ok (.code depth statement)) :
    statement.StandsOn line.number line.text := by
  have hcode : line.code <+: line.text :=
    (dropEndWhile_isPrefix _ _).trans (codePart_isPrefix _)
  cases hsilent : isSilent line with
  | true =>
      rw [readLineAt_of_isSilent names hsilent] at h
      cases h
  | false =>
      rw [readLineAt_eq names ind hsilent] at h
      split at h
      · cases h
      · unfold readPlaced at h
        split at h
        · cases h
        · obtain ⟨read, hread, h⟩ := bind_eq_ok_iff.mp h
          cases h
          have hstands := standsOn_of_readStatement hread
          rw [line_skipBlanks] at hstands
          exact hstands.of_isPrefix hcode

theorem exists_of_getElem?_linesAt {names : Names} {ind : Indentation} {lines : List SourceLine}
    {index depth : Nat} {statement : Statement}
    (h : (linesAt names ind lines)[index]? = some (.code depth statement)) :
    ∃ line, lines[index]? = some line ∧ statement.StandsOn line.number line.text := by
  rw [linesAt, List.getElem?_map] at h
  obtain ⟨⟨before, line⟩, hplaced, h⟩ := Option.map_eq_some_iff.mp h
  refine ⟨line, ?_, ?_⟩
  · rw [← ind.map_snd_placed lines, List.getElem?_map, hplaced]
    rfl
  · dsimp only at h
    cases hread : readLineAt names before line with
    | error finding =>
        rw [hread] at h
        cases h
    | ok code =>
        rw [hread] at h
        obtain rfl : code = .code depth statement := h
        exact standsOn_of_readLineAt hread

/-- Every statement of a program stands, with all its parts, on the line of the program text that it
    is read from. -/
theorem Program.statements_stand_on_their_lines {text : List Char} {index depth : Nat}
    {statement : Statement}
    (h : (Program.read text).lines[index]? = some (.code depth statement)) :
    ∃ line, lineText? (sourceLines text) ((Program.read text).textOffset + 1 + index) = some line ∧
      statement.StandsOn ((Program.read text).textOffset + 1 + index) line := by
  cases hlayout : Layout.ofLines (sourceLines text) with
  | error finding =>
      rw [Program.read, Program.ofLines, hlayout] at h
      cases h
  | ok layout =>
      rw [Program.lines_read hlayout] at h
      obtain ⟨line, hline, hstands⟩ := exists_of_getElem?_linesAt h
      obtain ⟨above, marker, hlines, -, -, habove⟩ := Layout.exists_above_text hlayout
      have hoffset : (Program.read text).textOffset = layout.textLine := by
        rw [Program.read_of_layout hlayout]
        rfl
      have hsource : (sourceLines text)[layout.textLine + index]? = some line := by
        rw [hlines, habove, List.getElem?_append_right (Nat.le_add_right _ _),
          Nat.add_sub_cancel_left, hline]
      have hnumber : line.number = (Program.read text).textOffset + 1 + index := by
        rw [number_of_getElem?_sourceLines hsource, hoffset]
        omega
      refine ⟨line.text, ?_, hnumber ▸ hstands⟩
      rw [← hnumber]
      exact lineText?_of_mem (List.mem_of_getElem? hsource)

/-- A program text with an indented line that ends in a comment. -/
def commentedText : List Char :=
  "tally 1\n.data\ntapelength 2\n0 a\n1 b\n.text\nif (b):\n\ta[b] = (b+2)*3 # né\n".toList

/-- The statement on its last line. -/
def commentedStatement : Statement where
  action := .assign
    ⟨⟨"a", ⟨8, 2, 3⟩⟩, some (.slot ⟨"b", ⟨8, 4, 5⟩⟩ ⟨8, 4, 5⟩ ⟨8, 4, 5⟩), ⟨8, 2, 6⟩⟩
    (.binary
      (.binary (.slot ⟨"b", ⟨8, 10, 11⟩⟩ ⟨8, 10, 11⟩ ⟨8, 10, 11⟩) .add (.number 2 ⟨8, 12, 13⟩)
        ⟨8, 9, 14⟩)
      .multiply (.number 3 ⟨8, 15, 16⟩) ⟨8, 9, 16⟩)
  span := ⟨8, 2, 16⟩

theorem Program.statements_stand_on_their_lines_commentedText :
    (Program.read commentedText).lines[1]? = some (.code 1 commentedStatement) ∧
      ∃ line, lineText? (sourceLines commentedText)
          ((Program.read commentedText).textOffset + 1 + 1) = some line ∧
        commentedStatement.StandsOn ((Program.read commentedText).textOffset + 1 + 1) line := by
  have hread : (Program.read commentedText).lines[1]? = some (.code 1 commentedStatement) := by
    decide +kernel
  exact ⟨hread, Program.statements_stand_on_their_lines hread⟩

end TapePuzzle
