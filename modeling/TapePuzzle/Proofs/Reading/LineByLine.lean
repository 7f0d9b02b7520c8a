import Mathlib.Data.List.TakeWhile
import TapePuzzle.Proofs.Reading.Causes
import TapePuzzle.Proofs.Reading.TextLines

/-!
# Reading line by line

All that a line passes on to the lines below it is the indentation, and all that counts for this are
its leading blanks and its first word. So a text segment is read by giving every line the
indentation before it and reading each line alone. Main statements: the lines of a program and the
findings of a text segment, put together from what is read of single lines.
-/

namespace TapePuzzle

/-! ## Single lines -/

/-- What is read as the statement of a line. -/
def SourceLine.code (line : SourceLine) : List Char := trimEnd (codePart line.text)

/-- The block that a line opens by its first word. -/
def SourceLine.opener? (line : SourceLine) : Option BlockKind :=
  (Cursor.start line.number line.code).skipBlanks.opener?

theorem mem_dropEndWhile {p : Char → Bool} {c : Char} (hc : p c = false) {text : List Char}
    (h : c ∈ text) : c ∈ dropEndWhile p text := by
  induction text with
  | nil => cases h
  | cons first text ih =>
      rw [dropEndWhile]
      rcases List.mem_cons.mp h with rfl | hmem
      · split
        · simp [hc]
        · exact List.mem_cons_self
      · have hkept := ih hmem
        split
        · rename_i hnil
          rw [hnil] at hkept
          cases hkept
        · exact List.mem_cons_of_mem _ hkept

/-- The blanks in front of a statement are those in front of its line. -/
theorem SourceLine.leadingBlanks_code {line : SourceLine} (h : isSilent line = false) :
    leadingBlanks line.code = leadingBlanks line.text := by
  obtain ⟨hstatement, -⟩ := Bool.or_eq_false_iff.mp h
  obtain ⟨c, hmem, hc⟩ := List.all_eq_false.mp hstatement
  have hcode : c ∈ line.code := mem_dropEndWhile (by simpa using hc) hmem
  have hblank : isBlank c = false := by
    by_cases hblank : isBlank c = true
    · exact absurd (isWhiteSpace_of_isBlank hblank) hc
    · simpa using hblank
  obtain ⟨rest, hrest⟩ : line.code <+: line.text :=
    (dropEndWhile_isPrefix _ _).trans (codePart_isPrefix _)
  rw [leadingBlanks, leadingBlanks, ← hrest, List.takeWhile_append, if_neg]
  intro hlength
  -- the statement would be nothing but blanks
  have hall := List.takeWhile_eq_self_iff.mp
    ((List.takeWhile_prefix isBlank).eq_of_length hlength) c hcode
  rw [hblank] at hall
  cases hall

namespace Indentation

/-- Whether the leading blanks of a line are accepted. -/
def accepts (ind : Indentation) (line : SourceLine) : Bool :=
  (ind.track (leadingBlanks line.text)).1.toBool

/-- The indentation behind a line. -/
def pass (ind : Indentation) (line : SourceLine) : Indentation :=
  if isSilent line then ind
  else
    { (ind.track (leadingBlanks line.text)).2 with
      pending := if ind.accepts line then line.opener? else none }

/-- Where the header stands, behind a line, that a block is due after. -/
def headerBehind (ind : Indentation) (line : SourceLine) (header? : Option Span) : Option Span :=
  if !isSilent line && (ind.pass line).pending.isSome then
    some ⟨line.number, 1, byteLength line.code + 1⟩
  else header?

variable {ind : Indentation} {line : SourceLine}

theorem pass_of_isSilent (h : isSilent line = true) : ind.pass line = ind := by
  rw [pass, if_pos h]

theorem pending_pass (h : isSilent line = false) :
    (ind.pass line).pending = if ind.accepts line then line.opener? else none := by
  simp [pass, h]

/-- The names of a program have no part in its indentation. -/
theorem snd_readCodeLine (ind : Indentation) (names : Names) (h : isSilent line = false) :
    (readCodeLine names ind line.number line.code).2 = ind.pass line := by
  simp only [readCodeLine, line.leadingBlanks_code h]
  -- nothing is due behind the leading blanks, so what is due behind the line is what it opens
  split
  · rename_i issue tracked htrack
    have hnone := ind.pending_track (leadingBlanks line.text)
    rw [htrack] at hnone
    simp [pass, accepts, h, htrack, Except.toBool, ← hnone]
  · rename_i placement tracked htrack
    have hnone := ind.pending_track (leadingBlanks line.text)
    rw [htrack] at hnone
    have hpass : ind.pass line = { tracked with pending := line.opener? } := by
      simp [pass, accepts, h, htrack, Except.toBool]
    rw [hpass, SourceLine.opener?]
    split
    · rename_i kind hopener
      rw [hopener]
      rfl
    · rename_i hopener
      rw [hopener, ← hnone]

end Indentation

/-- What is read of a line that stands behind the indentation `ind`. -/
def readLineAt (names : Names) (ind : Indentation) (line : SourceLine) : Checked Line :=
  if isSilent line then .ok .silent else (readCodeLine names ind line.number line.code).1

/-- What a line comes to: nothing if it is refused. -/
def lineOf : Checked Line → Line
  | .ok line => line
  | .error _ => .silent

/-- What is wrong with a line. -/
def refusalOf : Checked Line → List Finding
  | .ok _ => []
  | .error finding => [finding]

theorem readTextLines_cons (names : Names) (ind : Indentation) (header? : Option Span)
    (line : SourceLine) (lines : List SourceLine) :
    readTextLines names ind header? (line :: lines) =
      let rest := readTextLines names (ind.pass line) (ind.headerBehind line header?) lines
      (lineOf (readLineAt names ind line) :: rest.1,
        refusalOf (readLineAt names ind line) ++ rest.2) := by
  rw [readTextLines]
  by_cases hsilent : isSilent line = true
  · simp [readLineAt, Indentation.headerBehind, Indentation.pass_of_isSilent hsilent, hsilent,
      lineOf, refusalOf]
  · have hsilent : isSilent line = false := by simpa using hsilent
    have hpass := ind.snd_readCodeLine names hsilent
    rw [SourceLine.code] at hpass
    simp only [readLineAt, Indentation.headerBehind, hsilent, hpass, SourceLine.code]
    cases (readCodeLine names ind line.number (trimEnd (codePart line.text))).1 <;> rfl

/-! ## All lines -/

namespace Indentation

/-- Each line with the indentation before it. -/
def placed (ind : Indentation) : List SourceLine → List (Indentation × SourceLine)
  | [] => []
  | line :: lines => (ind, line) :: (ind.pass line).placed lines

theorem placed_append (ind : Indentation) (front back : List SourceLine) :
    ind.placed (front ++ back) = ind.placed front ++ (front.foldl pass ind).placed back := by
  induction front generalizing ind with
  | nil => rfl
  | cons line front ih => simp [placed, ih]

theorem map_snd_placed (ind : Indentation) (lines : List SourceLine) :
    (ind.placed lines).map Prod.snd = lines := by
  induction lines generalizing ind with
  | nil => rfl
  | cons line lines ih => simp [placed, ih]

/-- What is wrong behind the last line: a block is due after the latest header. -/
def missing (ind : Indentation) (header? : Option Span) : List SourceLine → List Finding
  | [] => missingBlock? ind header?
  | line :: lines => (ind.pass line).missing (ind.headerBehind line header?) lines

/-- What is wrong if the text ends with a line, as far as statements go. -/
def missingAfter (ind : Indentation) (line : SourceLine) : List Finding :=
  match (ind.pass line).pending with
  | some kind => [⟨.missingBlock kind, ⟨line.number, 1, byteLength line.code + 1⟩⟩]
  | none => []

theorem missing_of_isSilent (ind : Indentation) (header? : Option Span) {lines : List SourceLine}
    (h : ∀ line ∈ lines, isSilent line = true) :
    ind.missing header? lines = missingBlock? ind header? := by
  induction lines with
  | nil => rfl
  | cons line lines ih =>
      obtain ⟨hline, hlines⟩ := List.forall_mem_cons.mp h
      have hheader : ind.headerBehind line header? = header? := by simp [headerBehind, hline]
      rw [missing, pass_of_isSilent hline, hheader, ih hlines]

theorem code_of_mem_missing {ind : Indentation} {header? : Option Span} {lines : List SourceLine}
    {finding : Finding} (h : finding ∈ ind.missing header? lines) :
    finding.issue.code = missingBlockCode := by
  induction lines generalizing ind header? with
  | nil =>
      simp only [missing, missingBlock?] at h
      split at h
      · rw [List.mem_singleton.mp h]
        rfl
      · cases h
  | cons line lines ih => exact ih h

theorem span_of_mem_missingAfter {ind : Indentation} {line : SourceLine} {finding : Finding}
    (h : finding ∈ ind.missingAfter line) : finding.span.line = line.number := by
  unfold missingAfter at h
  split at h
  · rw [List.mem_singleton.mp h]
  · cases h

/-- The last line with a statement decides which block is missing. -/
theorem missing_of_last (ind : Indentation) (header? : Option Span) (above : List SourceLine)
    {line : SourceLine} {below : List SourceLine} (hline : isSilent line = false)
    (hbelow : ∀ other ∈ below, isSilent other = true) :
    ind.missing header? (above ++ line :: below) =
      (above.foldl pass ind).missingAfter line := by
  induction above generalizing ind header? with
  | nil =>
      rw [List.nil_append, missing, missing_of_isSilent _ _ hbelow, List.foldl_nil]
      cases hpending : (ind.pass line).pending <;>
        simp [headerBehind, missingAfter, missingBlock?, hline, hpending]
  | cons first above ih => exact ih _ _

end Indentation

theorem exists_last_statement (lines : List SourceLine) :
    (∀ line ∈ lines, isSilent line = true) ∨
      ∃ above line below, lines = above ++ line :: below ∧ isSilent line = false ∧
        ∀ other ∈ below, isSilent other = true := by
  induction lines with
  | nil => exact .inl (by simp)
  | cons first lines ih =>
      rcases ih with hsilent | ⟨above, line, below, rfl, hline, hbelow⟩
      · cases hfirst : isSilent first with
        | true => exact .inl (List.forall_mem_cons.mpr ⟨hfirst, hsilent⟩)
        | false => exact .inr ⟨[], first, lines, rfl, hfirst, hsilent⟩
      · exact .inr ⟨first :: above, line, below, rfl, hline, hbelow⟩

open Indentation

/-- What the lines come to. -/
def linesAt (names : Names) (ind : Indentation) (lines : List SourceLine) : List Line :=
  (ind.placed lines).map fun (ind, line) => lineOf (readLineAt names ind line)

/-- What is wrong with the lines themselves. -/
def refusals (names : Names) (ind : Indentation) (lines : List SourceLine) : List Finding :=
  (ind.placed lines).flatMap fun (ind, line) => refusalOf (readLineAt names ind line)

section Splitting

variable (names : Names) (ind : Indentation)

theorem readTextLines_eq_linesAt (header? : Option Span) (lines : List SourceLine) :
    readTextLines names ind header? lines =
      (linesAt names ind lines, refusals names ind lines ++ ind.missing header? lines) := by
  induction lines generalizing ind header? with
  | nil => rfl
  | cons line lines ih => simp [readTextLines_cons, linesAt, refusals, placed, missing, ih]

theorem length_linesAt (lines : List SourceLine) :
    (linesAt names ind lines).length = lines.length := by
  rw [linesAt, List.length_map, ← List.length_map Prod.snd, map_snd_placed]

theorem linesAt_append (above : List SourceLine) (line : SourceLine) (below : List SourceLine) :
    linesAt names ind (above ++ line :: below) =
      linesAt names ind above ++ lineOf (readLineAt names (above.foldl pass ind) line) ::
        linesAt names ((above.foldl pass ind).pass line) below := by
  simp [linesAt, placed_append, placed]

theorem refusals_append (above : List SourceLine) (line : SourceLine) (below : List SourceLine) :
    refusals names ind (above ++ line :: below) =
      refusals names ind above ++ (refusalOf (readLineAt names (above.foldl pass ind) line) ++
        refusals names ((above.foldl pass ind).pass line) below) := by
  simp [refusals, placed_append, placed]

end Splitting

/-! ## Refused lines -/

/-- A line with a statement is refused where it stands, for its leading blanks or for what it says,
    and not for a block that is missing after it. -/
structure IsRefusal (ind : Indentation) (line : SourceLine) (finding : Finding) : Prop where
  span : finding.span.line = line.number
  code : finding.issue.code ≠ missingBlockCode
  blanks : finding.issue.code ∈ blanksCodes ↔ ind.accepts line = false

section Refusals

variable {ind : Indentation} {line : SourceLine}

theorem readLineAt_of_isSilent (names : Names) (h : isSilent line = true) :
    readLineAt names ind line = .ok .silent := by
  rw [readLineAt, if_pos h]

theorem readLineAt_eq (names : Names) (ind : Indentation) (h : isSilent line = false) :
    readLineAt names ind line =
      match (ind.track (leadingBlanks line.text)).1 with
      | .error issue =>
          .error ⟨.indentation issue, (Cursor.start line.number line.code).skipBlanks.spanFrom 0⟩
      | .ok placement =>
          readPlaced names placement (Cursor.start line.number line.code).skipBlanks := by
  simp only [readLineAt, h, readCodeLine, line.leadingBlanks_code h]
  rcases ind.track (leadingBlanks line.text) with ⟨_ | _, _⟩ <;> rfl

/-- A line with a statement is read, or one thing is wrong with it. -/
theorem readLineAt_cases (names : Names) (ind : Indentation) (h : isSilent line = false) :
    ind.accepts line = true ∧
        (∃ depth statement, readLineAt names ind line = .ok (.code depth statement)) ∨
      ∃ finding, readLineAt names ind line = .error finding ∧ IsRefusal ind line finding := by
  rw [readLineAt_eq names ind h]
  have hskip := (Cursor.start line.number line.code).reaches_skipBlanks
  generalize (Cursor.start line.number line.code).skipBlanks = c at hskip ⊢
  cases htrack : (ind.track (leadingBlanks line.text)).1 with
  | error issue =>
      have haccepts : ind.accepts line = false := by rw [accepts, htrack]; rfl
      have hcode := IndentIssue.code_mem issue
      refine .inr ⟨_, rfl, ?_⟩
      exact ⟨hskip.lineNumber, hcode.1, iff_of_true hcode.2 haccepts⟩
  | ok placement =>
      have haccepts : ind.accepts line = true := by rw [accepts, htrack]; rfl
      have hplace := Cursor.Answers.of_reaches hskip (answers_readPlaced names placement c)
      have hspares := spares_readPlaced names placement c
      dsimp only
      cases hread : readPlaced names placement c with
      | ok code =>
          refine .inl ⟨haccepts, ?_⟩
          obtain ⟨statement, rfl, -⟩ := line_of_readPlaced hread
          exact ⟨placement.level, statement, rfl⟩
      | error finding =>
          rw [hread] at hplace hspares
          have hcode := Issue.code_of_not_isIndentation hspares
          refine .inr ⟨finding, rfl, ?_⟩
          exact ⟨hplace.line, hcode.1, iff_of_false hcode.2 (by simp [haccepts])⟩

theorem isRefusal_of_mem {names : Names} {finding : Finding}
    (h : finding ∈ refusalOf (readLineAt names ind line)) : IsRefusal ind line finding := by
  cases hsilent : isSilent line with
  | true =>
      rw [readLineAt_of_isSilent names hsilent] at h
      cases h
  | false =>
      rcases readLineAt_cases names ind hsilent with
        ⟨-, depth, statement, hread⟩ | ⟨found, hread, hrefusal⟩
      · rw [hread] at h
        cases h
      · rw [hread] at h
        rw [List.mem_singleton.mp h]
        exact hrefusal

/-- What is wrong with lines is wrong with one of them. -/
theorem exists_of_mem_refusals {names : Names} {lines : List SourceLine} {finding : Finding}
    (h : finding ∈ refusals names ind lines) :
    ∃ ind', ∃ line ∈ lines, IsRefusal ind' line finding := by
  obtain ⟨⟨ind', line⟩, hplaced, hfinding⟩ := List.mem_flatMap.mp h
  refine ⟨ind', line, ?_, isRefusal_of_mem hfinding⟩
  rw [← map_snd_placed ind lines]
  exact List.mem_map_of_mem hplaced

end Refusals

/-! ## Programs -/

section Programs

variable {text : List Char} {layout : Layout}
variable {above below : List SourceLine} {line : SourceLine}

/-- The lines around a line have other numbers. -/
theorem Layout.number_ne_of_split (h : Layout.ofLines (sourceLines text) = .ok layout)
    (hsplit : layout.text = above ++ line :: below) {other : SourceLine}
    (hother : other ∈ above ∨ other ∈ below) : other.number ≠ line.number := by
  obtain ⟨top, marker, hlines, -, -, -⟩ := Layout.exists_above_text h
  rcases hother with habove | hbelow
  · have hcut : sourceLines text = (top ++ [marker] ++ above) ++ line :: below := by
      simp [hlines, hsplit]
    have hle := number_le_of_mem_front hcut (List.mem_append_right _ habove)
    have hlt := lt_number_of_mem_back hcut List.mem_cons_self
    omega
  · have hcut : sourceLines text = (top ++ [marker] ++ above ++ [line]) ++ below := by
      simp [hlines, hsplit]
    have hle := number_le_of_mem_front hcut (List.mem_append_right _ List.mem_cons_self)
    have hlt := lt_number_of_mem_back hcut hbelow
    omega

theorem Program.lines_read (h : Layout.ofLines (sourceLines text) = .ok layout) :
    (Program.read text).lines = linesAt layout.declarations.names {} layout.text := by
  rw [Program.read_of_layout h, Program.ofLayout, readTextLines_eq_linesAt]

theorem Program.diagnostics_read (h : Layout.ofLines (sourceLines text) = .ok layout) :
    (Program.read text).diagnostics =
      (layout.declarations.findings ++
        (refusals layout.declarations.names {} layout.text ++
          Indentation.missing {} none layout.text)).map
        (Diagnostic.ofFinding (sourceLines text)) := by
  rw [Program.read_of_layout h, Program.ofLayout, readTextLines_eq_linesAt]

end Programs

end TapePuzzle
