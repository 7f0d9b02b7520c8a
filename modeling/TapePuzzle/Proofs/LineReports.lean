import TapePuzzle.Proofs.Reading.LineByLine

/-!
# What becomes of the lines of a text

A line of the text segment is read or reported, and it is reported once. The only other thing that
can be wrong is known at the end of the text: its last header has no block. Main statement: what is
read and what is reported of every line.
-/

namespace TapePuzzle

open Indentation

/-- The diagnostics that are about a line itself, and not about a block that is missing after it. -/
def Program.reportsOn (p : Program) (number : Nat) : List Diagnostic :=
  p.diagnostics.filter fun d => d.span.line = number ∧ d.code ≠ missingBlockCode

/-- The diagnostics about missing blocks. -/
def Program.missingBlocks (p : Program) : List Diagnostic :=
  p.diagnostics.filter fun d => d.code = missingBlockCode

/-- Whether the leading blanks of a line are accepted below the given lines of a text segment. -/
def Accepted (above : List SourceLine) (line : SourceLine) : Prop :=
  (above.foldl pass {}).accepts line = true

/-- The line is the last one with a statement, it opens a block, and its leading blanks are
    accepted. -/
def Layout.EndsInHeader (layout : Layout) (line : SourceLine) : Prop :=
  ∃ above below, layout.text = above ++ line :: below ∧
    isSilent line = false ∧ (∀ other ∈ below, isSilent other = true) ∧
    line.opener?.isSome = true ∧ Accepted above line

variable {text : List Char} {layout : Layout} {above below : List SourceLine} {line : SourceLine}

/-! ## Reports -/

/-- Whether a finding is about a line itself. -/
def Finding.isAbout (number : Nat) (finding : Finding) : Bool :=
  finding.span.line = number ∧ finding.issue.code ≠ missingBlockCode

theorem filter_isAbout_eq_nil {number : Nat} {findings : List Finding}
    (h : ∀ finding ∈ findings, finding.span.line ≠ number) :
    findings.filter (Finding.isAbout number) = [] := by
  apply List.filter_eq_nil_iff.mpr
  intro finding hfinding
  simp [Finding.isAbout, h finding hfinding]

/-- What is reported of a line is what its label and its statement are refused for. -/
theorem Program.reportsOn_read (h : Layout.ofLines (sourceLines text) = .ok layout)
    (hsplit : layout.text = above ++ line :: below) :
    (Program.read text).reportsOn line.number =
      (layout.declarations.findings.filter (Finding.isAbout line.number) ++
        refusalOf (readLineAt layout.declarations.names (above.foldl pass {}) line)).map
        (Diagnostic.ofFinding (sourceLines text)) := by
  have hothers : ∀ ind lines, (∀ other ∈ lines, other ∈ above ∨ other ∈ below) →
      (refusals layout.declarations.names ind lines).filter (Finding.isAbout line.number) = [] := by
    intro ind lines hlines
    apply filter_isAbout_eq_nil
    intro finding hfinding
    obtain ⟨ind', other, hother, hrefusal⟩ := exists_of_mem_refusals hfinding
    rw [hrefusal.span]
    exact Layout.number_ne_of_split h hsplit (hlines other hother)
  have hown : (refusalOf (readLineAt layout.declarations.names (above.foldl pass {}) line)).filter
        (Finding.isAbout line.number) =
      refusalOf (readLineAt layout.declarations.names (above.foldl pass {}) line) := by
    apply List.filter_eq_self.mpr
    intro finding hfinding
    have hrefusal := isRefusal_of_mem hfinding
    simp [Finding.isAbout, hrefusal.span, hrefusal.code]
  have hmissing : (Indentation.missing {} none layout.text).filter
      (Finding.isAbout line.number) = [] := by
    apply List.filter_eq_nil_iff.mpr
    intro finding hfinding
    simp [Finding.isAbout, code_of_mem_missing hfinding]
  rw [Program.reportsOn, Program.diagnostics_read h, List.filter_map]
  congr 1
  change List.filter (Finding.isAbout line.number) _ = _
  rw [List.filter_append, List.filter_append, hmissing, hsplit, refusals_append,
    List.filter_append, List.filter_append, hothers _ above fun _ => .inl, hown,
    hothers _ below fun _ => .inr]
  simp

/-! ## Labels -/

section Labels

open Declarations

/-- A label is refused once. -/
theorem Declarations.length_reports_readLabel_le (d : Declarations) (line : SourceLine)
    (index number : Nat) :
    ((d.readLabel line index).findings.filter (Finding.isAbout number)).length ≤
      (d.findings.filter (Finding.isAbout number)).length +
        if line.number = number ∧ (labelOf? line).isSome then 1 else 0 := by
  unfold readLabel
  split
  · exact Nat.le_add_right _ _
  · rename_i ident hident
    cases hcheck : d.checkName ident with
    | ok _ => exact Nat.le_add_right _ _
    | error finding =>
        have hspan : finding.span.line = line.number := by
          rw [span_of_checkName hcheck]
          exact (within_of_labelOf? hident).line
        have hnew : ([finding].filter (Finding.isAbout number)).length ≤
            if line.number = number ∧ (labelOf? line).isSome then 1 else 0 := by
          by_cases hnumber : line.number = number
          · rw [if_pos ⟨hnumber, by simp [hident]⟩]
            exact List.length_filter_le _ _
          · rw [filter_isAbout_eq_nil (by simpa [hspan] using hnumber)]
            exact Nat.zero_le _
        change (List.filter _ (d.findings ++ [finding])).length ≤ _
        rw [List.filter_append, List.length_append]
        exact Nat.add_le_add_left hnew _

theorem Declarations.length_reports_readLabels_le (d : Declarations) (lines : List SourceLine)
    (number : Nat) :
    ((d.readLabels lines).findings.filter (Finding.isAbout number)).length ≤
      (d.findings.filter (Finding.isAbout number)).length +
        lines.countP fun line => line.number = number ∧ (labelOf? line).isSome := by
  unfold readLabels
  generalize 0 = start
  induction lines generalizing d start with
  | nil => exact Nat.le_refl _
  | cons line lines ih =>
      have hline := d.length_reports_readLabel_le line start number
      have hrest := ih (d.readLabel line start) (start + 1)
      simp only [List.zipIdx_cons, List.foldl_cons, List.countP_cons, decide_eq_true_eq] at hrest ⊢
      omega

/-- Of the declarations, only the label of a line is reported on it. -/
theorem Layout.length_reports_declarations_le (h : Layout.ofLines (sourceLines text) = .ok layout)
    (hsplit : layout.text = above ++ line :: below) :
    (layout.declarations.findings.filter (Finding.isAbout line.number)).length ≤
      if (labelOf? line).isSome then 1 else 0 := by
  obtain ⟨top, marker, hlines, hdata, hnumber, -⟩ := Layout.exists_above_text h
  have hread : (DataSegment.read layout.data layout.textLine).StandOn (top ++ [marker]) := by
    rw [← hnumber]
    apply DataSegment.standOn_read
    · intro other hother
      exact List.mem_append_left _ (hdata other hother)
    · simp
  have hnone : (DataSegment.read layout.data layout.textLine).findings.filter
      (Finding.isAbout line.number) = [] := by
    apply filter_isAbout_eq_nil
    intro finding hfinding
    obtain ⟨other, hother, hwithin⟩ := hread.findings finding hfinding
    have hle := number_le_of_mem_front hlines hother
    have hlt : (top ++ [marker]).length < line.number :=
      lt_number_of_mem_back hlines (by simp [hsplit])
    rw [hwithin.line]
    omega
  have hcount : ∀ others : List SourceLine, (∀ other ∈ others, other ∈ above ∨ other ∈ below) →
      others.countP (fun other => other.number = line.number ∧ (labelOf? other).isSome) = 0 := by
    intro others hothers
    apply List.countP_eq_zero.mpr
    intro other hother
    simp [Layout.number_ne_of_split h hsplit (hothers other hother)]
  have hle := (DataSegment.read layout.data layout.textLine).length_reports_readLabels_le
    layout.text line.number
  rw [hnone, hsplit, List.countP_append, List.countP_cons, hcount above fun _ => .inl,
    hcount below fun _ => .inr] at hle
  rw [Layout.declarations, hsplit]
  simpa using hle

end Labels

theorem Program.missingBlocks_read (h : Layout.ofLines (sourceLines text) = .ok layout) :
    (Program.read text).missingBlocks =
      (Indentation.missing {} none layout.text).map (Diagnostic.ofFinding (sourceLines text)) := by
  have hdeclared : ∀ finding ∈ layout.declarations.findings,
      finding.issue.code ≠ missingBlockCode := by
    intro finding hfinding
    exact (Issue.code_of_not_isIndentation
      (layout.noIndentation_declarations finding hfinding)).1
  have hrefusals : ∀ finding ∈ refusals layout.declarations.names {} layout.text,
      finding.issue.code ≠ missingBlockCode := by
    intro finding hfinding
    obtain ⟨ind, line, -, hrefusal⟩ := exists_of_mem_refusals hfinding
    exact hrefusal.code
  have hmissing : ∀ finding ∈ Indentation.missing {} none layout.text,
      finding.issue.code = missingBlockCode := fun _ => code_of_mem_missing
  rw [Program.missingBlocks, Program.diagnostics_read h, List.filter_map]
  congr 1
  change List.filter (fun finding : Finding => finding.issue.code = missingBlockCode) _ = _
  rw [List.filter_append, List.filter_append, List.filter_eq_nil_iff.mpr (by simpa using hdeclared),
    List.filter_eq_nil_iff.mpr (by simpa using hrefusals),
    List.filter_eq_self.mpr (by simpa using hmissing)]
  rfl

/-! ## Missing blocks -/

theorem length_missing_le_one (ind : Indentation) (header? : Option Span)
    (lines : List SourceLine) : (ind.missing header? lines).length ≤ 1 := by
  induction lines generalizing ind header? with
  | nil =>
      simp only [missing, missingBlock?]
      split <;> simp
  | cons line lines ih => exact ih _ _

theorem exists_mem_missingAfter_iff {ind : Indentation} {number : Nat}
    (h : isSilent line = false) :
    (∃ finding ∈ ind.missingAfter line, finding.span.line = number) ↔
      ind.accepts line = true ∧ line.opener?.isSome = true ∧ line.number = number := by
  rw [missingAfter, pending_pass h]
  cases ind.accepts line with
  | false => simp
  | true => cases line.opener? <;> simp

/-- A block is missing exactly behind a header that the text ends in. -/
theorem Layout.exists_mem_missing_iff (layout : Layout) (number : Nat) :
    (∃ finding ∈ Indentation.missing {} none layout.text, finding.span.line = number) ↔
      ∃ line, layout.EndsInHeader line ∧ line.number = number := by
  constructor
  · intro hmissing
    rcases exists_last_statement layout.text with
      hsilent | ⟨above, line, below, hsplit, hline, hbelow⟩
    · rw [missing_of_isSilent _ _ hsilent] at hmissing
      obtain ⟨finding, hfinding, -⟩ := hmissing
      cases hfinding
    · rw [hsplit, missing_of_last _ _ _ hline hbelow, exists_mem_missingAfter_iff hline] at hmissing
      obtain ⟨haccepts, hopener, hnumber⟩ := hmissing
      exact ⟨line, ⟨above, below, hsplit, hline, hbelow, hopener, haccepts⟩, hnumber⟩
  · rintro ⟨line, ⟨above, below, hsplit, hline, hbelow, hopener, haccepts⟩, hnumber⟩
    rw [hsplit, missing_of_last _ _ _ hline hbelow, exists_mem_missingAfter_iff hline]
    exact ⟨haccepts, hopener, hnumber⟩

/-! ## All lines -/

theorem Layout.text_eq_drop (h : Layout.ofLines (sourceLines text) = .ok layout) :
    layout.text = (sourceLines text).drop layout.textLine := by
  obtain ⟨top, marker, hlines, -, -, htextLine⟩ := Layout.exists_above_text h
  rw [hlines, htextLine, List.drop_left]

/-- The line that stands below `above` is read where it stands. -/
theorem Program.getElem?_lines_read (h : Layout.ofLines (sourceLines text) = .ok layout)
    (hsplit : layout.text = above ++ line :: below) :
    (Program.read text).lines[above.length]? =
      some (lineOf (readLineAt layout.declarations.names (above.foldl pass {}) line)) := by
  rw [Program.lines_read h, hsplit, linesAt_append,
    List.getElem?_append_right (Nat.le_of_eq (length_linesAt _ _ _)), length_linesAt, Nat.sub_self]
  rfl

/-- A line without a statement is passed over, and reported at most for its label. -/
theorem Program.length_reportsOn_of_isSilent (h : Layout.ofLines (sourceLines text) = .ok layout)
    (hsplit : layout.text = above ++ line :: below) (hline : isSilent line = true) :
    ((Program.read text).reportsOn line.number).length ≤
      if (labelOf? line).isSome then 1 else 0 := by
  rw [Program.reportsOn_read h hsplit, readLineAt_of_isSilent _ hline, List.length_map]
  simpa [refusalOf] using Layout.length_reports_declarations_le h hsplit

/-- A line with a statement is reported exactly for what reading it found wrong. -/
theorem Program.reportsOn_of_not_isSilent (h : Layout.ofLines (sourceLines text) = .ok layout)
    (hsplit : layout.text = above ++ line :: below) (hline : isSilent line = false) :
    (Program.read text).reportsOn line.number =
      (refusalOf (readLineAt layout.declarations.names (above.foldl pass {}) line)).map
        (Diagnostic.ofFinding (sourceLines text)) := by
  have hlabel : (labelOf? line).isSome = false := (Bool.or_eq_false_iff.mp hline).2
  have hnone := Layout.length_reports_declarations_le h hsplit
  rw [hlabel] at hnone
  rw [Program.reportsOn_read h hsplit, List.eq_nil_of_length_eq_zero (Nat.le_zero.mp hnone)]
  rfl

/-- A line with a statement is read, or it is reported once. -/
theorem Program.read_or_reported (h : Layout.ofLines (sourceLines text) = .ok layout)
    (hsplit : layout.text = above ++ line :: below) (hline : isSilent line = false) :
    ∃ entry, (Program.read text).lines[above.length]? = some entry ∧
      (entry.isCode = true ↔ (Program.read text).reportsOn line.number = []) ∧
      (entry.isCode = false → ∃ report, (Program.read text).reportsOn line.number = [report]) ∧
      (Accepted above line ↔
        ∀ report ∈ (Program.read text).reportsOn line.number, report.code ∉ blanksCodes) := by
  refine ⟨_, Program.getElem?_lines_read h hsplit, ?_⟩
  rw [Program.reportsOn_of_not_isSilent h hsplit hline]
  rcases readLineAt_cases layout.declarations.names (above.foldl pass {}) hline with
    ⟨haccepts, depth, statement, hread⟩ | ⟨finding, hread, hrefusal⟩
  · rw [hread]
    refine ⟨iff_of_true rfl rfl, ?_, iff_of_true haccepts ?_⟩
    · intro hcode
      cases hcode
    · intro report hreport
      cases hreport
  · rw [hread]
    refine ⟨iff_of_false Bool.false_ne_true (List.cons_ne_nil _ _), fun _ => ⟨_, rfl⟩, ?_⟩
    have hcode : (Diagnostic.ofFinding (sourceLines text) finding).code ∉ blanksCodes ↔
        Accepted above line := by
      rw [Accepted, ← Bool.not_eq_false, ← hrefusal.blanks]
      rfl
    simp [refusalOf, hcode]

/-- Every line of a text segment has its entry in the program. A line without a statement is passed
    over, and reported at most for its label. Any other line is read, or it is reported once. A
    missing block is reported at most once: on the last line with a statement, exactly if this
    line opens a block and its leading blanks are accepted. -/
theorem every_line_is_read_or_reported (h : Layout.ofLines (sourceLines text) = .ok layout) :
    layout.text = (sourceLines text).drop (Program.read text).textOffset ∧
    (Program.read text).lines.length = layout.text.length ∧
    (∀ above line below, layout.text = above ++ line :: below →
      (isSilent line = true →
        (Program.read text).lines[above.length]? = some .silent ∧
          ((Program.read text).reportsOn line.number).length ≤
            if (labelOf? line).isSome then 1 else 0) ∧
      (isSilent line = false →
        ∃ entry, (Program.read text).lines[above.length]? = some entry ∧
          (entry.isCode = true ↔ (Program.read text).reportsOn line.number = []) ∧
          (entry.isCode = false →
            ∃ report, (Program.read text).reportsOn line.number = [report]) ∧
          (Accepted above line ↔
            ∀ report ∈ (Program.read text).reportsOn line.number, report.code ∉ blanksCodes))) ∧
    (Program.read text).missingBlocks.length ≤ 1 ∧
    ∀ number, (∃ report ∈ (Program.read text).missingBlocks, report.span.line = number) ↔
      ∃ line, layout.EndsInHeader line ∧ line.number = number := by
  have hoffset : (Program.read text).textOffset = layout.textLine := by
    rw [Program.read_of_layout h]
    rfl
  refine ⟨?_, ?_, ?_, ?_, ?_⟩
  · rw [hoffset]
    exact Layout.text_eq_drop h
  · rw [Program.lines_read h, length_linesAt]
  · intro above line below hsplit
    constructor
    · intro hline
      have hentry := Program.getElem?_lines_read h hsplit
      rw [readLineAt_of_isSilent _ hline] at hentry
      exact ⟨hentry, Program.length_reportsOn_of_isSilent h hsplit hline⟩
    · exact Program.read_or_reported h hsplit
  · rw [Program.missingBlocks_read h, List.length_map]
    exact length_missing_le_one _ _ _
  · intro number
    rw [Program.missingBlocks_read h, ← Layout.exists_mem_missing_iff]
    simp [Diagnostic.ofFinding]

/-- A text with a comment, a label that is declared again, two lines that are refused, two that are
    read, and a last header that is refused and has no block. -/
def unfinishedText : List Char :=
  ("tally 1\n.data\ntapelength 1\n0 a\n.text\n# start\ntop:\ntop:\na = 1 +\n  a = 2\nif (a):\n" ++
    "  a = 3\nwhile (a:\n\n").toList

theorem every_line_is_read_or_reported_unfinishedText :
    let p := Program.read unfinishedText
    p.diagnostics.map (fun d => (d.span.line, d.code)) =
        [(8, ⟨602⟩), (9, ⟨500⟩), (10, ⟨302⟩), (13, ⟨403⟩), (13, ⟨303⟩)] ∧
      p.lines.map Line.isCode = [false, false, false, false, false, true, true, false, false] ∧
      ∃ layout, Layout.ofLines (sourceLines unfinishedText) = .ok layout ∧
        layout.text = (sourceLines unfinishedText).drop 5 ∧ layout.text.length = 9 ∧
        ∃ line, layout.EndsInHeader line ∧ line.number = 13 := by
  intro p
  have hread : (Layout.ofLines (sourceLines unfinishedText)).toBool = true ∧ p.textOffset = 5 ∧
      p.diagnostics.map (fun d => (d.span.line, d.code)) =
        [(8, ⟨602⟩), (9, ⟨500⟩), (10, ⟨302⟩), (13, ⟨403⟩), (13, ⟨303⟩)] ∧
      p.lines.map Line.isCode = [false, false, false, false, false, true, true, false, false] ∧
      ∃ report ∈ p.missingBlocks, report.span.line = 13 := by decide +kernel
  obtain ⟨hok, hoffset, hdiagnostics, hlines, hreport⟩ := hread
  refine ⟨hdiagnostics, hlines, ?_⟩
  cases hlayout : Layout.ofLines (sourceLines unfinishedText) with
  | error finding =>
      rw [hlayout] at hok
      cases hok
  | ok layout =>
      obtain ⟨htext, hlength, -, -, hmissing⟩ := every_line_is_read_or_reported hlayout
      refine ⟨layout, rfl, hoffset ▸ htext, ?_, (hmissing 13).mp hreport⟩
      have hcount := congrArg List.length hlines
      rw [List.length_map, hlength] at hcount
      exact hcount

end TapePuzzle
