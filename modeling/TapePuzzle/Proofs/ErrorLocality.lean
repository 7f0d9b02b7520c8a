import TapePuzzle.Proofs.Reading.Declarations
import TapePuzzle.Proofs.Reading.LineByLine

/-!
# Errors stay where they are

Two texts may differ in one line of the text segment. As long as this line keeps its leading blanks
and its first word, it may be broken in one of them: all other lines are read alike. Main statement:
the two programs and their diagnostics differ on this line only.
-/

namespace TapePuzzle

open Indentation

/-- Two lines with statements that mean the same to the lines below them. -/
structure SourceLine.SameFrame (line line' : SourceLine) : Prop where
  statement : isSilent line = false
  statement' : isSilent line' = false
  blanks : leadingBlanks line.text = leadingBlanks line'.text
  opener : line.opener? = line'.opener?

variable {line line' : SourceLine} {above below : List SourceLine} {layout layout' : Layout}

/-! ## One line in place of another -/

theorem getElem?_append_cons_of_ne {α : Type} {front back : List α} {a b : α} {index : Nat}
    (h : index ≠ front.length) : (front ++ a :: back)[index]? = (front ++ b :: back)[index]? := by
  by_cases hlt : index < front.length
  · rw [List.getElem?_append_left hlt, List.getElem?_append_left hlt]
  · have hle : front.length ≤ index := Nat.le_of_not_lt hlt
    obtain ⟨rest, hrest⟩ : ∃ rest, index - front.length = rest + 1 :=
      ⟨index - front.length - 1, by omega⟩
    rw [List.getElem?_append_right hle, List.getElem?_append_right hle, hrest]
    rfl

theorem lineText?_append_cons_of_ne {number : Nat} (h : number ≠ above.length + 1) :
    lineText? (above ++ line :: below) number = lineText? (above ++ line' :: below) number := by
  cases number with
  | zero => rfl
  | succ index =>
      have hindex : index ≠ above.length := fun heq => h (congrArg Nat.succ heq)
      rw [lineText?, lineText?, getElem?_append_cons_of_ne hindex]

theorem filter_elsewhere_eq_nil {number : Nat} {findings : List Finding}
    (h : ∀ finding ∈ findings, finding.span.line = number) :
    findings.filter (·.span.line ≠ number) = [] := by
  apply List.filter_eq_nil_iff.mpr
  intro finding hfinding
  simp [h finding hfinding]

/-- Where a text segment begins does not depend on the lines below its marker. -/
theorem Layout.replace_of_ofLines (h : Layout.ofLines (above ++ line :: below) = .ok layout)
    (h' : Layout.ofLines (above ++ line' :: below) = .ok layout')
    (habove : layout.data.length + 3 ≤ above.length) :
    ∃ upper, layout.text = upper ++ line :: below ∧
      above.length = layout.data.length + 3 + upper.length ∧
      layout' = { layout with text := upper ++ line' :: below } := by
  obtain ⟨header, second, marker, hlines, hheader, hsecond, hdata, hmarker, hnumber, -⟩ :=
    Layout.lines_of_ofLines h
  have hfront : above ++ line :: below =
      (header :: second :: (layout.data ++ [marker])) ++ layout.text := by
    simp [hlines]
  have hprefix : header :: second :: (layout.data ++ [marker]) <+: above ++ line :: below :=
    ⟨layout.text, hfront.symm⟩
  obtain ⟨upper, rfl⟩ : header :: second :: (layout.data ++ [marker]) <+: above := by
    apply List.prefix_of_prefix_length_le hprefix (List.prefix_append _ _)
    simp only [List.length_cons, List.length_append, List.length_nil]
    omega
  rw [List.append_assoc] at hfront
  refine ⟨upper, (List.append_cancel_left hfront).symm, by simp; omega, ?_⟩
  have hlines' : (header :: second :: (layout.data ++ [marker])) ++ upper ++ line' :: below =
      header :: second :: (layout.data ++ marker :: (upper ++ line' :: below)) := by
    simp
  rw [hlines', Layout.ofLines_eq hheader hsecond hdata hmarker] at h'
  split at h'
  · cases h'
    rw [hnumber]
  · cases h'

namespace SourceLine.SameFrame

variable (h : line.SameFrame line')

include h

theorem pass_eq (ind : Indentation) : ind.pass line = ind.pass line' := by
  have haccepts : ind.accepts line = ind.accepts line' := by rw [accepts, accepts, h.blanks]
  simp [Indentation.pass, h.statement, h.statement', h.blanks, h.opener, haccepts]

theorem labelOf?_eq_none : labelOf? line = none ∧ labelOf? line' = none := by
  have hlabel := (Bool.or_eq_false_iff.mp h.statement).2
  have hlabel' := (Bool.or_eq_false_iff.mp h.statement').2
  exact ⟨by simpa using hlabel, by simpa using hlabel'⟩

theorem foldl_pass_eq (ind : Indentation) (above below : List SourceLine) :
    (above ++ line :: below).foldl pass ind = (above ++ line' :: below).foldl pass ind := by
  simp [h.pass_eq]

theorem readLabels_eq (d : Declarations) (above below : List SourceLine) :
    d.readLabels (above ++ line :: below) = d.readLabels (above ++ line' :: below) := by
  obtain ⟨hlabel, hlabel'⟩ := h.labelOf?_eq_none
  simp only [Declarations.readLabels, List.zipIdx_append, List.zipIdx_cons, List.foldl_append,
    List.foldl_cons, Declarations.readLabel_of_none hlabel, Declarations.readLabel_of_none hlabel']

/-- What is wrong with the other lines themselves. -/
theorem filter_refusals_eq (hnumber : line'.number = line.number) (names : Names)
    (ind : Indentation) (above below : List SourceLine) :
    (refusals names ind (above ++ line :: below)).filter (·.span.line ≠ line.number) =
      (refusals names ind (above ++ line' :: below)).filter (·.span.line ≠ line.number) := by
  have hown : ∀ ind own, own.number = line.number →
      (refusalOf (readLineAt names ind own)).filter (·.span.line ≠ line.number) = [] := by
    intro ind own hown
    exact filter_elsewhere_eq_nil fun _ hfinding => (isRefusal_of_mem hfinding).span.trans hown
  rw [refusals_append, refusals_append, h.pass_eq]
  simp only [List.filter_append, hown _ line rfl, hown _ line' hnumber]

/-- A block is missing after the line, or after another one and then in both texts. -/
theorem filter_missing_eq (hnumber : line'.number = line.number)
    (ind : Indentation) (above below : List SourceLine) :
    (ind.missing none (above ++ line :: below)).filter (·.span.line ≠ line.number) =
      (ind.missing none (above ++ line' :: below)).filter (·.span.line ≠ line.number) := by
  have hown : ∀ (ind : Indentation) (own : SourceLine), own.number = line.number →
      (ind.missingAfter own).filter (·.span.line ≠ line.number) = [] := by
    intro ind own hown
    exact filter_elsewhere_eq_nil fun _ hfinding => (span_of_mem_missingAfter hfinding).trans hown
  rcases exists_last_statement below with hsilent | ⟨between, last, rest, rfl, hlast, hrest⟩
  · rw [missing_of_last _ _ _ h.statement hsilent, missing_of_last _ _ _ h.statement' hsilent,
      hown _ line rfl, hown _ line' hnumber]
  · have hsplit : ∀ own, above ++ own :: (between ++ last :: rest) =
        (above ++ own :: between) ++ last :: rest := by simp
    rw [hsplit, hsplit, missing_of_last _ _ _ hlast hrest, missing_of_last _ _ _ hlast hrest,
      h.foldl_pass_eq]

theorem filter_findings_eq (hnumber : line'.number = line.number) (declared : List Finding)
    (names : Names) (ind : Indentation) (above below : List SourceLine) :
    (declared ++ (refusals names ind (above ++ line :: below) ++
        ind.missing none (above ++ line :: below))).filter (·.span.line ≠ line.number) =
      (declared ++ (refusals names ind (above ++ line' :: below) ++
        ind.missing none (above ++ line' :: below))).filter (·.span.line ≠ line.number) := by
  simp only [List.filter_append, h.filter_refusals_eq hnumber, h.filter_missing_eq hnumber]

theorem declarations_eq {upper : List SourceLine} (hsplit : layout.text = upper ++ line :: below) :
    ({ layout with text := upper ++ line' :: below } : Layout).declarations =
      layout.declarations := by
  rw [Layout.declarations, Layout.declarations, hsplit, h.readLabels_eq]

end SourceLine.SameFrame

/-! ## The rest of a program -/

section Rest

variable {text text' : List Char} {upper : List SourceLine}

theorem Program.getElem?_lines_of_sameFrame (hframe : line.SameFrame line')
    (hlayout : Layout.ofLines (sourceLines text) = .ok layout)
    (hlayout' : Layout.ofLines (sourceLines text') =
      .ok { layout with text := upper ++ line' :: below })
    (hsplit : layout.text = upper ++ line :: below) {index : Nat} (hindex : index ≠ upper.length) :
    (Program.read text).lines[index]? = (Program.read text').lines[index]? := by
  rw [Program.lines_read hlayout, Program.lines_read hlayout', hframe.declarations_eq hsplit,
    hsplit, linesAt_append, linesAt_append, hframe.pass_eq]
  apply getElem?_append_cons_of_ne
  rw [length_linesAt]
  exact hindex

theorem Program.filter_diagnostics_of_sameFrame (hframe : line.SameFrame line')
    (hlayout : Layout.ofLines (sourceLines text) = .ok layout)
    (hlayout' : Layout.ofLines (sourceLines text') =
      .ok { layout with text := upper ++ line' :: below })
    (hsplit : layout.text = upper ++ line :: below)
    (hlines : sourceLines text = above ++ line :: below)
    (hlines' : sourceLines text' = above ++ line' :: below) :
    (Program.read text).diagnostics.filter (·.span.line ≠ line.number) =
      (Program.read text').diagnostics.filter (·.span.line ≠ line.number) := by
  have hnumber : line'.number = line.number := by
    rw [number_of_split hlines, number_of_split hlines']
  have hquote : ∀ finding : Finding, finding.span.line ≠ line.number →
      Diagnostic.ofFinding (sourceLines text) finding =
        Diagnostic.ofFinding (sourceLines text') finding := by
    intro finding hfinding
    rw [number_of_split hlines] at hfinding
    rw [Diagnostic.ofFinding, Diagnostic.ofFinding, hlines, hlines',
      lineText?_append_cons_of_ne hfinding]
  rw [Program.diagnostics_read hlayout, Program.diagnostics_read hlayout',
    hframe.declarations_eq hsplit, hsplit, List.filter_map, List.filter_map]
  change List.map _ (List.filter (fun finding : Finding => finding.span.line ≠ line.number) _) =
    List.map _ (List.filter (fun finding : Finding => finding.span.line ≠ line.number) _)
  rw [hframe.filter_findings_eq hnumber]
  apply List.map_congr_left
  intro finding hfinding
  exact hquote finding (by simpa using (List.mem_filter.mp hfinding).2)

end Rest

/-- Two texts differ in one line of the text segment, which has the same leading blanks and the same
    first word in both, as far as blocks go. Then all else that is read of them is the same, and so
    is all that is reported on other lines. -/
theorem Program.errors_stay_on_their_line {text text' : List Char}
    (hlayout : Layout.ofLines (sourceLines text) = .ok layout)
    (hlayout' : Layout.ofLines (sourceLines text') = .ok layout')
    (hlines : sourceLines text = above ++ line :: below)
    (hlines' : sourceLines text' = above ++ line' :: below)
    (htext : layout.textLine < line.number) (hframe : line.SameFrame line') :
    let p := Program.read text
    let p' := Program.read text'
    p.tape = p'.tape ∧ p.objects = p'.objects ∧ p.labels = p'.labels ∧
      p.textOffset = p'.textOffset ∧ p.lines.length = p'.lines.length ∧
      (∀ index, p.textOffset + 1 + index ≠ line.number → p.lines[index]? = p'.lines[index]?) ∧
      p.diagnostics.filter (·.span.line ≠ line.number) =
        p'.diagnostics.filter (·.span.line ≠ line.number) := by
  intro p p'
  have hnumber := number_of_split hlines
  have htextLine := Layout.textLine_eq hlayout
  obtain ⟨upper, hsplit, hlength, rfl⟩ :=
    Layout.replace_of_ofLines (hlines ▸ hlayout) (hlines' ▸ hlayout') (by omega)
  have hdeclarations := hframe.declarations_eq hsplit
  have hp : p = Program.ofLayout (sourceLines text) layout := Program.read_of_layout hlayout
  have hp' : p' = Program.ofLayout (sourceLines text')
      { layout with text := upper ++ line' :: below } := Program.read_of_layout hlayout'
  refine ⟨?_, ?_, ?_, ?_, ?_, ?_, ?_⟩
  · rw [hp, hp']
    exact congrArg Declarations.tape hdeclarations.symm
  · rw [hp, hp']
    exact congrArg Declarations.objects hdeclarations.symm
  · rw [hp, hp']
    exact congrArg Declarations.labels hdeclarations.symm
  · rw [hp, hp']
    rfl
  · rw [Program.lines_read hlayout, Program.lines_read hlayout', length_linesAt, length_linesAt,
      hsplit]
    simp
  · intro index hindex
    apply Program.getElem?_lines_of_sameFrame hframe hlayout hlayout' hsplit
    intro heq
    apply hindex
    have hoffset : p.textOffset = layout.textLine := by rw [hp]; rfl
    omega
  · exact Program.filter_diagnostics_of_sameFrame hframe hlayout hlayout' hsplit hlines hlines'

/-- A loop with the given line in place of its header. One of its lines is refused. -/
def loopUnder (header : SourceLine) : List Char :=
  "tally 1\n.data\ntapelength 1\n0 a\n.text\ntop:\n".toList ++ header.text ++
    "\n  a = b\n  a = 1\n".toList

theorem Program.errors_stay_on_their_line_brokenHeader :
    let header : SourceLine := ⟨7, "while (a):".toList⟩
    let broken : SourceLine := ⟨7, "while a > (:".toList⟩
    let p := Program.read (loopUnder header)
    let p' := Program.read (loopUnder broken)
    p.diagnostics.map (·.span.line) = [8] ∧ p'.diagnostics.map (·.span.line) = [7, 8] ∧
      p.lines[2]? = p'.lines[2]? ∧ p.lines[3]? = p'.lines[3]? ∧
      p.diagnostics.filter (·.span.line ≠ 7) = p'.diagnostics.filter (·.span.line ≠ 7) := by
  intro header broken p p'
  let above := (sourceLines (loopUnder header)).take 6
  let below := (sourceLines (loopUnder header)).drop 7
  have hlines : sourceLines (loopUnder header) = above ++ header :: below ∧
      sourceLines (loopUnder broken) = above ++ broken :: below := by decide +kernel
  have hlayouts : Layout.ofLines (above ++ header :: below) =
        .ok ⟨(above.take 4).drop 2, 5, above.drop 5 ++ header :: below⟩ ∧
      Layout.ofLines (above ++ broken :: below) =
        .ok ⟨(above.take 4).drop 2, 5, above.drop 5 ++ broken :: below⟩ := by decide +kernel
  have hframe : header.SameFrame broken :=
    ⟨by decide +kernel, by decide +kernel, by decide +kernel, by decide +kernel⟩
  have hreports : p.diagnostics.map (·.span.line) = [8] ∧
      p'.diagnostics.map (·.span.line) = [7, 8] ∧ p.textOffset = 5 := by decide +kernel
  obtain ⟨hlines, hlines'⟩ := hlines
  obtain ⟨-, -, -, -, -, hread, hothers⟩ := Program.errors_stay_on_their_line
    (hlines ▸ hlayouts.1) (hlines' ▸ hlayouts.2) hlines hlines' (by decide) hframe
  obtain ⟨hreports, hreports', hoffset⟩ := hreports
  refine ⟨hreports, hreports', hread 2 ?_, hread 3 ?_, hothers⟩
  · rw [hoffset]
    decide
  · rw [hoffset]
    decide

end TapePuzzle
