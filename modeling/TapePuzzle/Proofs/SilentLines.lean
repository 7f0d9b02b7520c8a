import TapePuzzle.Proofs.Execution.Spread
import TapePuzzle.Proofs.Reading.Agreement
import TapePuzzle.Proofs.Writing.Lines

/-!
# Lines that say nothing

A program text may have further lines below its first two, as long as these say nothing: empty
lines, lines of white space and comments. Main statement: whatever such lines are inserted, and
wherever, the program stays valid, and its runs stay the same, step for step.
-/

namespace TapePuzzle

/-! ## Inserted lines -/

/-- A line of a text into which lines were inserted. -/
inductive Spliced where
  /-- A line of the text. -/
  | kept (line : List Char)
  /-- An inserted line. Like every line of a text, it holds no line feed and does not end with a
      carriage return. -/
  | added (line : QuietLine)

/-- The lines without the inserted ones. -/
def oldLines : List Spliced → List (List Char)
  | [] => []
  | .kept line :: rest => line :: oldLines rest
  | .added _ :: rest => oldLines rest

/-- All lines. -/
def newLines : List Spliced → List (List Char)
  | [] => []
  | .kept line :: rest => line :: newLines rest
  | .added line :: rest => line.text :: newLines rest

/-- Where line `i` of the text stands once all lines are there. Both are counted from zero. -/
def newIndex : List Spliced → (i : Nat) → Nat
  | [], i => i
  | .kept _ :: _, 0 => 0
  | .kept _ :: rest, i + 1 => newIndex rest i + 1
  | .added _ :: rest, i => newIndex rest i + 1

/-- The lines of the text keep their order. -/
theorem newIndex_lt_newIndex (body : List Spliced) {i j : Nat} (h : i < j) :
    newIndex body i < newIndex body j := by
  induction body generalizing i j with
  | nil => exact h
  | cons entry rest ih =>
      cases entry with
      | added line => exact Nat.succ_lt_succ (ih h)
      | kept line =>
          cases j with
          | zero => exact absurd h (Nat.not_lt_zero i)
          | succ j =>
              cases i with
              | zero => exact Nat.succ_pos _
              | succ i => exact Nat.succ_lt_succ (ih (Nat.lt_of_succ_lt_succ h))

/-- The line where line `i` has moved to is line `i`. -/
theorem getElem?_newLines (body : List Spliced) {i : Nat} (h : i < (oldLines body).length) :
    (newLines body)[newIndex body i]? = (oldLines body)[i]? := by
  induction body generalizing i with
  | nil => exact absurd h (Nat.not_lt_zero i)
  | cons entry rest ih =>
      cases entry with
      | added line => exact ih h
      | kept line =>
          cases i with
          | zero => rfl
          | succ i => exact ih (Nat.lt_of_succ_lt_succ h)

theorem newLines_append (front back : List Spliced) :
    newLines (front ++ back) = newLines front ++ newLines back := by
  induction front with
  | nil => rfl
  | cons entry front ih => cases entry <;> simp [newLines, ih]

theorem newIndex_append (front back : List Spliced) (i : Nat) :
    newIndex (front ++ back) ((oldLines front).length + i) =
      (newLines front).length + newIndex back i := by
  induction front with
  | nil => simp [oldLines, newLines]
  | cons entry front ih =>
      cases entry with
      | added line =>
          rw [List.cons_append, newIndex, oldLines, newLines, ih, List.length_cons]
          omega
      | kept line =>
          rw [List.cons_append, oldLines, newLines, List.length_cons, List.length_cons,
            Nat.add_right_comm, newIndex, ih]
          omega

/-- Wherever the old lines are cut, all lines can be cut. -/
theorem exists_split_of_oldLines {body : List Spliced} {front back : List (List Char)}
    {line : List Char} (h : oldLines body = front ++ line :: back) :
    ∃ above below, body = above ++ .kept line :: below ∧ oldLines above = front ∧
      oldLines below = back := by
  induction body generalizing front with
  | nil => simp [oldLines] at h
  | cons entry rest ih =>
      cases entry with
      | added quiet =>
          obtain ⟨above, below, rfl, habove, hbelow⟩ := ih h
          exact ⟨.added quiet :: above, below, rfl, habove, hbelow⟩
      | kept first =>
          rw [oldLines] at h
          cases front with
          | nil =>
              obtain ⟨rfl, rfl⟩ := List.cons.inj h
              exact ⟨[], rest, rfl, rfl, rfl⟩
          | cons head front =>
              obtain ⟨rfl, htail⟩ := List.cons.inj h
              obtain ⟨above, below, rfl, rfl, hbelow⟩ := ih htail
              exact ⟨.kept first :: above, below, rfl, rfl, hbelow⟩

/-- What holds of the old lines and of all lines that say nothing holds of all lines. -/
theorem forall_newLines {inv : List Char → Prop} {body : List Spliced}
    (hold : ∀ line ∈ oldLines body, inv line) (hadded : ∀ line : QuietLine, inv line.text) :
    ∀ line ∈ newLines body, inv line := by
  induction body with
  | nil => simp [newLines]
  | cons entry rest ih =>
      cases entry with
      | added quiet => exact List.forall_mem_cons.mpr ⟨hadded quiet, ih hold⟩
      | kept line =>
          obtain ⟨hline, hrest⟩ := List.forall_mem_cons.mp hold
          exact List.forall_mem_cons.mpr ⟨hline, ih hrest⟩

/-! ## The segments -/

theorem text_mem_of_mem_numberLines {line : SourceLine} {start : Nat} {lines : List (List Char)}
    (h : line ∈ numberLines start lines) : line.text ∈ lines := by
  rw [← map_text_numberLines start lines]
  exact List.mem_map_of_mem h

/-- Lines with one text marker are cut there. Which lines are text markers does not depend on their
    numbers. -/
theorem Layout.ofLines_numberLines {first second marker : List Char}
    {above below : List (List Char)} (hfirst : isMarker headerLine (some ⟨1, first⟩) = true)
    (hsecond : isMarker dataMarker (some ⟨2, second⟩) = true)
    (habove : ∀ line ∈ above, isTextMarker ⟨0, line⟩ = false)
    (hmarker : isTextMarker ⟨0, marker⟩ = true)
    (hbelow : ∀ line ∈ below, isTextMarker ⟨0, line⟩ = false) :
    Layout.ofLines (numberLines 1 (first :: second :: (above ++ marker :: below))) =
      .ok ⟨numberLines 3 above, 3 + above.length, numberLines (3 + above.length + 1) below⟩ := by
  have hdata : ∀ line ∈ numberLines 3 above, isTextMarker line = false :=
    fun line hline => habove line.text (text_mem_of_mem_numberLines hline)
  have htext : (numberLines (3 + above.length + 1) below).filter isTextMarker = [] := by
    refine List.filter_eq_nil_iff.mpr fun line hline => ?_
    rw [show isTextMarker line = isTextMarker ⟨0, line.text⟩ from rfl,
      hbelow line.text (text_mem_of_mem_numberLines hline)]
    exact Bool.false_ne_true
  have hnumber : isTextMarker ⟨3 + above.length, marker⟩ = true := hmarker
  rw [numberLines_cons, numberLines_cons, numberLines_append, numberLines_cons,
    Layout.ofLines_eq hfirst hsecond hdata hnumber, htext]

/-- A text is cut into its segments at the same line, whatever lines are inserted. -/
theorem Layout.ofLines_newLines {first second : List Char} {body : List Spliced} {layout : Layout}
    (h : Layout.ofLines (numberLines 1 (first :: second :: oldLines body)) = .ok layout) :
    ∃ above marker below, body = above ++ .kept marker :: below ∧
      layout = ⟨numberLines 3 (oldLines above), 3 + (oldLines above).length,
        numberLines (3 + (oldLines above).length + 1) (oldLines below)⟩ ∧
      Layout.ofLines (numberLines 1 (first :: second :: newLines body)) =
        .ok ⟨numberLines 3 (newLines above), 3 + (newLines above).length,
          numberLines (3 + (newLines above).length + 1) (newLines below)⟩ := by
  obtain ⟨header, data, marker, hlines, hheader, hdata, habove, hmarker, -, hbelow⟩ :=
    Layout.lines_of_ofLines h
  have htexts := congrArg (List.map SourceLine.text) hlines
  rw [map_text_numberLines] at htexts
  simp only [List.map_cons, List.map_append, List.cons.injEq] at htexts
  obtain ⟨rfl, rfl, hbody⟩ := htexts
  obtain ⟨above, below, rfl, holdAbove, holdBelow⟩ := exists_split_of_oldLines hbody
  rw [hbody, ← holdAbove, ← holdBelow] at h
  have habove : ∀ line ∈ oldLines above, isTextMarker ⟨0, line⟩ = false := by
    rw [holdAbove]
    exact List.forall_mem_map.mpr habove
  have hbelow : ∀ line ∈ oldLines below, isTextMarker ⟨0, line⟩ = false := by
    rw [holdBelow]
    refine List.forall_mem_map.mpr fun line hline => ?_
    exact Bool.eq_false_iff.mpr (List.filter_eq_nil_iff.mp hbelow line hline)
  have hquiet : ∀ line : QuietLine, isTextMarker ⟨0, line.text⟩ = false :=
    fun line => (WrittenLine.legible_quiet line).marker 0
  refine ⟨above, marker.text, below, rfl, ?_, ?_⟩
  · rw [Layout.ofLines_numberLines hheader hdata habove hmarker hbelow] at h
    exact (Except.ok.inj h).symm
  · rw [newLines_append]
    exact Layout.ofLines_numberLines hheader hdata (forall_newLines habove hquiet) hmarker
      (forall_newLines hbelow hquiet)

/-- Lines that say nothing declare nothing. -/
theorem DataSegment.Alike.foldl_newLines {f : Nat → Nat} (body : List Spliced) (start start' : Nat)
    {s s' : DataSegment} (h : Alike f s s') :
    Alike f ((numberLines start (oldLines body)).foldl DataSegment.readLine s)
      ((numberLines start' (newLines body)).foldl DataSegment.readLine s') := by
  induction body generalizing start start' s s' with
  | nil => exact h
  | cons entry rest ih =>
      cases entry with
      | kept line => exact ih (start + 1) (start' + 1) (h.readLine line start start')
      | added line =>
          have hskip : s'.readLine ⟨start', line.text⟩ = s' := by
            rw [DataSegment.readLine, if_pos line.quiet]
          rw [newLines, numberLines_cons, List.foldl_cons, hskip]
          exact ih start (start' + 1) h

/-- Labels are declared for the lines that their lines have become. Both counts go along, and `f`
    takes one to the other from here on. -/
theorem Declarations.Alike.foldl_newLines {f : Nat → Nat} (body : List Spliced)
    (number number' : Nat) {start start' : Nat} {d d' : Declarations}
    (hf : ∀ i, f (start + i) = start' + newIndex body i) (h : Alike f d d') :
    Alike f
      (((numberLines number (oldLines body)).zipIdx start).foldl
        (fun d (line, index) => d.readLabel line index) d)
      (((numberLines number' (newLines body)).zipIdx start').foldl
        (fun d (line, index) => d.readLabel line index) d') := by
  induction body generalizing number number' start start' d d' with
  | nil => exact h
  | cons entry rest ih =>
      cases entry with
      | kept line =>
          have hline := h.readLabel line number number' start
          rw [show f start = start' from hf 0] at hline
          refine ih (number + 1) (number' + 1) (fun i => ?_) hline
          rw [Nat.add_assoc, Nat.add_comm 1, hf, newIndex]
          omega
      | added line =>
          have hlabel := Option.map_eq_none_iff.mp ((WrittenLine.legible_quiet line).label number')
          have hskip : d'.readLabel ⟨number', line.text⟩ start' = d' :=
            readLabel_of_none hlabel start'
          rw [newLines, numberLines_cons, List.zipIdx_cons, List.foldl_cons]
          show Alike f _ (List.foldl _ (d'.readLabel ⟨number', line.text⟩ start') _)
          rw [hskip]
          refine ih number (number' + 1) (fun i => ?_) h
          rw [hf, newIndex]
          omega

/-! ## Lines of the text segment -/

namespace Spread

variable {f : Nat → Nat} {lines lines' : List Line}

theorem cons_kept {body : List Spliced} (h : Spread (newIndex body) lines lines') (text : List Char)
    {line line' : Line} (hline : line'.unplaced = line.unplaced) :
    Spread (newIndex (.kept text :: body)) (line :: lines) (line' :: lines') where
  increasing := fun _ _ hlt => newIndex_lt_newIndex _ hlt
  kept := by
    intro i old hold
    cases i with
    | zero =>
        cases hold
        exact ⟨line', rfl, hline⟩
    | succ i => exact h.kept i old hold
  code := by
    intro j depth statement hcode
    cases j with
    | zero => exact ⟨0, Nat.succ_pos _, rfl⟩
    | succ j =>
        obtain ⟨i, hi, heq⟩ := h.code j depth statement hcode
        exact ⟨i + 1, Nat.succ_lt_succ hi, congrArg (· + 1) heq⟩

theorem cons_added {body : List Spliced} (h : Spread (newIndex body) lines lines')
    (line : QuietLine) : Spread (newIndex (.added line :: body)) lines (.silent :: lines') where
  increasing := fun _ _ hlt => newIndex_lt_newIndex _ hlt
  kept := fun i old hold => h.kept i old hold
  code := by
    intro j depth statement hcode
    cases j with
    | zero => cases hcode
    | succ j =>
        obtain ⟨i, hi, heq⟩ := h.code j depth statement hcode
        exact ⟨i, hi, congrArg (· + 1) heq⟩

end Spread

theorem length_missingBlock? (ind : Indentation) {header? header?' : Option Span}
    (h : header?'.isSome = header?.isSome) :
    (missingBlock? ind header?').length = (missingBlock? ind header?).length := by
  unfold missingBlock?
  cases ind.pending <;> cases header? <;> cases header?' <;> first | rfl | cases h

/-- The lines of a text segment stay as they are, and nothing else is wrong with them. -/
theorem spread_readTextLines {names names' : Names} (hnames : names.Agree names')
    (body : List Spliced) (ind : Indentation) {header? header?' : Option Span}
    (hheader : header?'.isSome = header?.isSome) (number number' : Nat) :
    let old := readTextLines names ind header? (numberLines number (oldLines body))
    let new := readTextLines names' ind header?' (numberLines number' (newLines body))
    Spread (newIndex body) old.1 new.1 ∧ new.2.length = old.2.length := by
  induction body generalizing ind header? header?' number number' with
  | nil =>
      refine ⟨⟨fun _ _ hlt => hlt, ?_, ?_⟩, length_missingBlock? ind hheader⟩
      · intro i line hline
        cases hline
      · intro j depth statement hline
        cases hline
  | cons entry rest ih =>
      cases entry with
      | added line =>
          have hsilent : isSilent ⟨number', line.text⟩ = true := by simp [isSilent, line.quiet]
          obtain ⟨hspread, hlength⟩ := ih ind hheader number (number' + 1)
          simp only [newLines, numberLines_cons, readTextLines, hsilent, if_true]
          exact ⟨hspread.cons_added line, hlength⟩
      | kept text =>
          simp only [oldLines, newLines, numberLines_cons, readTextLines,
            isSilent_of_text text number number']
          split
          · obtain ⟨hspread, hlength⟩ := ih ind hheader (number + 1) (number' + 1)
            exact ⟨hspread.cons_kept text rfl, hlength⟩
          · obtain ⟨hline, hind⟩ :=
              alike_readCodeLine hnames ind number number' (trimEnd (codePart text))
            generalize readCodeLine names ind number _ = answer at hline hind ⊢
            generalize readCodeLine names' ind number' _ = answer' at hline hind ⊢
            obtain ⟨result, ind⟩ := answer
            obtain ⟨result', ind'⟩ := answer'
            obtain rfl : ind' = ind := hind
            -- the header is remembered under another number, but it is remembered or not alike
            have hlater : (if ind'.pending.isSome then
                some (Span.mk number' 1 (byteLength (trimEnd (codePart text)) + 1))
                else header?').isSome = (if ind'.pending.isSome then
                some (Span.mk number 1 (byteLength (trimEnd (codePart text)) + 1))
                else header?).isSome := by
              split
              · rfl
              · exact hheader
            obtain ⟨hspread, hlength⟩ := ih ind' hlater (number + 1) (number' + 1)
            cases hline with
            | ok hline => exact ⟨hspread.cons_kept text hline, hlength⟩
            | error finding finding' =>
                exact ⟨hspread.cons_kept text rfl, congrArg (· + 1) hlength⟩

/-! ## Programs and their runs -/

theorem Layout.alike_declarations (above below : List Spliced)
    (textLine textLine' number number' : Nat) :
    (Layout.mk (numberLines 3 (oldLines above)) textLine
        (numberLines number (oldLines below))).declarations.Alike (newIndex below)
      (Layout.mk (numberLines 3 (newLines above)) textLine'
        (numberLines number' (newLines below))).declarations := by
  have hempty : DataSegment.Alike (newIndex below) {} {} :=
    ⟨Declarations.alike_empty _, rfl, rfl⟩
  have hdata := (hempty.foldl_newLines above 3 3).demandLength textLine textLine'
  refine Declarations.Alike.foldl_newLines below number number' (fun i => ?_) hdata.declarations
  rw [Nat.zero_add, Nat.zero_add]

/-- A program text is read into the same program, spread out over more lines. -/
theorem Program.spread_ofLayout (lines lines' : List SourceLine) (above below : List Spliced)
    (textLine textLine' number number' : Nat) :
    let p := Program.ofLayout lines ⟨numberLines 3 (oldLines above), textLine,
      numberLines number (oldLines below)⟩
    let p' := Program.ofLayout lines' ⟨numberLines 3 (newLines above), textLine',
      numberLines number' (newLines below)⟩
    p.Spread (newIndex below) p' ∧ p'.isValid = p.isValid := by
  intro p p'
  have hdeclared := Layout.alike_declarations above below textLine textLine' number number'
  have hnone : (none : Option Span).isSome = (none : Option Span).isSome := rfl
  obtain ⟨hspread, hlength⟩ :=
    spread_readTextLines hdeclared.agree below {} hnone number number'
  have hlabels : p'.labels = p.labels.map (movedLabel (newIndex below)) := hdeclared.labels
  refine ⟨⟨hdeclared.tape, hdeclared.objects, fun name => ?_, hspread⟩, ?_⟩
  · rw [Program.label?, Program.label?, hlabels, Declarations.lookup_movedLabel]
  · -- findings stand on other lines, so that only their number can be compared
    have hdiagnostics : p'.diagnostics.length = p.diagnostics.length := by
      simp only [p, p', Program.ofLayout, List.length_map, List.length_append, hlength,
        hdeclared.findings]
    rw [Program.isValid, Program.isValid, Bool.eq_iff_iff, List.isEmpty_iff_length_eq_zero,
      List.isEmpty_iff_length_eq_zero, hdiagnostics]

theorem newIndex_below_marker (first second marker : List Char) (above below : List Spliced)
    (i : Nat) :
    newIndex (.kept first :: .kept second :: (above ++ .kept marker :: below))
        (3 + (oldLines above).length + i) =
      3 + (newLines above).length + newIndex below i := by
  have hsum : 3 + (oldLines above).length + i = (oldLines above).length + (i + 1) + 1 + 1 := by
    omega
  rw [hsum, newIndex, newIndex, newIndex_append, newIndex]
  omega

/-- Whatever lines are inserted, a valid program text is read into the same program, spread out over
    the lines that its lines have become. -/
theorem Program.exists_spread_read {text text' first second : List Char} {body : List Spliced}
    (hold : (sourceLines text).map SourceLine.text = first :: second :: oldLines body)
    (hnew : (sourceLines text').map SourceLine.text = first :: second :: newLines body)
    (hvalid : (Program.read text).isValid = true) :
    ∃ f, (Program.read text).Spread f (Program.read text') ∧
      (Program.read text').isValid = true ∧
      ∀ i, (Program.read text').textOffset + f i =
        newIndex (.kept first :: .kept second :: body) ((Program.read text).textOffset + i) := by
  have hlines := sourceLines_eq_numberLines text
  have hlines' := sourceLines_eq_numberLines text'
  rw [hold] at hlines
  rw [hnew] at hlines'
  cases hlayout : Layout.ofLines (sourceLines text) with
  | error finding =>
      rw [Program.read, Program.ofLines, hlayout] at hvalid
      cases hvalid
  | ok layout =>
      rw [hlines] at hlayout
      obtain ⟨above, marker, below, rfl, rfl, hlayout'⟩ := Layout.ofLines_newLines hlayout
      rw [← hlines] at hlayout
      rw [← hlines'] at hlayout'
      rw [Program.read_of_layout hlayout] at hvalid ⊢
      rw [Program.read_of_layout hlayout']
      obtain ⟨hspread, hsame⟩ := Program.spread_ofLayout (sourceLines text) (sourceLines text')
        above below (3 + (oldLines above).length) (3 + (newLines above).length)
        (3 + (oldLines above).length + 1) (3 + (newLines above).length + 1)
      refine ⟨newIndex below, hspread, hsame.trans hvalid, fun i => ?_⟩
      exact (newIndex_below_marker first second marker above below i).symm

/-- Lines that say nothing can be inserted anywhere below the first two lines of a valid program
    text. Each line of the text then stands somewhere else, in the same order. The program stays
    valid, and on every test case and under every limit its runs go through the same states, step
    for step: status, message, number of executed lines, tape, objects, input, output and events are
    the same, and the current line is the one that the old current line has become. -/
theorem Run.silent_lines_never_matter (text text' first second : List Char) (body : List Spliced)
    (hold : (sourceLines text).map SourceLine.text = first :: second :: oldLines body)
    (hnew : (sourceLines text').map SourceLine.text = first :: second :: newLines body)
    (hvalid : (Program.read text).isValid = true) :
    let p := Program.read text
    let p' := Program.read text'
    let move := newIndex (.kept first :: .kept second :: body)
    (∀ i j, i < j → move i < move j) ∧
    (∀ i < (sourceLines text).length, ((sourceLines text').map SourceLine.text)[move i]? =
      ((sourceLines text).map SourceLine.text)[i]?) ∧
    p'.isValid = true ∧ ∀ (case : TestCase) (limit count : Nat),
      let r := Run.after p case limit count
      let r' := Run.after p' case limit count
      r'.status = r.status ∧ r'.message? = r.message? ∧ r'.executed = r.executed ∧
        r'.memory.tape = r.memory.tape ∧ r'.memory.objects = r.memory.objects ∧
        r'.memory.input = r.memory.input ∧ r'.memory.output = r.memory.output ∧
        r'.events = r.events ∧
        r'.control.position.map (p'.textOffset + ·) =
          r.control.position.map fun i => move (p.textOffset + i) := by
  intro p p' move
  have hsame : ∀ i < (sourceLines text).length,
      ((sourceLines text').map SourceLine.text)[move i]? =
        ((sourceLines text).map SourceLine.text)[i]? := by
    intro i hi
    rw [← List.length_map SourceLine.text] at hi
    rw [hold] at hi ⊢
    rw [hnew]
    exact getElem?_newLines (.kept first :: .kept second :: body) hi
  obtain ⟨names, hp⟩ := Program.exists_sound_read hvalid
  obtain ⟨f, hspread, hvalid', hindex⟩ := Program.exists_spread_read hold hnew hvalid
  refine ⟨fun i j hlt => newIndex_lt_newIndex _ hlt, hsame, hvalid', fun case limit count => ?_⟩
  intro r r'
  have hmoved : r' = r.moved f p' := Run.after_moved hspread hp hvalid hvalid' case limit count
  rw [hmoved]
  refine ⟨rfl, rfl, rfl, rfl, rfl, rfl, rfl, rfl, ?_⟩
  show (r.control.position.map f).map (p'.textOffset + ·) = _
  rw [Option.map_map]
  exact congrArg (Option.map · _) (funext hindex)

/-- A loop that a jump out of a block goes round, with lines inserted in the data segment, behind a
    label, behind a header, in front of an `else` and at the end. -/
def spacedLoop : List Spliced :=
  [.added ⟨"# one slot".toList, ⟨by decide, by decide⟩, by decide⟩, .kept "tapelength 1".toList,
    .kept "0 n".toList, .kept ".text".toList, .kept "again:".toList,
    .added ⟨[], isWhole_nil, by decide⟩, .kept "n = n + 1".toList,
    .kept "if (n < 2):".toList, .added ⟨"# not yet".toList, ⟨by decide, by decide⟩, by decide⟩,
    .kept "  jump again".toList, .added ⟨"\t # \t".toList, ⟨by decide, by decide⟩, by decide⟩,
    .kept "else:".toList, .kept "  output(n)".toList, .kept "  end()".toList,
    .added ⟨"   ".toList, ⟨by decide, by decide⟩, by decide⟩]

/-- The lines `lines` below the first two lines of a program text. -/
def underHeading (lines : List (List Char)) : List Char :=
  joinLines ("tally 1".toList :: ".data".toList :: lines)

theorem Run.silent_lines_never_matter_spacedLoop :
    let p := Program.read (underHeading (oldLines spacedLoop))
    let p' := Program.read (underHeading (newLines spacedLoop))
    p.isValid = true ∧ p'.isValid = true ∧
      (Run.after p { expectedOutput := [2] } 20 3).control.position.map (p.textOffset + ·) =
        some 8 ∧
      (Run.after p' { expectedOutput := [2] } 20 3).control.position.map (p'.textOffset + ·) =
        some 11 := by
  have hold : (sourceLines (underHeading (oldLines spacedLoop))).map SourceLine.text =
      "tally 1".toList :: ".data".toList :: oldLines spacedLoop := by decide +kernel
  have hnew : (sourceLines (underHeading (newLines spacedLoop))).map SourceLine.text =
      "tally 1".toList :: ".data".toList :: newLines spacedLoop := by decide +kernel
  have hvalid : (Program.read (underHeading (oldLines spacedLoop))).isValid = true := by
    decide +kernel
  have hposition : (Run.after (Program.read (underHeading (oldLines spacedLoop)))
      { expectedOutput := [2] } 20 3).control.position = some 3 := by decide +kernel
  have hoffset : (Program.read (underHeading (oldLines spacedLoop))).textOffset = 5 := by
    decide +kernel
  obtain ⟨-, -, hvalid', hsame⟩ :=
    Run.silent_lines_never_matter _ _ _ _ spacedLoop hold hnew hvalid
  obtain ⟨-, -, -, -, -, -, -, -, hmoved⟩ := hsame { expectedOutput := [2] } 20 3
  rw [hposition, hoffset] at hmoved
  refine ⟨hvalid, hvalid', ?_, hmoved.trans ?_⟩
  · rw [hposition, hoffset]
    rfl
  · decide +kernel

end TapePuzzle
