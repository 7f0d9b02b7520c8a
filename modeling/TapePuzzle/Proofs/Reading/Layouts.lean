import TapePuzzle.Proofs.Reading.Words
import TapePuzzle.Reading.Program

/-!
# Lines and layout of a written text

Lines that are written above a text are cut out of the whole as they were, and the lines of the text
move down. Main statements: the lines of such a text, and the segments that its markers divide it
into.
-/

namespace TapePuzzle

/-! ## Cutting into lines -/

theorem splitLines_append_newline {line : List Char} (h : '\n' ∉ line) (text : List Char) :
    splitLines (line ++ '\n' :: text) = line :: splitLines text := by
  induction line with
  | nil => rfl
  | cons c line ih =>
      obtain ⟨hc, hline⟩ := not_or.mp fun hmem => h (List.mem_cons.mpr hmem)
      rw [List.cons_append, splitLines, if_neg (Ne.symm hc), ih hline]

theorem splitLines_ne_nil {text : List Char} (h : text ≠ []) : splitLines text ≠ [] := by
  cases text with
  | nil => exact absurd rfl h
  | cons c text =>
      unfold splitLines
      split
      · simp
      · split <;> simp

/-- A text that ends with a line feed has its lines apart from what follows. -/
theorem splitLines_append {front : List Char} (h : front.getLast? = some '\n') (text : List Char) :
    splitLines (front ++ text) = splitLines front ++ splitLines text := by
  obtain ⟨before, rfl⟩ := List.getLast?_eq_some_iff.mp h
  clear h
  rw [List.append_assoc, List.singleton_append]
  induction before with
  | nil => rfl
  | cons c before ih =>
      rw [List.cons_append, List.cons_append, splitLines, splitLines, ih]
      split
      · rfl
      · cases hlines : splitLines (before ++ ['\n']) with
        | nil => exact absurd hlines (splitLines_ne_nil (by simp))
        | cons line lines => rfl

/-- A text that ends with a line feed has one line for each line feed. -/
theorem length_splitLines {text : List Char} (h : text.getLast? = some '\n') :
    (splitLines text).length = text.count '\n' := by
  obtain ⟨before, rfl⟩ := List.getLast?_eq_some_iff.mp h
  clear h
  induction before with
  | nil => rfl
  | cons c before ih =>
      rw [List.cons_append, splitLines, List.count_cons, ← ih]
      by_cases hc : c = '\n'
      · simp [hc]
      · cases hlines : splitLines (before ++ ['\n']) with
        | nil => exact absurd hlines (splitLines_ne_nil (by simp))
        | cons line lines => simp [hc]

/-- A line that is cut out of a text as it was written. -/
structure IsWhole (line : List Char) : Prop where
  newline : '\n' ∉ line
  carriageReturn : dropEndWhile (· == '\r') line = line

theorem isWhole_nil : IsWhole [] := ⟨List.not_mem_nil, rfl⟩

theorem IsPlain.isWhole {line : List Char} (h : IsPlain line) : IsWhole line :=
  ⟨h.not_mem (by decide) (by decide), h.dropEndWhile_eq⟩

/-- The text that consists of the given lines. -/
def joinLines (lines : List (List Char)) : List Char := lines.flatMap fun line => line ++ ['\n']

theorem joinLines_concat (lines : List (List Char)) (line : List Char) :
    joinLines (lines ++ [line]) = joinLines lines ++ (line ++ ['\n']) := by
  simp [joinLines]

theorem getLast?_joinLines {lines : List (List Char)} (h : lines ≠ []) :
    (joinLines lines).getLast? = some '\n' := by
  obtain ⟨front, last, rfl⟩ := List.eq_nil_or_concat lines |>.resolve_left h
  rw [List.concat_eq_append, joinLines_concat]
  simp

theorem splitLines_joinLines {lines : List (List Char)} (h : ∀ line ∈ lines, IsWhole line)
    (text : List Char) : splitLines (joinLines lines ++ text) = lines ++ splitLines text := by
  induction lines with
  | nil => rfl
  | cons line lines ih =>
      obtain ⟨hline, hlines⟩ := List.forall_mem_cons.mp h
      have hcons : joinLines (line :: lines) ++ text =
          line ++ '\n' :: (joinLines lines ++ text) := by simp [joinLines]
      rw [hcons, splitLines_append_newline hline.newline, ih hlines, List.cons_append]

theorem count_joinLines {lines : List (List Char)} (h : ∀ line ∈ lines, IsWhole line) :
    (joinLines lines).count '\n' = lines.length := by
  induction lines with
  | nil => rfl
  | cons line lines ih =>
      obtain ⟨hline, hlines⟩ := List.forall_mem_cons.mp h
      have hcons : joinLines (line :: lines) = line ++ ['\n'] ++ joinLines lines := rfl
      rw [hcons, List.count_append, List.count_append, ih hlines,
        List.count_eq_zero_of_not_mem hline.newline]
      simp
      omega

/-- Lines under consecutive numbers. -/
def numberLines (start : Nat) (lines : List (List Char)) : List SourceLine :=
  (lines.zipIdx start).map fun (line, number) => ⟨number, line⟩

@[simp] theorem numberLines_nil (start : Nat) : numberLines start [] = [] := rfl

@[simp] theorem numberLines_cons (start : Nat) (line : List Char) (lines : List (List Char)) :
    numberLines start (line :: lines) = ⟨start, line⟩ :: numberLines (start + 1) lines := rfl

@[simp] theorem numberLines_append (start : Nat) (lines more : List (List Char)) :
    numberLines start (lines ++ more) =
      numberLines start lines ++ numberLines (start + lines.length) more := by
  simp [numberLines, List.zipIdx_append]

@[simp] theorem length_numberLines (start : Nat) (lines : List (List Char)) :
    (numberLines start lines).length = lines.length := by
  simp [numberLines]

@[simp] theorem map_text_numberLines (start : Nat) (lines : List (List Char)) :
    (numberLines start lines).map SourceLine.text = lines := by
  induction lines generalizing start with
  | nil => rfl
  | cons line lines ih => simp [ih]

theorem sourceLines_eq_numberLines (text : List Char) :
    sourceLines text = numberLines 1 ((sourceLines text).map SourceLine.text) := by
  have hall : ∀ (lines : List (List Char)) (start : Nat) (cut : List Char → List Char),
      (lines.zipIdx start).map (fun (line, number) => SourceLine.mk number (cut line)) =
        numberLines start (lines.map cut) := by
    intro lines start cut
    induction lines generalizing start with
    | nil => rfl
    | cons line lines ih => simp [ih]
  rw [sourceLines, hall, map_text_numberLines]

theorem getElem?_numberLines (start : Nat) (lines : List (List Char)) (index : Nat) :
    (numberLines start lines)[index]? = lines[index]?.map (SourceLine.mk (start + index)) := by
  simp only [numberLines, List.getElem?_map, List.getElem?_zipIdx, Option.map_map]
  rfl

@[simp] theorem length_sourceLines (text : List Char) :
    (sourceLines text).length = (splitLines text).length := by
  simp [sourceLines]

theorem number_of_mem_numberLines {start : Nat} {lines : List (List Char)} {line : SourceLine}
    (h : line ∈ numberLines start lines) :
    start ≤ line.number ∧ line.number < start + lines.length := by
  obtain ⟨⟨content, number⟩, hmem, rfl⟩ := List.mem_map.mp h
  exact ⟨List.le_snd_of_mem_zipIdx hmem, List.snd_lt_add_of_mem_zipIdx hmem⟩

theorem number_of_mem_sourceLines {text : List Char} {line : SourceLine}
    (h : line ∈ sourceLines text) : 1 ≤ line.number ∧ line.number ≤ (splitLines text).length := by
  rw [sourceLines_eq_numberLines] at h
  have hnumber := number_of_mem_numberLines h
  rw [List.length_map, length_sourceLines] at hnumber
  omega

theorem number_of_getElem?_sourceLines {text : List Char} {index : Nat} {line : SourceLine}
    (h : (sourceLines text)[index]? = some line) : line.number = index + 1 := by
  rw [sourceLines_eq_numberLines, getElem?_numberLines] at h
  obtain ⟨content, -, rfl⟩ := Option.map_eq_some_iff.mp h
  exact Nat.add_comm 1 index

theorem number_le_of_mem_front {text : List Char} {front back : List SourceLine}
    (h : sourceLines text = front ++ back) {line : SourceLine} (hline : line ∈ front) :
    line.number ≤ front.length := by
  obtain ⟨index, hindex⟩ := List.mem_iff_getElem?.mp hline
  have hlt := (List.getElem?_eq_some_iff.mp hindex).1
  have hat : (sourceLines text)[index]? = some line := by
    rw [h, List.getElem?_append_left hlt, hindex]
  rw [number_of_getElem?_sourceLines hat]
  exact hlt

theorem lt_number_of_mem_back {text : List Char} {front back : List SourceLine}
    (h : sourceLines text = front ++ back) {line : SourceLine} (hline : line ∈ back) :
    front.length < line.number := by
  obtain ⟨index, hindex⟩ := List.mem_iff_getElem?.mp hline
  have hat : (sourceLines text)[front.length + index]? = some line := by
    rw [h, List.getElem?_append_right (Nat.le_add_right _ _), Nat.add_sub_cancel_left, hindex]
  rw [number_of_getElem?_sourceLines hat]
  omega

theorem number_of_split {text : List Char} {above below : List SourceLine} {line : SourceLine}
    (h : sourceLines text = above ++ line :: below) : line.number = above.length + 1 := by
  have hat : (sourceLines text)[above.length]? = some line := by simp [h]
  exact number_of_getElem?_sourceLines hat

/-- A line of a text is found under its number. -/
theorem lineText?_of_mem {text : List Char} {line : SourceLine} (h : line ∈ sourceLines text) :
    lineText? (sourceLines text) line.number = some line.text := by
  rw [sourceLines_eq_numberLines] at h ⊢
  generalize (sourceLines text).map SourceLine.text = lines at h ⊢
  obtain ⟨index, hindex⟩ := List.mem_iff_getElem?.mp h
  have hline := hindex
  rw [getElem?_numberLines] at hline
  obtain ⟨content, -, rfl⟩ := Option.map_eq_some_iff.mp hline
  rw [Nat.add_comm 1] at hindex ⊢
  rw [lineText?, hindex]
  rfl

/-- The line in a text that has `offset` more lines above it. -/
def SourceLine.below (offset : Nat) (line : SourceLine) : SourceLine :=
  { line with number := line.number + offset }

/-- A line of a text that has moved down under `front` is found under its new number. -/
theorem lineText?_below (front own : List SourceLine) (offset : Nat) {number : Nat}
    (h : 1 ≤ number) :
    lineText? (front ++ own.map (SourceLine.below offset)) (number + front.length) =
      lineText? own number := by
  obtain ⟨index, rfl⟩ : ∃ index, number = index + 1 := ⟨number - 1, by omega⟩
  have hsum : index + 1 + front.length = front.length + index + 1 := by omega
  rw [hsum, lineText?, lineText?, List.getElem?_append_right (Nat.le_add_right _ _),
    Nat.add_sub_cancel_left, List.getElem?_map, Option.map_map]
  rfl

theorem map_below_numberLines (offset start : Nat) (lines : List (List Char)) :
    (numberLines start lines).map (SourceLine.below offset) =
      numberLines (start + offset) lines := by
  induction lines generalizing start with
  | nil => rfl
  | cons line lines ih => simp [SourceLine.below, ih, Nat.add_right_comm]

/-- The lines of a text move down under a text whose lines stand apart from it. -/
theorem sourceLines_append {front text : List Char}
    (h : splitLines (front ++ text) = splitLines front ++ splitLines text) :
    sourceLines (front ++ text) =
      sourceLines front ++ (sourceLines text).map (SourceLine.below (splitLines front).length) := by
  rw [sourceLines, h, List.zipIdx_append, List.map_append]
  congr 1
  refine List.ext_getElem? fun index => ?_
  simp only [sourceLines, List.getElem?_map, List.getElem?_zipIdx, Option.map_map]
  refine congrArg (Option.map · _) (funext fun line => ?_)
  simp only [Function.comp_apply, SourceLine.below, SourceLine.mk.injEq, and_true]
  omega

theorem sourceLines_of_isWhole {lines : List (List Char)} (h : ∀ line ∈ lines, IsWhole line) :
    sourceLines (joinLines lines) = numberLines 1 lines := by
  have hsplit := splitLines_joinLines h []
  rw [List.append_nil, splitLines, List.append_nil] at hsplit
  rw [sourceLines, hsplit]
  refine List.map_congr_left fun (line, number) hmem => ?_
  have hline := (h line (List.fst_mem_of_mem_zipIdx hmem)).carriageReturn
  exact congrArg (SourceLine.mk number) hline

/-- Lines above a text are cut out as they were written, and the lines of the text move down. -/
theorem sourceLines_joinLines {lines : List (List Char)} (h : ∀ line ∈ lines, IsWhole line)
    (text : List Char) :
    sourceLines (joinLines lines ++ text) =
      numberLines 1 lines ++ (sourceLines text).map (SourceLine.below lines.length) := by
  have hsplit : splitLines (joinLines lines) = lines := by
    simpa [splitLines] using splitLines_joinLines h []
  have happend : splitLines (joinLines lines ++ text) =
      splitLines (joinLines lines) ++ splitLines text := by
    rw [splitLines_joinLines h, hsplit]
  rw [sourceLines_append happend, sourceLines_of_isWhole h, hsplit]

/-! ## Layout -/

theorem IsBare.isTextMarker_eq {line : SourceLine} (h : IsBare line.text) :
    isTextMarker line = false := by
  obtain ⟨first, rest, htrim, hfirst⟩ := h.trim_eq_cons
  refine decide_eq_false fun heq => ?_
  rw [htrim] at heq
  have hdot : first = '.' := (List.cons.inj heq).1
  exact ne_of_isWordChar hfirst (by decide) hdot

/-- A text with a text marker behind its data segment is laid out by it, unless a second one
    follows. -/
theorem Layout.ofLines_eq {header second marker : SourceLine} {data text : List SourceLine}
    (hheader : isMarker headerLine (some header) = true)
    (hsecond : isMarker dataMarker (some second) = true)
    (hdata : ∀ line ∈ data, isTextMarker line = false) (hmarker : isTextMarker marker = true) :
    Layout.ofLines (header :: second :: (data ++ marker :: text)) =
      match text.filter isTextMarker with
      | [] => .ok ⟨data, marker.number, text⟩
      | extra :: _ => .error ⟨.duplicateTextMarker, Span.point extra.number 1⟩ := by
  have hfilter : (data ++ marker :: text).filter isTextMarker =
      marker :: text.filter isTextMarker := by
    rw [List.filter_append, List.filter_eq_nil_iff.mpr (by simpa using hdata), List.nil_append,
      List.filter_cons_of_pos hmarker]
  have hall : ∀ line ∈ data, (!isTextMarker line) = true := by simpa using hdata
  have htake : (data ++ marker :: text).takeWhile (fun line => !isTextMarker line) = data := by
    rw [List.takeWhile_append_of_pos hall]
    simp [hmarker]
  have hdrop : (data ++ marker :: text).dropWhile (fun line => !isTextMarker line) =
      marker :: text := by
    rw [List.dropWhile_append_of_pos hall]
    simp [hmarker]
  simp only [Layout.ofLines, List.getElem?_cons_zero, List.getElem?_cons_succ, hheader, hsecond,
    Bool.not_true, Bool.false_eq_true, if_false, List.drop_succ_cons, List.drop_zero, hfilter,
    htake, hdrop]
  cases text.filter isTextMarker <;> rfl

/-- What the layout of a text says about its lines. -/
theorem Layout.lines_of_ofLines {lines : List SourceLine} {layout : Layout}
    (h : Layout.ofLines lines = .ok layout) :
    ∃ header second marker, lines = header :: second :: (layout.data ++ marker :: layout.text) ∧
      isMarker headerLine (some header) = true ∧ isMarker dataMarker (some second) = true ∧
      (∀ line ∈ layout.data, isTextMarker line = false) ∧ isTextMarker marker = true ∧
      marker.number = layout.textLine ∧ layout.text.filter isTextMarker = [] := by
  have hlayout := h
  unfold Layout.ofLines at h
  split at h
  · cases h
  rename_i hheader
  split at h
  · cases h
  rename_i hsecond
  obtain _ | ⟨header, _ | ⟨second, body⟩⟩ := lines
  · simp [isMarker] at hheader
  · simp [isMarker] at hsecond
  have hheader : isMarker headerLine (some header) = true := by simpa using hheader
  have hsecond : isMarker dataMarker (some second) = true := by simpa using hsecond
  dsimp only at h
  split at h
  · cases h
  · rename_i marker hmarkers
    obtain ⟨data, text, hbody, hdata, hmarker, htext⟩ := List.filter_eq_cons_iff.mp hmarkers
    have hbody : body = data ++ marker :: text := hbody
    have hdata : ∀ line ∈ data, isTextMarker line = false := by simpa using hdata
    rw [hbody, Layout.ofLines_eq hheader hsecond hdata hmarker, htext] at hlayout
    cases hlayout
    exact ⟨header, second, marker, by rw [hbody], hheader, hsecond, hdata, hmarker, rfl, htext⟩
  · cases h

theorem Layout.textLine_eq {text : List Char} {layout : Layout}
    (h : Layout.ofLines (sourceLines text) = .ok layout) :
    layout.textLine = layout.data.length + 3 := by
  obtain ⟨header, second, marker, hlines, -, -, -, -, hnumber, -⟩ := Layout.lines_of_ofLines h
  have hsplit : sourceLines text = (header :: second :: layout.data) ++ marker :: layout.text :=
    hlines
  rw [← hnumber, number_of_split hsplit]
  rfl

/-- The text segment is all that stands below its marker. -/
theorem Layout.exists_above_text {text : List Char} {layout : Layout}
    (h : Layout.ofLines (sourceLines text) = .ok layout) :
    ∃ above marker, sourceLines text = (above ++ [marker]) ++ layout.text ∧
      (∀ line ∈ layout.data, line ∈ above) ∧ marker.number = layout.textLine ∧
      layout.textLine = (above ++ [marker]).length := by
  obtain ⟨header, second, marker, hlines, -, -, -, -, hnumber, -⟩ := Layout.lines_of_ofLines h
  refine ⟨header :: second :: layout.data, marker, by simp [hlines], ?_, hnumber, ?_⟩
  · intro line hline
    simp [hline]
  · simp [Layout.textLine_eq h]

/-- Lines without a text marker that are written under a text go to its text segment. -/
theorem Layout.ofLines_append {lines more : List SourceLine} {layout : Layout}
    (h : Layout.ofLines lines = .ok layout) (hmore : ∀ line ∈ more, isTextMarker line = false) :
    Layout.ofLines (lines ++ more) = .ok { layout with text := layout.text ++ more } := by
  obtain ⟨header, second, marker, rfl, hheader, hsecond, hdata, hmarker, hnumber, htext⟩ :=
    Layout.lines_of_ofLines h
  have hfilter : (layout.text ++ more).filter isTextMarker = [] := by
    rw [List.filter_append, htext, List.nil_append]
    exact List.filter_eq_nil_iff.mpr (by simpa using hmore)
  have hlines : header :: second :: (layout.data ++ marker :: layout.text) ++ more =
      header :: second :: (layout.data ++ marker :: (layout.text ++ more)) := by simp
  rw [hlines, Layout.ofLines_eq hheader hsecond hdata hmarker, hfilter, hnumber]

theorem Program.read_of_layout {text : List Char} {layout : Layout}
    (h : Layout.ofLines (sourceLines text) = .ok layout) :
    Program.read text = Program.ofLayout (sourceLines text) layout := by
  rw [Program.read, Program.ofLines, h]

end TapePuzzle
