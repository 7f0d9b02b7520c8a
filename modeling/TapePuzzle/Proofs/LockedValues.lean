import TapePuzzle.Proofs.Assemblies
import TapePuzzle.Proofs.Reading.Changes

/-!
# Values that a learner may not edit

A name that a learner picks is written in front of the value of its slot, as it is, and the line is
then read like any other. A comment sign in the name cuts the value off, and a line feed starts a
line of its own. Main statement: with any other name, be it ever so odd, the value of the slot and
the objects are those of the test case, or the program is not valid.
-/

namespace TapePuzzle

/-! ## Texts that end in a word -/

/-- The text is the word, or ends in the word after a space. -/
def EndsIn (word text : List Char) : Prop := text = word ∨ ∃ front, text = front ++ ' ' :: word

namespace EndsIn

variable {word text : List Char}

theorem not_all_isBlank (hword : IsWord word) (h : EndsIn word text) :
    text.all isBlank = false := by
  obtain ⟨first, more, rfl, hfirst⟩ := hword.exists_cons
  rcases h with rfl | ⟨front, rfl⟩ <;> simp [isBlank_of_isWordChar hfirst]

theorem afterBlanks (hword : IsWord word) (h : EndsIn word text) :
    EndsIn word (afterBlanks text) := by
  have hself : TapePuzzle.afterBlanks word = word := by
    simpa using hword.afterBlanks_append []
  rcases h with rfl | ⟨front, rfl⟩
  · exact .inl hself
  · induction front with
    | nil => exact .inl hself
    | cons c front ih =>
        by_cases hc : isBlank c = true
        · simpa [TapePuzzle.afterBlanks, hc] using ih
        · refine .inr ⟨c :: front, ?_⟩
          simp [TapePuzzle.afterBlanks, hc]

/-- What is taken from the front without a space leaves the last word alone, unless the text is this
    word. -/
theorem of_append {found rest : List Char} (h : EndsIn word (found ++ rest))
    (hspace : ' ' ∉ found) : EndsIn word rest ∨ found ++ rest = word := by
  rcases h with h | ⟨front, h⟩
  · exact .inr h
  · left
    rcases List.append_eq_append_iff.mp h with ⟨more, -, rfl⟩ | ⟨more, rfl, hmore⟩
    · exact .inr ⟨more, rfl⟩
    · cases more with
      | nil => exact .inr ⟨[], hmore.symm⟩
      | cons c more =>
          obtain ⟨rfl, -⟩ := List.cons.inj hmore
          simp at hspace

end EndsIn

theorem not_mem_of_isWordChar {word : List Char} {c : Char} (h : ∀ c ∈ word, isWordChar c = true)
    (hc : isWordChar c = false) : c ∉ word :=
  fun hmem => ne_of_isWordChar (h c hmem) hc rfl

/-! ## A line about a slot -/

namespace Cursor

variable {c past : Cursor}

theorem space_not_mem_integer (h : c.eat? .integer = some past) : ' ' ∉ past.matched :=
  not_mem_of_isWordChar (isInteger_of_eat? h).isWord.chars (by decide)

theorem space_not_mem_identifier (h : c.eat? .identifier = some past) : ' ' ∉ past.matched := by
  have hword := isWord_of_isIdentifier (isIdentifier_of_eat? h)
  rw [word, String.toList_ofList] at hword
  exact not_mem_of_isWordChar hword.chars (by decide)

end Cursor

namespace Declarations

variable {d d' : Declarations} {c : Cursor} {index : Nat} {value : Int}

theorem endsIn_readSlotName (h : EndsIn (writeInteger value) c.rest) :
    EndsIn (writeInteger value) (readSlotName c).2.rest := by
  have hskip : EndsIn (writeInteger value) c.skipBlanks.rest :=
    h.afterBlanks (isWord_writeInteger value)
  unfold readSlotName
  dsimp only
  split
  · exact hskip
  · rename_i named hnamed
    rw [Cursor.rest_of_eat? hnamed] at hskip
    refine (hskip.of_append (Cursor.space_not_mem_identifier hnamed)).resolve_right fun heq => ?_
    -- a number alone is not taken for a name
    have hnumber : c.skipBlanks.rest = writeInteger value ++ [] := by
      rw [Cursor.rest_of_eat? hnamed, heq, List.append_nil]
    rw [Cursor.eat?_identifier_of_integer hnumber] at hnamed
    cases hnamed

/-- The value is the last word of its line: one that is read earlier leaves it as trailing text. -/
theorem eq_of_readSlotValue {value? : Option Int} {past : Cursor}
    (h : EndsIn (writeInteger value) c.rest) (hread : readSlotValue c = .ok (value?, past))
    (hend : past.sees .endOfLine = true) : value? = some value := by
  have hword := isWord_writeInteger value
  have hskip : EndsIn (writeInteger value) c.skipBlanks.rest := h.afterBlanks hword
  rw [Cursor.sees_endOfLine] at hend
  unfold readSlotValue at hread
  dsimp only at hread
  split at hread
  · cases hread
    rw [hskip.not_all_isBlank hword] at hend
    cases hend
  · rename_i counted hcounted
    obtain ⟨found, hfound, hread⟩ := bind_eq_ok_iff.mp hread
    cases hread
    have hskip' := hskip
    rw [Cursor.rest_of_eat? hcounted] at hskip'
    rcases hskip'.of_append (Cursor.space_not_mem_integer hcounted) with hrest | heq
    · rw [hrest.not_all_isBlank hword] at hend
      cases hend
    · have hnumber : c.skipBlanks.rest = writeInteger value ++ [] := by
        rw [Cursor.rest_of_eat? hcounted, heq, List.append_nil]
      obtain ⟨counted', hcounted', -, hmatched⟩ :=
        Cursor.eat?_integer (isInteger_writeInteger _) hnumber rfl
      rw [hcounted'] at hcounted
      cases hcounted
      unfold readDataValue at hfound
      dsimp only at hfound
      split at hfound
      · cases hfound
        rw [hmatched, readInteger_writeInteger]
      · cases hfound

theorem setSlot_of_readSlotBinding (h : EndsIn (writeInteger value) c.rest)
    (hread : { d with bound := index :: d.bound }.readSlotBinding index c = .ok d') :
    ∃ ident?, d' = d.setSlot index ident? value := by
  obtain ⟨ident?, named, value?, past, hname, hvalue, hend, -, rfl⟩ :=
    eq_occupy_of_readSlotBinding hread
  have hnamed := endsIn_readSlotName h
  rw [hname] at hnamed
  obtain rfl := eq_of_readSlotValue hnamed hvalue hend
  exact ⟨ident?, by cases ident? <;> rfl⟩

end Declarations

theorem slotLine?_eq_append {slot : Slot} {index : Nat} {line : List Char}
    (h : slotLine? slot index = some line) :
    ∃ rest, line = writeInteger index ++ rest ∧ Stops Char.isDigit rest ∧
      EndsIn (writeInteger slot.value) rest := by
  unfold slotLine? at h
  dsimp only at h
  split at h
  · rename_i name _
    obtain rfl := Option.some.inj h
    refine ⟨' ' :: name.toList ++ ' ' :: writeInteger slot.value, by simp, rfl, ?_⟩
    exact .inr ⟨' ' :: name.toList, rfl⟩
  · split at h
    · cases h
    · obtain rfl := Option.some.inj h
      exact ⟨' ' :: writeInteger slot.value, by simp, rfl, .inr ⟨[], rfl⟩⟩

/-! ## Findings stay -/

namespace Declarations

variable {d d' : Declarations}

theorem Change.findings_subset (h : d.Change d') : d.findings ⊆ d'.findings := by
  cases h with
  | reject | spoil => exact List.subset_append_left _ _
  | @occupy index ident? value? => cases ident? <;> cases value? <;> exact List.Subset.refl _
  | none | layOut | addObject => exact List.Subset.refl _

theorem LabelChange.findings_subset {line : SourceLine} {index : Nat}
    (h : d.LabelChange line index d') : d.findings ⊆ d'.findings := by
  cases h with
  | reject => exact List.subset_append_left _ _
  | none | addLabel => exact List.Subset.refl _

theorem Changes.findings_eq_nil (h : d.Changes d') (hnil : d'.findings = []) :
    d.findings = [] := by
  induction h with
  | refl => exact hnil
  | step _ hchange ih => exact ih (List.subset_nil.mp (hnil ▸ hchange.findings_subset))

theorem findings_subset_readLabels (d : Declarations) (lines : List SourceLine) :
    d.findings ⊆ (d.readLabels lines).findings :=
  @readLabels_keeps d (fun d' => d.findings ⊆ d'.findings) lines (List.Subset.refl _)
    fun _ hsubset hchange => List.Subset.trans hsubset hchange.findings_subset

end Declarations

/-! ## The data segment -/

namespace DataSegment

variable {s : DataSegment} {line : SourceLine} {lines : List SourceLine} {values : List Int}
  {left : Nat} {objects : List Container}

/-- The first slots have the given values under whatever names, and no line was about the others
    yet. -/
structure Fills (s : DataSegment) (values : List Int) (left : Nat) (objects : List Container) :
    Prop where
  sound : s.Sound
  sawLength : s.sawLength = true
  tape : ∃ done : List Slot, done.map Slot.value = values ∧
    s.declarations.tape = done ++ List.replicate left ({} : Slot)
  bound : ∀ index ∈ s.declarations.bound, index < values.length
  objects : s.declarations.objects = objects

theorem fills_laidOut (length : Nat) : (laidOut length).Fills [] length [] := by
  have hzero : ∀ slot ∈ (laidOut length).declarations.tape, inRange slot.value = true := by
    intro slot hslot
    rw [List.eq_of_mem_replicate hslot]
    decide
  have hsound : (laidOut length).declarations.Sound :=
    ⟨by simp [laidOut], rfl, rfl, hzero, by simp [laidOut], by simp [laidOut]⟩
  exact ⟨⟨hsound, by simp [laidOut]⟩, rfl, ⟨[], rfl, rfl⟩, by simp [laidOut], rfl⟩

theorem Fills.skipSlot (h : s.Fills values (left + 1) objects) :
    s.Fills (values ++ [0]) left objects := by
  obtain ⟨done, rfl, htape⟩ := h.tape
  refine ⟨h.sound, h.sawLength, ⟨done ++ [({} : Slot)], by simp, ?_⟩, fun index hindex => ?_,
    h.objects⟩
  · simpa [List.replicate_succ] using htape
  · rw [List.length_append]
    exact Nat.lt_succ_of_lt (h.bound index hindex)

theorem exists_setSlot_of_readLine {slot : Slot} {index : Nat} (hsaw : s.sawLength = true)
    (hline : slotLine? slot index = some line.text) (hbare : IsBare line.text)
    (hindex : index < s.declarations.tape.length) (hfree : index ∉ s.declarations.bound)
    (hfindings : (s.readLine line).declarations.findings = []) :
    ∃ ident?, s.readLine line =
      { s with declarations := s.declarations.setSlot index ident? slot.value } := by
  obtain ⟨rest, htext, hstops, hends⟩ := slotLine?_eq_append hline
  obtain ⟨counted, hcounted, hread⟩ := Declarations.readDeclaration_of_index
    (c := Cursor.start line.number line.text) htext hstops hindex hfree
  rw [readLine_of_slotLine hsaw hline hbare, hread] at hfindings ⊢
  dsimp only at hfindings ⊢
  cases hbinding : { s.declarations with bound := index :: s.declarations.bound
    }.readSlotBinding index counted with
  | error finding =>
      rw [hbinding] at hfindings
      simp [Declarations.orReject, Declarations.reject] at hfindings
  | ok declared =>
      obtain ⟨ident?, rfl⟩ := Declarations.setSlot_of_readSlotBinding (hcounted ▸ hends) hbinding
      exact ⟨ident?, rfl⟩

theorem Fills.setSlot (h : s.Fills values (left + 1) objects) {slot : Slot}
    (hline : slotLine? slot values.length = some line.text) (hbare : IsBare line.text)
    (hfindings : (s.readLine line).declarations.findings = []) :
    (s.readLine line).Fills (values ++ [slot.value]) left objects := by
  obtain ⟨done, rfl, htape⟩ := h.tape
  rw [List.length_map] at hline
  have hfree : done.length ∉ s.declarations.bound := fun hmem => by simpa using h.bound _ hmem
  obtain ⟨ident?, hread⟩ := exists_setSlot_of_readLine h.sawLength hline hbare (by simp [htape])
    hfree hfindings
  have hsound := h.sound.readLine line
  rw [List.replicate_succ] at htape
  rw [hread] at hsound ⊢
  refine ⟨hsound, h.sawLength, ⟨done ++ [⟨ident?.map Ident.name, slot.value⟩], by simp, ?_⟩,
    fun index hmem => ?_, Declarations.objects_setSlot.trans h.objects⟩
  · simpa using Declarations.tape_setSlot htape
  · rw [Declarations.bound_setSlot] at hmem
    rw [List.length_append, List.length_map]
    rcases List.mem_cons.mp hmem with rfl | hmem
    · exact Nat.lt_succ_self _
    · exact Nat.lt_succ_of_lt (by simpa using h.bound index hmem)

theorem Fills.addObject (h : s.Fills values left objects) {object : ObjectDecl}
    (hline : line.text = objectLine object) (hname : isIdentifier object.name = true)
    (hlength : object.values.length ≤ maxObjectLength)
    (hvalues : ∀ value ∈ object.values, inRange value = true)
    (hfindings : (s.readLine line).declarations.findings = []) :
    (s.readLine line).Fills values left (objects ++ [object.container]) := by
  have hsound := h.sound.readLine line
  obtain ⟨ident, hident, hread⟩ := readLine_objectLine h.sawLength hline hname hlength hvalues
  rw [hread, Declarations.declareObject] at hfindings hsound ⊢
  dsimp only at hfindings
  cases hcheck : s.declarations.checkName ident with
  | error finding =>
      rw [hcheck] at hfindings
      simp [Declarations.orReject, Declarations.reject, bind, Except.bind] at hfindings
  | ok checked =>
      rw [hcheck] at hsound
      refine ⟨hsound, h.sawLength, h.tape, h.bound, ?_⟩
      rw [← h.objects, ObjectDecl.container, ← hident]
      rfl

-- A name may stand in the way of a line, so both runs keep the values only as long as nothing is
-- found wrong. What is found is never dropped: the end decides about every line.

theorem Fills.slotLines {tape : List Slot} (h : s.Fills [] tape.length objects)
    (hlines : lines.map SourceLine.text =
      tape.zipIdx.filterMap fun (slot, index) => slotLine? slot index)
    (hbare : ∀ slot ∈ tape, ∀ index text, slotLine? slot index = some text → IsBare text)
    (hfindings : (lines.foldl readLine s).declarations.findings = []) :
    (lines.foldl readLine s).Fills (tape.map Slot.value) 0 objects := by
  refine (slotLines_keep (fun done left s => s.Sound ∧
    (s.declarations.findings = [] → s.Fills (done.map Slot.value) left objects))
    (List.nil_append tape) hlines ?_ ?_ ⟨h.sound, fun _ => h⟩).2 hfindings
  · intro done slot left s hfront hnone hs
    obtain rfl := slot_of_slotLine?_eq_none hnone
    rw [List.map_append]
    exact ⟨hs.1, fun hnil => (hs.2 hnil).skipSlot⟩
  · intro done slot left line s hfront hline hs
    refine ⟨hs.1.readLine line, fun hnil => ?_⟩
    have hearlier := (changes_readLine hs.1 line).findings_eq_nil hnil
    rw [List.map_append]
    exact (hs.2 hearlier).setSlot (by rwa [List.length_map])
      (hbare slot (hfront.subset (by simp)) _ _ hline) hnil

theorem Fills.objectLines {decls : List ObjectDecl} (h : s.Fills values left [])
    (hlines : lines.map SourceLine.text = decls.map objectLine)
    (hnames : ∀ object ∈ decls, isIdentifier object.name = true)
    (hlengths : ∀ object ∈ decls, object.values.length ≤ maxObjectLength)
    (hvalues : ∀ object ∈ decls, ∀ value ∈ object.values, inRange value = true)
    (hfindings : (lines.foldl readLine s).declarations.findings = []) :
    (lines.foldl readLine s).Fills values left (decls.map ObjectDecl.container) := by
  refine (objectLines_keep (fun done s => s.Sound ∧
    (s.declarations.findings = [] → s.Fills values left (done.map ObjectDecl.container)))
    (List.nil_append decls) hlines ?_ ⟨h.sound, fun _ => h⟩).2 hfindings
  intro done object line s hfront hline hs
  have hobject : object ∈ decls := hfront.subset (by simp)
  refine ⟨hs.1.readLine line, fun hnil => ?_⟩
  have hearlier := (changes_readLine hs.1 line).findings_eq_nil hnil
  rw [List.map_append]
  exact (hs.2 hearlier).addObject hline (hnames object hobject) (hlengths object hobject)
    (hvalues object hobject) hnil

end DataSegment

/-! ## Headings -/

/-- A tape and objects whose names stay on their lines. -/
structure Contained (tape : List Slot) (objects : List ObjectDecl) : Prop where
  least : 1 ≤ tape.length
  most : tape.length ≤ maxTapeLength
  slotNames : ∀ slot ∈ tape, ∀ name ∈ slot.name, '#' ∉ name.toList ∧ '\n' ∉ name.toList
  objectNames : ∀ object ∈ objects, isIdentifier object.name = true
  objectLengths : ∀ object ∈ objects, object.values.length ≤ maxObjectLength
  objectValues : ∀ object ∈ objects, ∀ value ∈ object.values, inRange value = true

theorem not_mem_slotLine {slot : Slot} {index : Nat} {line : List Char} {c : Char}
    (h : slotLine? slot index = some line) (hname : ∀ name ∈ slot.name, c ∉ name.toList)
    (hc : isWordChar c = false) (hspace : c ≠ ' ') : c ∉ line := by
  have hnumber : ∀ n : Int, c ∉ writeInteger n := fun n =>
    not_mem_of_isWordChar (isWord_writeInteger n).chars hc
  unfold slotLine? at h
  dsimp only at h
  split at h
  · rename_i name hsome
    obtain rfl := Option.some.inj h
    simp [hnumber, hspace, hname name hsome]
  · split at h
    · cases h
    · obtain rfl := Option.some.inj h
      simp [hnumber, hspace]

theorem isWhole_and_isBare_slotLine {slot : Slot} {index : Nat} {line : List Char}
    (h : slotLine? slot index = some line)
    (hname : ∀ name ∈ slot.name, '#' ∉ name.toList ∧ '\n' ∉ name.toList) :
    IsWhole line ∧ IsBare line := by
  have hword := isWord_writeInteger slot.value
  refine ⟨⟨?_, ?_⟩, ?_, ?_⟩
  · exact not_mem_slotLine h (fun name hmem => (hname name hmem).2) (by decide) (by decide)
  · -- the value at the end of the line keeps it from ending in carriage returns
    obtain ⟨rest, rfl, -, hends⟩ := slotLine?_eq_append h
    have hreturn : ∀ c ∈ writeInteger slot.value, (c == '\r') = false := fun c hc =>
      beq_eq_false_iff_ne.mpr (ne_of_isWordChar (hword.chars c hc) (by decide))
    rcases hends with rfl | ⟨front, rfl⟩
    · exact dropEndWhile_append hword.ne_nil (dropEndWhile_eq_self hreturn) _
    · have hassoc : writeInteger index ++ (front ++ ' ' :: writeInteger slot.value) =
          (writeInteger index ++ front ++ [' ']) ++ writeInteger slot.value := by simp
      rw [hassoc]
      exact dropEndWhile_append hword.ne_nil (dropEndWhile_eq_self hreturn) _
  · obtain ⟨rest, rfl, -⟩ := slotLine?_eq_append h
    obtain ⟨first, more, heq, hfirst⟩ := (isWord_writeInteger index).exists_cons
    exact ⟨first, more ++ rest, by rw [heq]; rfl, hfirst⟩
  · exact not_mem_slotLine h (fun name hmem => (hname name hmem).1) (by decide) (by decide)

namespace Contained

variable {tape : List Slot} {objects : List ObjectDecl} (h : Contained tape objects)

include h

theorem isWhole_and_isBare_dataLines :
    ∀ line ∈ dataLines tape objects, IsWhole line ∧ IsBare line := by
  intro line hline
  simp only [dataLines, List.mem_append, List.mem_singleton, List.mem_filterMap, List.mem_map]
    at hline
  rcases hline with (rfl | ⟨⟨slot, index⟩, hmem, hline⟩) | ⟨object, hobject, rfl⟩
  · have hplain := DataSegment.isPlain_tapeLength tape.length
    exact ⟨hplain.isWhole, hplain.isBare⟩
  · exact isWhole_and_isBare_slotLine hline
      (h.slotNames slot (List.fst_mem_of_mem_zipIdx hmem))
  · have hplain := isPlain_objectLine (h.objectNames object hobject)
    exact ⟨hplain.isWhole, hplain.isBare⟩

/-- If nothing is wrong with the lines of a heading, the values and the objects are those that it
    was written from. -/
theorem values_dataLines {lines : List SourceLine}
    (hlines : lines.map SourceLine.text = dataLines tape objects) (textLine : Nat)
    (hfindings : (DataSegment.read lines textLine).findings = []) :
    (DataSegment.read lines textLine).tape.map Slot.value = tape.map Slot.value ∧
      (DataSegment.read lines textLine).objects = objects.map ObjectDecl.container := by
  obtain ⟨slotLines, objectLines, hslots, hobjects, hread⟩ :=
    DataSegment.exists_foldl_dataLines hlines h.least h.most
  have hbare : ∀ slot ∈ tape, ∀ index text, slotLine? slot index = some text → IsBare text :=
    fun slot hslot _ _ hline => (isWhole_and_isBare_slotLine hline (h.slotNames slot hslot)).2
  have hnil : (lines.foldl DataSegment.readLine {}).declarations.findings = [] :=
    (DataSegment.changes_demandLength _ textLine).findings_eq_nil hfindings
  have hstart := DataSegment.fills_laidOut tape.length
  have hslotSound := DataSegment.sound_foldl hstart.sound slotLines
  rw [hread] at hnil
  have hslotsFill := hstart.slotLines hslots hbare
    ((DataSegment.changes_foldl hslotSound objectLines).findings_eq_nil hnil)
  have hfill := hslotsFill.objectLines hobjects h.objectNames h.objectLengths h.objectValues hnil
  rw [← hread] at hfill
  rw [DataSegment.read_of_sawLength hfill.sawLength]
  obtain ⟨done, hdone, htape⟩ := hfill.tape
  refine ⟨?_, hfill.objects⟩
  simpa [htape] using hdone

/-- A valid program has the values and the objects that its heading was written from. -/
theorem values_heading {text : List Char}
    (hvalid : (Program.read (heading tape objects ++ text)).isValid = true) :
    (Program.read (heading tape objects ++ text)).tape.map Slot.value = tape.map Slot.value ∧
      (Program.read (heading tape objects ++ text)).objects =
        objects.map ObjectDecl.container := by
  have hlayout := layout_heading h.isWhole_and_isBare_dataLines text
  unfold Program.read Program.ofLines at hvalid ⊢
  split at hvalid
  · cases hvalid
  · rename_i layout hsome
    rw [hsome] at hlayout
    split at hlayout
    · cases hlayout
      simp only [Program.isValid, Program.ofLayout, List.isEmpty_iff, List.map_eq_nil_iff,
        List.append_eq_nil_iff] at hvalid
      have hlabels := Declarations.labels_readLabels
        (DataSegment.read (numberLines 3 (dataLines tape objects))
          (headingLines tape objects).length)
        ((sourceLines text).map (SourceLine.below (headingLines tape objects).length))
      have hfindings := List.subset_nil.mp (hvalid.1 ▸ Declarations.findings_subset_readLabels
        (DataSegment.read (numberLines 3 (dataLines tape objects))
          (headingLines tape objects).length)
        ((sourceLines text).map (SourceLine.below (headingLines tape objects).length)))
      obtain ⟨hvalues, hobjects⟩ := h.values_dataLines
        (map_text_numberLines 3 (dataLines tape objects)) _ hfindings
      refine ⟨?_, hlabels.objects.trans hobjects⟩
      rw [← hvalues, ← hlabels.tape]
      rfl
    · cases hlayout

end Contained

/-! ## Locked values -/

theorem TestCase.length_of_mem_slots {case : TestCase} {index slotCount : Nat}
    (h : case.check index slotCount = .ok ()) {values : List Int}
    (hvalues : case.slots = some values) : values.length = slotCount := by
  obtain ⟨⟨⟩, hslots, -⟩ := bind_eq_ok_iff.mp h
  rw [hvalues] at hslots
  simp only [TestCase.checkSlotList] at hslots
  split at hslots
  · assumption
  · cases hslots

namespace Puzzle

variable {puzzle : Puzzle} {case : TestCase} {bindings : List SlotBinding}

/-- The name of a slot is the learner's last choice for it, where the puzzle allows it, or the
    puzzle's own. -/
theorem binding_or_own_of_slotName? {index : Nat} {name : String}
    (h : puzzle.slotName? bindings index = some name) :
    (puzzle.renamableSlots = true ∧
      ∃ binding ∈ bindingFor? bindings index, binding.name = some name) ∨
      some name ∈ puzzle.slotNames := by
  simp only [slotName?, Option.orElse_eq_orElse, Option.orElse_eq_or,
    Option.or_eq_some_iff] at h
  rcases h with hchosen | ⟨-, hown⟩
  · split at hchosen
    · rename_i hrenamable
      exact .inl ⟨hrenamable, Option.bind_eq_some_iff.mp hchosen⟩
    · cases hchosen
  · exact .inr (List.mem_of_getElem? (Option.join_eq_some_iff.mp hown))

/-- Without permission to edit them, the values of the slots are those of the test case. -/
theorem values_initialTape (hlocked : puzzle.editableValues = false)
    (hlength : ∀ values, case.slots = some values → values.length = puzzle.slotCount) :
    (puzzle.initialTape case bindings).map Slot.value =
      case.slots.getD (List.replicate puzzle.slotCount 0) := by
  simp only [initialTape, List.map_map, Function.comp_def, slotValue, hlocked, Bool.false_eq_true,
    if_false, Option.orElse_eq_orElse, Option.orElse_none]
  cases hslots : case.slots with
  | none => simp [List.map_const']
  | some values =>
      rw [← hlength values hslots]
      refine List.ext_getElem (by simp) fun index hindex hvalue => ?_
      have hplace : index < values.length := by simpa using hindex
      simp [hplace]

theorem contained_initialTape (hpuzzle : puzzle.validate = .ok ())
    (hcase : case ∈ puzzle.testCases)
    (hslots : ∀ name, some name ∈ puzzle.slotNames → isIdentifier name = true)
    (hobjects : ∀ object ∈ case.objects, isIdentifier object.name = true)
    (hnames : puzzle.renamableSlots = true → ∀ index < puzzle.slotCount,
      ∀ binding ∈ bindingFor? bindings index, ∀ name ∈ binding.name,
        '#' ∉ name.toList ∧ '\n' ∉ name.toList) :
    Contained (puzzle.initialTape case bindings) case.objects := by
  obtain ⟨hleast, hmost, hcases⟩ := puzzle.check_of_validate hpuzzle
  obtain ⟨index, hcheck⟩ := hcases case hcase
  obtain ⟨hlengths, hall⟩ := TestCase.objects_of_check hcheck
  refine ⟨by simpa using hleast, by simpa using hmost, ?_, hobjects, hlengths,
    TestCase.inRange_of_mem_objects hall⟩
  intro slot hslot name hname
  obtain ⟨place, hplace, rfl⟩ := List.mem_map.mp hslot
  rcases binding_or_own_of_slotName? hname with ⟨hrenamable, binding, hbinding, hpicked⟩ | hown
  · exact hnames hrenamable place (List.mem_range.mp hplace) binding hbinding name hpicked
  · have hword := isWord_of_isIdentifier (hslots name hown)
    exact ⟨not_mem_of_isWordChar hword.chars (by decide),
      not_mem_of_isWordChar hword.chars (by decide)⟩

end Puzzle

/-- In a puzzle that does not let learners edit values, names without comment signs and line feeds
    cannot do it either: if the program for a test case is valid, its tape starts with the values of
    the case, and its objects are those of the case. Nothing is asked of names that are not used:
    those in a puzzle that allows no names, for slots beyond the tape, or replaced by a later
    choice. -/
theorem Assembly.locked_values_of_valid (puzzle : Puzzle) (case : TestCase)
    (submission : Submission) (hpuzzle : puzzle.validate = .ok ())
    (hlocked : puzzle.editableValues = false)
    (hslots : ∀ name, some name ∈ puzzle.slotNames → isIdentifier name = true)
    (hcase : case ∈ puzzle.testCases)
    (hobjects : ∀ object ∈ case.objects, isIdentifier object.name = true)
    (hnames : puzzle.renamableSlots = true → ∀ index < puzzle.slotCount,
      ∀ binding ∈ bindingFor? submission.bindings index, ∀ name ∈ binding.name,
        '#' ∉ name.toList ∧ '\n' ∉ name.toList)
    (hvalid : (Program.read (Assembly.build puzzle case submission).source).isValid = true) :
    let p := Program.read (Assembly.build puzzle case submission).source
    p.tape.map Slot.value = case.slots.getD (List.replicate puzzle.slotCount 0) ∧
      p.objects = case.objects.map ObjectDecl.container := by
  intro p
  have hcontained := Puzzle.contained_initialTape hpuzzle hcase hslots hobjects hnames
  obtain ⟨hvalues, hsame⟩ := hcontained.values_heading hvalid
  obtain ⟨index, hcheck⟩ := (puzzle.check_of_validate hpuzzle).2.2 case hcase
  refine ⟨hvalues.trans (Puzzle.values_initialTape hlocked ?_), hsame⟩
  exact fun values hsome => TestCase.length_of_mem_slots hcheck hsome

/-- A puzzle that lets learners name its slots but not edit its values. -/
def nameablePuzzle : Puzzle where
  slotCount := 2
  testCases := [{ objects := [⟨.stack, "s", [6]⟩], slots := some [7, -3] }]
  slotNames := [none, some "n"]
  renamableSlots := true

/-- A submission that picks a name with blanks around it, and a value. Two names with comment signs
    are not used: one is replaced, and one is for a slot beyond the tape. -/
def blanksAroundName : Submission where
  text := "s.push(x)".toList
  bindings := [.named 0 "x 5#", .named 2 "y 5#", ⟨0, some "\t x ", some 9⟩]

theorem Assembly.locked_values_of_valid_blanksAroundName :
    let case : TestCase := { objects := [⟨.stack, "s", [6]⟩], slots := some [7, -3] }
    let p := Program.read (Assembly.build nameablePuzzle case blanksAroundName).source
    nameablePuzzle.validate = .ok () ∧ case ∈ nameablePuzzle.testCases ∧ p.isValid = true ∧
      p.tape.map Slot.value = [7, -3] ∧ p.objects = [⟨"s", .stack, [6]⟩] := by
  intro case p
  have hvalid : p.isValid = true := by decide +kernel
  have hslots : ∀ name, some name ∈ nameablePuzzle.slotNames → isIdentifier name = true := by
    rintro name hname
    have hown : name = "n" := by simpa [nameablePuzzle] using hname
    rw [hown]
    decide
  obtain ⟨hvalues, hobjects⟩ := Assembly.locked_values_of_valid nameablePuzzle case
    blanksAroundName rfl rfl hslots (by decide) (by decide) (by decide) hvalid
  exact ⟨rfl, by decide, hvalid, hvalues, hobjects⟩

/-- A comment sign in a name cuts the value off its line, so that a number in the name takes its
    place. Line feeds also make room for objects that the test case does not have. -/
theorem Assembly.locked_values_set_through_names :
    let puzzle : Puzzle := { slotCount := 1, testCases := [{}], renamableSlots := true }
    let build (name : String) : Program :=
      Program.read (Assembly.build puzzle {} ⟨"end()".toList, [.named 0 name]⟩).source
    puzzle.validate = .ok () ∧ puzzle.editableValues = false ∧ puzzle.slotNames = [] ∧
      ({} : TestCase) ∈ puzzle.testCases ∧ ({} : TestCase).objects = [] ∧
      ({} : TestCase).slots.getD (List.replicate puzzle.slotCount 0) = [0] ∧
      (build "x 5#").isValid = true ∧ (build "x 5#").tape.map Slot.value = [5] ∧
      (build "x 5\nstack s 6\n#").isValid = true ∧
      (build "x 5\nstack s 6\n#").objects = [⟨"s", .stack, [6]⟩] := by
  refine ⟨rfl, ?_⟩
  decide +kernel

end TapePuzzle
