import TapePuzzle.Proofs.Assemblies
import TapePuzzle.Proofs.BlockStructure
import TapePuzzle.Proofs.Writing.Drafts

/-!
# Structured programs are read back

A draft is written under the data segment of a program text. Its labels are declared before its
statements are read, so that jumps can go either way. Main statement: the whole text is valid, its
lines are those of the draft, and its labels stand for the lines that they were written on.
-/

namespace TapePuzzle

/-! ## Larger tables of names -/

namespace Names.Within

variable {names names' : Names}

theorem expr (h : names.Within names') {e : Expr} (he : e.WellFormed names) :
    e.WellFormed names' := by
  induction e with
  | number value s => exact he
  | slot name reference s => exact h.slot he
  | slotAt name offset reference s ih => exact ⟨h.slot he.1, ih he.2⟩
  | call function s => exact he
  | callWith function argument s ih => exact ⟨he.1, ih he.2⟩
  | method object verb s => exact ⟨h.method he.1, he.2⟩
  | methodWith object verb argument s ih => exact ⟨h.method he.1, he.2.1, ih he.2.2⟩
  | binary left op right s ihLeft ihRight => exact ⟨ihLeft he.1, ihRight he.2⟩
  | unary op operand s ih => exact ih he

theorem action (h : names.Within names') {action : Action} (haction : action.WellFormed names) :
    action.WellFormed names' := by
  cases action with
  | assign target value =>
      obtain ⟨⟨hslot, hoffset⟩, hvalue⟩ := haction
      exact ⟨⟨h.slot hslot, fun offset hmem => h.expr (hoffset offset hmem)⟩, h.expr hvalue⟩
  | evaluate equation => exact h.expr haction
  | ifTrue condition | whileTrue condition => exact h.expr haction
  | otherwise => exact trivial
  | jump label => exact h.label haction

theorem draft (h : names.Within names') {draft : Draft} (hdraft : draft.WellFormed names) :
    draft.WellFormed names' := by
  induction draft with
  | done => exact trivial
  | quiet line rest ih => exact ih hdraft
  | label blanks name margin rest ih => exact ⟨hdraft.1, ih hdraft.2⟩
  | plain action hplain margin rest ih => exact ⟨h.action hdraft.1, ih hdraft.2⟩
  | branch condition margin deeper body rest ihBody ih
  | loop condition margin deeper body rest ihBody ih =>
      obtain ⟨hcondition, hbody, hrest⟩ := hdraft
      exact ⟨h.expr hcondition, ⟨hbody.1, ihBody hbody.2⟩, ih hrest⟩
  | branchElse condition margin deeper body elseMargin elseDeeper elseBody rest ihBody ihElse ih =>
      obtain ⟨hcondition, hbody, helse, hrest⟩ := hdraft
      exact ⟨h.expr hcondition, ⟨hbody.1, ihBody hbody.2⟩, ⟨helse.1, ihElse helse.2⟩, ih hrest⟩

end Names.Within

/-! ## Names of a program -/

/-- The names that a program declares. -/
def Program.names (p : Program) : Names where
  slots := p.tape.zipIdx.filterMap fun (slot, index) => slot.name.map (·, index)
  objects := p.objects.map fun object => (object.name, object.kind)
  labels := p.labels

theorem Program.mem_slots_names {p : Program} {name : String} {index : Nat} :
    (name, index) ∈ p.names.slots ↔
      ∃ slot, p.tape[index]? = some slot ∧ slot.name = some name := by
  simp only [Program.names, List.mem_filterMap, Prod.exists, Option.map_eq_some_iff,
    List.mem_zipIdx_iff_getElem?]
  constructor
  · rintro ⟨slot, place, hslot, found, hname, ⟨⟩⟩
    exact ⟨slot, hslot, hname⟩
  · rintro ⟨slot, hslot, hname⟩
    exact ⟨slot, index, hslot, name, hname, rfl⟩

/-- The table that statements are read with has the same names. -/
theorem Program.mem_names_ofLayout {lines : List SourceLine} {layout : Layout} {name : String} :
    name ∈ (Program.ofLayout lines layout).names.all ↔ name ∈ layout.declarations.names.all := by
  have hsound : layout.declarations.Sound :=
    sound_readLabels_read layout.data layout.text layout.textLine
  have hslots : ∀ index, (name, index) ∈ (Program.ofLayout lines layout).names.slots ↔
      (name, index) ∈ layout.declarations.names.slots := by
    intro index
    rw [Program.mem_slots_names]
    constructor
    · rintro ⟨slot, hslot, hname⟩
      exact layout.named_declarations.tape hslot hname
    · intro hmem
      exact (hsound.slots _ hmem).2
  have hobjects : layout.declarations.names.objects =
      (Program.ofLayout lines layout).names.objects.reverse := hsound.objects
  have hlabels : layout.declarations.names.labels =
      (Program.ofLayout lines layout).names.labels := hsound.labels
  simp only [Names.all, List.mem_append, List.mem_map, Prod.exists, exists_and_right,
    exists_eq_right, hslots, hobjects, hlabels, List.mem_reverse]

/-- Names that were declared keep their roles in the table that statements are read with. -/
theorem Declarations.Named.within {d : Declarations} (h : d.Named) (hsound : d.Sound)
    {names : Names}
    (hslots : ∀ {name index}, (name, index) ∈ names.slots →
      ∃ slot, d.tape[index]? = some slot ∧ slot.name = some name)
    (hobjects : names.objects = d.objects.map fun object => (object.name, object.kind))
    (hlabels : ∀ entry ∈ names.labels, entry ∈ d.labels) : names.Within d.names where
  slot := by
    rintro name ⟨index, hrole⟩
    have hdeclared := Names.declared_of_role hrole (by simp) (by simp)
    obtain ⟨slot, hslot, hname⟩ := hslots (Names.mem_slots_of_declared hdeclared)
    exact ⟨index, h.distinct.role_of_mem_slots (h.tape hslot hname)⟩
  method := by
    rintro name verb ⟨kind, hrole, hverb⟩
    have hdeclared := Names.declared_of_role hrole (by simp) (by simp)
    have hmem := Names.mem_objects_of_declared hdeclared
    rw [hobjects, ← List.mem_reverse, ← hsound.objects] at hmem
    exact ⟨kind, h.distinct.role_of_mem_objects hmem, hverb⟩
  label := by
    rintro name ⟨line, hrole⟩
    have hdeclared := Names.declared_of_role hrole (by simp) (by simp)
    have hmem := hlabels _ (Names.mem_labels_of_declared hdeclared)
    rw [← hsound.labels] at hmem
    exact ⟨line, h.distinct.role_of_mem_labels hmem⟩

/-! ## Labels -/

/-- The labels of written lines, each with its line counted from `start`. -/
def labelsFrom (start : Nat) : List WrittenLine → List (String × Nat)
  | [] => []
  | written :: more =>
      match written.label? with
      | none => labelsFrom (start + 1) more
      | some name => (name, start) :: labelsFrom (start + 1) more

theorem exists_mem_of_mem_labelsFrom {start : Nat} {written : List WrittenLine}
    {entry : String × Nat} (h : entry ∈ labelsFrom start written) :
    ∃ line ∈ written, line.label? = some entry.1 := by
  induction written generalizing start with
  | nil => cases h
  | cons line more ih =>
      cases hlabel : line.label? with
      | none =>
          rw [labelsFrom, hlabel] at h
          obtain ⟨found, hfound, hname⟩ := ih h
          exact ⟨found, List.mem_cons_of_mem _ hfound, hname⟩
      | some name =>
          rw [labelsFrom, hlabel] at h
          rcases List.mem_cons.mp h with rfl | h
          · exact ⟨line, List.mem_cons_self, hlabel⟩
          · obtain ⟨found, hfound, hname⟩ := ih h
            exact ⟨found, List.mem_cons_of_mem _ hfound, hname⟩

namespace Declarations

theorem readLabel_of_free {d : Declarations} {line : SourceLine} {ident : Ident}
    (h : labelOf? line = some ident) (hfree : d.Free ident.name) (index : Nat) :
    d.readLabel line index = d.addLabel ident index := by
  have hcheck := checkName_eq_ok_iff.mpr ⟨hfree.reserved, hfree.fresh⟩
  simp [readLabel, h, hcheck, orReject, bind, Except.bind]

/-- Labels that are free are all declared, for the lines that they stand on. The lines are counted
    along, and each label is free until its own line is read. -/
theorem foldl_readLabel_written {written : List WrittenLine}
    (hlegible : ∀ line ∈ written, line.Legible) (start number : Nat) {d : Declarations}
    (hfree : ∀ entry ∈ labelsFrom start written, d.Free entry.1)
    (hnodup : ((labelsFrom start written).map Prod.fst).Nodup) :
    let read := ((numberLines number (written.map WrittenLine.text)).zipIdx start).foldl
      (fun d (line, index) => d.readLabel line index) d
    read.labels = (labelsFrom start written).reverse ++ d.labels ∧ read.findings = d.findings := by
  induction written generalizing start number d with
  | nil => exact ⟨rfl, rfl⟩
  | cons line more ih =>
      obtain ⟨hline, hmore⟩ := List.forall_mem_cons.mp hlegible
      have hlabel := hline.label number
      simp only [List.map_cons, numberLines_cons, List.zipIdx_cons, List.foldl_cons]
      cases hname : line.label? with
      | none =>
          rw [hname, Option.map_eq_none_iff] at hlabel
          rw [labelsFrom, hname] at hfree hnodup ⊢
          rw [readLabel_of_none hlabel]
          exact ih hmore (start + 1) (number + 1) hfree hnodup
      | some name =>
          rw [hname] at hlabel
          obtain ⟨ident, hident, rfl⟩ := Option.map_eq_some_iff.mp hlabel
          rw [labelsFrom, hname] at hfree hnodup ⊢
          obtain ⟨hhere, hlater⟩ := List.forall_mem_cons.mp hfree
          obtain ⟨hdistinct, hnodup⟩ := List.nodup_cons.mp hnodup
          have hfree' : ∀ entry ∈ labelsFrom (start + 1) more,
              (d.addLabel ident start).Free entry.1 := by
            intro entry hentry
            obtain ⟨hidentifier, hreserved, hfresh⟩ := hlater entry hentry
            refine ⟨hidentifier, hreserved, fun hmem => ?_⟩
            rcases List.mem_cons.mp hmem with heq | hmem
            · exact hdistinct (heq ▸ List.mem_map_of_mem hentry)
            · exact hfresh hmem
          rw [readLabel_of_free hident hhere]
          obtain ⟨hlabels, hfindings⟩ := ih hmore (start + 1) (number + 1) hfree' hnodup
          refine ⟨?_, hfindings⟩
          rw [hlabels]
          simp [addLabel]

end Declarations

/-! ## Fronts -/

/-- A text that ends with its text marker, and nothing is wrong with it. -/
structure IsFront (front : List Char) : Prop where
  valid : (Program.read front).isValid = true
  lines : (Program.read front).lines = []
  newline : front.getLast? = some '\n'

theorem IsFront.exists_layout {front : List Char} (h : IsFront front) :
    ∃ data textLine, Layout.ofLines (sourceLines front) = .ok ⟨data, textLine, []⟩ ∧
      Program.read front = Program.ofLayout (sourceLines front) ⟨data, textLine, []⟩ := by
  have hvalid := h.valid
  have hlines := h.lines
  rw [Program.read, Program.ofLines] at hvalid hlines ⊢
  cases hlayout : Layout.ofLines (sourceLines front) with
  | error finding =>
      rw [hlayout] at hvalid
      cases hvalid
  | ok layout =>
      rw [hlayout] at hlines
      obtain ⟨data, textLine, _ | ⟨line, more⟩⟩ := layout
      · exact ⟨data, textLine, rfl, rfl⟩
      · have hnil : (readTextLines (Layout.declarations ⟨data, textLine, line :: more⟩).names {}
            none (line :: more)).1 = [] := hlines
        unfold readTextLines at hnil
        split at hnil
        · cases hnil
        · dsimp only at hnil
          split at hnil <;> cases hnil

/-- What a data segment can declare is written as a front. -/
theorem Writable.isFront_heading {tape : List Slot} {objects : List ObjectDecl}
    (h : Writable tape objects) : IsFront (heading tape objects) := by
  have hdata := h.spellable.isWhole_and_isBare_dataLines
  have hlayout := layout_heading hdata []
  rw [List.append_nil] at hlayout
  have hread : Program.read (heading tape objects) =
      Program.ofLayout (sourceLines (heading tape objects))
        ⟨numberLines 3 (dataLines tape objects), (headingLines tape objects).length, []⟩ := by
    rw [Program.read, Program.ofLines, hlayout]
    rfl
  obtain ⟨-, -, hfindings⟩ := h.read_dataLines (map_text_numberLines 3 (dataLines tape objects))
    (headingLines tape objects).length
  refine ⟨?_, by rw [hread]; rfl, ?_⟩
  · rw [hread, Program.isValid, List.isEmpty_iff, List.eq_nil_iff_forall_not_mem]
    intro d hd
    obtain ⟨line, hline, -⟩ := Program.standsOn_ofLayout hfindings hd
    cases hline
  · refine List.getLast?_eq_some_iff.mpr
      ⟨joinLines (headerLine.toList :: dataMarker.toList :: dataLines tape objects) ++
        textMarker.toList, ?_⟩
    simp [heading, joinLines, headingLines_eq]

/-! ## Round trip -/

namespace Draft

/-- The labels of a draft, each with its line counted from zero. -/
def labels (draft : Draft) : List (String × Nat) := labelsFrom 0 (draft.written .none 0)

/-- The text of a draft. -/
def text (draft : Draft) : List Char :=
  joinLines ((draft.written .none 0).map WrittenLine.text)

/-- The names that a draft can use if it is written under the text of a program: those that are
    declared there, and its own labels. -/
def names (draft : Draft) (p : Program) : Names := { p.names with labels := draft.labels }

/-- The draft makes sense under the text of a program, and its labels are new there. -/
structure Suits (draft : Draft) (p : Program) : Prop where
  wellFormed : draft.WellFormed (draft.names p)
  nodup : (draft.labels.map Prod.fst).Nodup
  fresh : ∀ name ∈ draft.labels.map Prod.fst, name ∉ p.names.all

variable {draft : Draft} {names : Names}

theorem identifier_of_mem_labels (h : draft.WellFormed names) {entry : String × Nat}
    (hentry : entry ∈ draft.labels) :
    isIdentifier entry.1 = true ∧ isReserved entry.1 = false := by
  have hall : ∀ line ∈ draft.written .none 0, ∀ name ∈ line.label?,
      isIdentifier name = true ∧ isReserved name = false := by
    refine forall_mem_written h ?_ ?_ ?_ .none 0
    · simp [WrittenLine.quiet]
    · simp +contextual [WrittenLine.label]
    · simp [WrittenLine.code]
  obtain ⟨line, hline, hlabel⟩ := exists_mem_of_mem_labelsFrom hentry
  exact hall line hline _ hlabel

/-- All names that a draft can use are written as names. -/
theorem legible_names {lines : List SourceLine} {layout : Layout}
    (h : draft.WellFormed (draft.names (Program.ofLayout lines layout))) :
    (draft.names (Program.ofLayout lines layout)).Legible := by
  intro name hname
  have hnamed := layout.named_declarations
  rcases List.mem_append.mp hname with hname | hname
  · have hall : name ∈ (Program.ofLayout lines layout).names.all := List.mem_append_left _ hname
    rw [Program.mem_names_ofLayout] at hall
    exact hnamed.identifiers name (hnamed.taken.mem_iff.mp hall)
  · obtain ⟨entry, hentry, rfl⟩ := List.mem_map.mp hname
    exact (identifier_of_mem_labels h hentry).1

theorem legible_of_mem_written (hnames : names.Legible) (h : draft.WellFormed names) :
    ∀ line ∈ draft.written .none 0, line.Legible :=
  forall_mem_written h WrittenLine.legible_quiet
    (fun blanks _ margin hname hreserved => WrittenLine.legible_label blanks hname hreserved margin)
    (fun indent depth _ margin haction =>
      WrittenLine.legible_code hnames haction indent depth margin) .none 0

/-- The layout of a text whose text segment is the draft, in lines from `number` on. -/
def layout (draft : Draft) (front : Layout) (number : Nat) : Layout :=
  { front with text := numberLines number ((draft.written .none 0).map WrittenLine.text) }

theorem ofLines_text (hlegible : ∀ line ∈ draft.written .none 0, line.Legible)
    {front : List Char} (hfront : front.getLast? = some '\n') {data : List SourceLine}
    {textLine : Nat} (hlayout : Layout.ofLines (sourceLines front) = .ok ⟨data, textLine, []⟩) :
    Layout.ofLines (sourceLines (front ++ draft.text)) =
      .ok (draft.layout ⟨data, textLine, []⟩ (1 + (splitLines front).length)) := by
  have hwhole : ∀ text ∈ (draft.written .none 0).map WrittenLine.text, IsWhole text := by
    intro text htext
    obtain ⟨line, hline, rfl⟩ := List.mem_map.mp htext
    exact (hlegible line hline).whole
  rw [sourceLines_append (splitLines_append hfront _), text, sourceLines_of_isWhole hwhole,
    map_below_numberLines]
  refine Layout.ofLines_append hlayout fun line hline => ?_
  have hmem : line.text ∈ (draft.written .none 0).map WrittenLine.text := by
    rw [← map_text_numberLines _ ((draft.written .none 0).map WrittenLine.text)]
    exact List.mem_map_of_mem hline
  obtain ⟨source, hsource, htext⟩ := List.mem_map.mp hmem
  have hmarker := (hlegible source hsource).marker line.number
  rwa [htext] at hmarker

section Reading

variable {lines : List SourceLine} {front : Layout}
  (hfront : front.text = []) (hsuits : draft.Suits (Program.ofLayout lines front))

include hfront hsuits

/-- The labels of a draft are declared with nothing wrong, and nothing else changes. -/
theorem declarations_layout (number : Nat) :
    let d := (draft.layout front number).declarations
    d.tape = front.declarations.tape ∧ d.objects = front.declarations.objects ∧
      d.labels = draft.labels.reverse ∧ d.findings = front.declarations.findings := by
  intro d
  obtain ⟨hwell, hnodup, hfresh⟩ := hsuits
  have hdata : front.declarations = DataSegment.read front.data front.textLine := by
    rw [Layout.declarations, hfront]
    rfl
  have hnolabels : front.declarations.labels = [] := by
    refine List.eq_nil_iff_forall_not_mem.mpr fun entry hentry => ?_
    obtain ⟨line, ident, hline, -⟩ := front.labelled_declarations entry.1 entry.2 hentry
    simp [hfront] at hline
  have hfree : ∀ entry ∈ draft.labels, front.declarations.Free entry.1 := by
    intro entry hentry
    obtain ⟨hidentifier, hreserved⟩ := identifier_of_mem_labels hwell hentry
    refine ⟨hidentifier, hreserved, fun hmem => hfresh _ (List.mem_map_of_mem hentry) ?_⟩
    rw [Program.mem_names_ofLayout]
    exact front.named_declarations.taken.mem_iff.mpr hmem
  obtain ⟨hlabels, hfindings⟩ := Declarations.foldl_readLabel_written
    (legible_of_mem_written (legible_names hwell) hwell) 0 number hfree hnodup
  rw [hnolabels, List.append_nil] at hlabels
  have hkept := Declarations.labels_readLabels front.declarations (draft.layout front number).text
  have hd : d = front.declarations.readLabels (draft.layout front number).text := by
    rw [hdata]
    rfl
  rw [hd]
  exact ⟨hkept.tape, hkept.objects, hlabels, hfindings⟩

/-- What a draft can use, it can use in the table that its statements are read with. -/
theorem within_layout (number : Nat) :
    (draft.names (Program.ofLayout lines front)).Within
      (draft.layout front number).declarations.names := by
  obtain ⟨htape, hobjects, hlabels, -⟩ := declarations_layout hfront hsuits number
  have hsound : (draft.layout front number).declarations.Sound :=
    sound_readLabels_read front.data (draft.layout front number).text front.textLine
  refine (draft.layout front number).named_declarations.within hsound ?_ ?_ ?_
  · intro name index hmem
    rw [htape]
    exact Program.mem_slots_names.mp hmem
  · rw [hobjects]
    rfl
  · rw [hlabels]
    exact fun entry hentry => List.mem_reverse.mpr hentry

/-- The statements of a draft are read back, and nothing is wrong with them. -/
theorem readTextLines_layout (number : Nat) :
    ∃ read, readTextLines (draft.layout front number).declarations.names {} none
        (draft.layout front number).text = (read, []) ∧
      read.map Line.unplaced = (draft.written .none 0).map WrittenLine.line := by
  have hnamed := (draft.layout front number).named_declarations
  have hnames : (draft.layout front number).declarations.names.Legible :=
    fun name hname => hnamed.identifiers name (hnamed.taken.mem_iff.mp hname)
  have hwell := (within_layout hfront hsuits number).draft hsuits.wellFormed
  have hinside : Indentation.Inside {} Level.top := ⟨[], rfl⟩
  obtain ⟨ind', hback, inner, rfl⟩ := (readsBack hnames hwell).exists_inside hinside
  exact hback.readTextLines_eq rfl number none

theorem lines_ofLayout (quoted : List SourceLine) (number : Nat) :
    (Program.ofLayout quoted (draft.layout front number)).lines.map Line.unplaced =
      (draft.written .none 0).map WrittenLine.line := by
  obtain ⟨read, hread, hsame⟩ := readTextLines_layout hfront hsuits number
  simp [Program.ofLayout, hread, hsame]

theorem isValid_ofLayout (hvalid : (Program.ofLayout lines front).isValid = true)
    (quoted : List SourceLine) (number : Nat) :
    (Program.ofLayout quoted (draft.layout front number)).isValid = true := by
  have hnone : front.declarations.findings = [] := by
    simp only [Program.ofLayout, Program.isValid, List.isEmpty_iff, List.map_eq_nil_iff,
      List.append_eq_nil_iff] at hvalid
    exact hvalid.1
  obtain ⟨-, -, -, hfindings⟩ := declarations_layout hfront hsuits number
  obtain ⟨read, hread, -⟩ := readTextLines_layout hfront hsuits number
  simp [Program.isValid, Program.ofLayout, hfindings, hnone, hread]

theorem label?_ofLayout (quoted : List SourceLine) (number : Nat) (name : String) (index : Nat) :
    (Program.ofLayout quoted (draft.layout front number)).label? name = some index ↔
      (name, index) ∈ draft.labels := by
  have htable : (Program.ofLayout quoted (draft.layout front number)).labels =
      draft.labels.reverse := (declarations_layout hfront hsuits number).2.2.1
  rw [Program.label?, htable]
  constructor
  · intro hlookup
    exact List.mem_reverse.mp (mem_of_lookup_eq_some hlookup)
  · intro hmem
    refine lookup_eq_some_of_mem ?_ (List.mem_reverse.mpr hmem)
    rw [List.map_reverse]
    exact (List.reverse_perm _).nodup_iff.mpr hsuits.nodup

end Reading

end Draft

/-- A draft that makes sense under a front is read back: nothing is wrong with the whole text, the
    data segment is read as before, each line comes to what it was written for, and each label
    stands for its line. -/
theorem Draft.read_written (front : List Char) (draft : Draft) (hfront : IsFront front)
    (hsuits : draft.Suits (Program.read front)) :
    let p := Program.read (front ++ draft.text)
    p.isValid = true ∧ p.tape = (Program.read front).tape ∧
      p.objects = (Program.read front).objects ∧
      p.lines.map Line.unplaced = (draft.written .none 0).map WrittenLine.line ∧
      ∀ name index, p.label? name = some index ↔ (name, index) ∈ draft.labels := by
  intro p
  have hvalid := hfront.valid
  obtain ⟨data, textLine, hlayout, hread⟩ := hfront.exists_layout
  rw [hread] at hsuits hvalid ⊢
  have hwell := hsuits.wellFormed
  have hlegible := legible_of_mem_written (legible_names hwell) hwell
  have hp : p = Program.ofLayout (sourceLines (front ++ draft.text))
      (draft.layout ⟨data, textLine, []⟩ (1 + (splitLines front).length)) := by
    simp only [p, Program.read, Program.ofLines, ofLines_text hlegible hfront.newline hlayout]
  obtain ⟨htape, hobjects, -⟩ := declarations_layout rfl hsuits (1 + (splitLines front).length)
  rw [hp]
  exact ⟨isValid_ofLayout rfl hsuits hvalid _ _, htape, hobjects, lines_ofLayout rfl hsuits _ _,
    label?_ofLayout rfl hsuits _ _⟩

/-- A front that names a slot and a stack. -/
def pileFront : List Char := heading [⟨some "n", 3⟩] [⟨.stack, "pile", []⟩]

/-- A loop with a branch in it. The first jump goes on to a later label, and each block has its own
    blanks. -/
def pileDraft : Draft :=
  let bare : Margin := ⟨[], isWhole_nil, rfl⟩
  let n : Ident := ⟨"n", .nowhere⟩
  let slot : Expr := .slot n .nowhere .nowhere
  let number (value : Int) : Expr := .number value .nowhere
  .quiet ⟨"  # fill the pile".toList, ⟨by decide, by decide⟩, by decide⟩ <|
  .label ⟨" \t".toList, by decide⟩ "again" bare <|
  .loop (.binary slot .greater (number 0) .nowhere)
    ⟨" # if: else:".toList, ⟨by decide, by decide⟩, by decide⟩ ⟨⟨['\t'], rfl⟩, by decide⟩
    (.branchElse (.binary slot .equal (.call .input .nowhere) .nowhere) bare
      ⟨⟨[' '], rfl⟩, by decide⟩
      (.plain (.jump ⟨"done", .nowhere⟩) rfl bare <|
        .quiet ⟨[], isWhole_nil, rfl⟩ .done)
      bare ⟨⟨[' ', '\t', ' '], rfl⟩, by decide⟩
      (.plain (.evaluate (.methodWith ⟨"pile", .nowhere⟩ .push
          (.binary slot .multiply (.binary (number 2) .add slot .nowhere) .nowhere) .nowhere))
        rfl bare .done)
      (.plain (.assign ⟨n, none, .nowhere⟩ (.binary slot .subtract (number 1) .nowhere))
        rfl bare .done)) <|
  .label .none "done" bare <|
  .plain (.jump ⟨"again", .nowhere⟩) rfl bare .done

theorem Draft.read_written_pileDraft :
    pileFront = "tally 1\n.data\ntapelength 1\n0 n 3\nstack pile\n.text\n".toList ∧
      (pileDraft.written .none 0).map WrittenLine.text =
        ["  # fill the pile", " \tagain:", "while (n > 0): # if: else:", "\tif (n == input()):",
          "\t jump done", "", "\telse:", "\t \t pile.push(n * (2 + n))", "\tn = n - 1", "done:",
          "jump again"].map String.toList ∧
      let p := Program.read (pileFront ++ pileDraft.text)
      p.isValid = true ∧
        (pileDraft.written .none 0).map (fun line => line.line.depth?) =
          [none, none, some 0, some 1, some 2, none, some 1, some 2, some 1, none, some 0] ∧
        p.lines.map Line.unplaced = (pileDraft.written .none 0).map WrittenLine.line ∧
        p.label? "again" = some 1 ∧ p.label? "done" = some 9 := by
  have hfront : IsFront pileFront :=
    Writable.isFront_heading ⟨by decide, by decide, by decide, by decide, by decide, by decide,
      by decide⟩
  obtain ⟨hslots, hobjects, hlabels⟩ : (Program.read pileFront).names.slots = [("n", 0)] ∧
      (Program.read pileFront).names.objects = [("pile", .stack)] ∧
      (Program.read pileFront).names.labels = [] := by decide +kernel
  have htable : pileDraft.labels = [("again", 1), ("done", 9)] := rfl
  have hnames : pileDraft.names (Program.read pileFront) =
      ⟨[("n", 0)], [("pile", .stack)], [("again", 1), ("done", 9)]⟩ := by
    rw [Draft.names, hslots, hobjects, htable]
  have hslot : (pileDraft.names (Program.read pileFront)).HasSlot "n" := ⟨0, hnames ▸ rfl⟩
  have hpile : (pileDraft.names (Program.read pileFront)).HasMethod "pile" .push :=
    ⟨.stack, hnames ▸ rfl, by decide⟩
  have hagain : (pileDraft.names (Program.read pileFront)).HasLabel "again" := ⟨1, hnames ▸ rfl⟩
  have hdone : (pileDraft.names (Program.read pileFront)).HasLabel "done" := ⟨9, hnames ▸ rfl⟩
  have hsuits : pileDraft.Suits (Program.read pileFront) := by
    refine ⟨?_, by decide, by simp [Names.all, hslots, hobjects, hlabels, htable]⟩
    refine ⟨⟨rfl, rfl⟩, ⟨hslot, (rfl : inRange 0 = true)⟩,
      ⟨rfl, ⟨hslot, (rfl : Builtin.input.arity = 0)⟩, ⟨rfl, hdone, trivial⟩, ?_, ?_⟩,
      ⟨rfl, rfl⟩, hagain, trivial⟩
    · exact ⟨rfl, ⟨hpile, rfl, hslot, (rfl : inRange 2 = true), hslot⟩, trivial⟩
    · exact ⟨⟨⟨hslot, by simp⟩, hslot, (rfl : inRange 1 = true)⟩, trivial⟩
  obtain ⟨hvalid, -, -, hlines, hlabels⟩ :=
    Draft.read_written pileFront pileDraft hfront hsuits
  refine ⟨by decide +kernel, by decide +kernel, hvalid, rfl, hlines, ?_, ?_⟩
  · exact (hlabels "again" 1).mpr (by simp [htable])
  · exact (hlabels "done" 9).mpr (by simp [htable])

end TapePuzzle
