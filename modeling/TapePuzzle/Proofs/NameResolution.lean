import TapePuzzle.Proofs.Reading.Layouts
import TapePuzzle.Proofs.Reading.NameRoles

/-!
# Names mean the same when read and when run

While a program is read, a name is looked up in a table; while it runs, the tape, the objects and
the labels are searched for it. Main statement: whatever is wrong with a text that is laid out
properly, the table and the searches agree on every name, and what is declared keeps the limits of
the language.
-/

namespace TapePuzzle

/-! ## Searching under distinct names -/

section Searches

variable {tape : List Slot} {objects : List Container} {name : String}

theorem slotIndex?_eq_some_iff (hnodup : (tape.filterMap Slot.name).Nodup) {index : Nat} :
    slotIndex? tape name = some index ↔
      ∃ slot, tape[index]? = some slot ∧ slot.name = some name := by
  unfold slotIndex?
  rw [List.findIdx?_eq_some_iff_getElem]
  simp only [decide_eq_true_eq]
  constructor
  · rintro ⟨hindex, hname, -⟩
    exact ⟨tape[index], List.getElem?_eq_getElem hindex, hname⟩
  · rintro ⟨slot, hslot, hname⟩
    obtain ⟨hindex, rfl⟩ := List.getElem?_eq_some_iff.mp hslot
    refine ⟨hindex, hname, ?_⟩
    -- an earlier slot of the same name would repeat it
    intro earlier hless hearlier
    have hpairs := List.pairwise_iff_getElem.mp (List.pairwise_filterMap.mp hnodup)
    exact hpairs earlier index (by omega) hindex hless name hearlier name hname rfl

theorem findObject?_eq_some_iff (hnodup : (objects.map Container.name).Nodup)
    {object : Container} :
    findObject? objects name = some object ↔ object ∈ objects ∧ object.name = name := by
  constructor
  · intro hfound
    exact ⟨List.mem_of_find?_eq_some hfound, by simpa using List.find?_some hfound⟩
  · rintro ⟨hmem, rfl⟩
    exact findObject?_of_mem hnodup hmem

end Searches

namespace Names.Distinct

variable {names : Names} (h : names.Distinct) {name : String}

include h

theorem role_eq_slot_iff {index : Nat} :
    names.role name = .slot index ↔ (name, index) ∈ names.slots := by
  constructor
  · intro hrole
    exact mem_slots_of_declared (declared_of_role hrole (by simp) (by simp))
  · exact h.role_of_mem_slots

theorem role_eq_object_iff {kind : ObjectKind} :
    names.role name = .object kind ↔ (name, kind) ∈ names.objects := by
  constructor
  · intro hrole
    exact mem_objects_of_declared (declared_of_role hrole (by simp) (by simp))
  · exact h.role_of_mem_objects

theorem role_eq_label_iff {line : Nat} :
    names.role name = .label line ↔ (name, line) ∈ names.labels := by
  constructor
  · intro hrole
    exact mem_labels_of_declared (declared_of_role hrole (by simp) (by simp))
  · exact h.role_of_mem_labels

end Names.Distinct

/-! ## Declarations -/

namespace Declarations

variable {d : Declarations}

theorem Named.nodup_tape (h : d.Named) : (d.tape.filterMap Slot.name).Nodup := by
  have hslots : (d.names.slots.map Prod.fst).Nodup := by
    have hall := h.distinct.nodup
    rw [Names.all, List.append_assoc] at hall
    exact (List.nodup_append.mp hall).1
  -- two slots of one name would give it two indices in the table
  refine List.pairwise_filterMap.mpr (List.pairwise_iff_getElem.mpr ?_)
  intro index later hindex hlater hless name hname other hother heq
  subst heq
  have hfirst := h.tape (List.getElem?_eq_getElem hindex) hname
  have hsecond := h.tape (List.getElem?_eq_getElem hlater) hother
  have hplace : some index = some later :=
    (lookup_eq_some_of_mem hslots hfirst).symm.trans (lookup_eq_some_of_mem hslots hsecond)
  cases hplace
  exact Nat.lt_irrefl _ hless

/-- What stands on the tape, among the objects and among the labels is named apart. -/
theorem nodup_names (hnamed : d.Named) (hsound : d.Sound) :
    (d.tape.filterMap Slot.name ++ d.objects.map Container.name ++ d.labels.map Prod.fst).Nodup ∧
      ∀ name ∈ d.tape.filterMap Slot.name ++ d.objects.map Container.name ++ d.labels.map Prod.fst,
        name ∈ d.names.all := by
  have htape : ∀ name ∈ d.tape.filterMap Slot.name, name ∈ d.names.slots.map Prod.fst := by
    intro name hname
    obtain ⟨slot, hslot, hslotName⟩ := List.mem_filterMap.mp hname
    obtain ⟨index, hindex⟩ := List.mem_iff_getElem?.mp hslot
    exact List.mem_map_of_mem (hnamed.tape hindex hslotName)
  have hobjects : d.names.objects.map Prod.fst = (d.objects.map Container.name).reverse := by
    rw [hsound.objects, List.map_reverse, List.map_map]
    rfl
  -- the table has its entries in other orders, so only what is on it carries over
  have hall := hnamed.distinct.nodup
  simp only [Names.all, hobjects, hsound.labels, List.nodup_append,
    (List.reverse_perm _).nodup_iff, List.mem_append, List.mem_reverse] at hall ⊢
  obtain ⟨⟨-, hobjectNames, hslotsApart⟩, hlabelNames, hlabelsApart⟩ := hall
  refine ⟨⟨⟨hnamed.nodup_tape, hobjectNames, ?_⟩, hlabelNames, ?_⟩, ?_⟩
  · intro name hname
    exact hslotsApart name (htape name hname)
  · rintro name (hname | hname)
    · exact hlabelsApart name (.inl (htape name hname))
    · exact hlabelsApart name (.inr hname)
  · rintro name ((hname | hname) | hname)
    · exact .inl (.inl (htape name hname))
    · exact .inl (.inr hname)
    · exact .inr hname

theorem length_tape_of_change {d' : Declarations} (h : d.tape.length ≤ maxTapeLength)
    (hchange : d.Change d') : d'.tape.length ≤ maxTapeLength := by
  cases hchange with
  | none => exact h
  | reject finding => exact h
  | spoil hindex hfree finding => exact h
  | addObject kind hident hlength hvalues => exact h
  | layOut length htape hleast hmost =>
      rw [List.length_replicate]
      exact hmost
  | @occupy index ident? value? hindex hfree hident hvalue =>
      have hlength : (d.occupy index ident? value?).tape.length = d.tape.length := by
        cases ident? <;> cases value? <;> simp [occupy, nameSlot, fillSlot]
      rw [hlength]
      exact h

end Declarations

/-- A tape is never longer than the language allows. -/
theorem Layout.length_tape (layout : Layout) : layout.declarations.tape.length ≤ maxTapeLength := by
  apply layout.declarations_keeps (Nat.zero_le _) Declarations.length_tape_of_change
  intro d d' line index h hchange
  cases hchange with
  | none hline => exact h
  | reject finding => exact h
  | addLabel hline hident => exact h

/-! ## Programs -/

/-- The names of slots, objects and labels, in the order of a program. -/
def Program.declaredNames (p : Program) : List String :=
  p.tape.filterMap Slot.name ++ p.objects.map Container.name ++ p.labels.map Prod.fst

/-- A table and a program mean the same by every name. No name is declared twice, for one purpose or
    for two, and each is one that a program may declare. -/
structure Program.NamedBy (p : Program) (names : Names) : Prop where
  slot : ∀ name index, names.role name = .slot index ↔ p.slotIndex? name = some index
  object : ∀ name kind, names.role name = .object kind ↔
    ∃ object, p.object? name = some object ∧ object.kind = kind
  label : ∀ name line, names.role name = .label line ↔ p.label? name = some line
  nodup : p.declaredNames.Nodup
  identifiers : ∀ name ∈ p.declaredNames, isIdentifier name = true
  unreserved : ∀ name ∈ p.declaredNames, isReserved name = false

/-- The lengths and initial values of a program are those that the language allows. -/
structure Program.WithinLimits (p : Program) : Prop where
  tape : p.tape.length ≤ maxTapeLength
  tapeValues : ∀ slot ∈ p.tape, inRange slot.value = true
  objects : ∀ object ∈ p.objects, object.values.length ≤ maxObjectLength
  objectValues : ∀ object ∈ p.objects, ∀ value ∈ object.values, inRange value = true

theorem Program.namedBy_ofLayout (lines : List SourceLine) (layout : Layout) :
    (Program.ofLayout lines layout).NamedBy layout.declarations.names := by
  have hnamed := layout.named_declarations
  have hdistinct := hnamed.distinct
  have hsound := layout.sound_declarations
  obtain ⟨hnodup, hall⟩ := Declarations.nodup_names hnamed hsound
  obtain ⟨⟨htape, hobjects, -⟩, hlabels, -⟩ := by
    simpa only [List.nodup_append] using hnodup
  refine ⟨?_, ?_, ?_, hnodup, ?_, ?_⟩
  · intro name index
    rw [hdistinct.role_eq_slot_iff]
    refine Iff.trans ?_ (slotIndex?_eq_some_iff htape).symm
    constructor
    · intro hmem
      exact (hsound.slots _ hmem).2
    · rintro ⟨slot, hslot, hname⟩
      exact hnamed.tape hslot hname
  · intro name kind
    rw [hdistinct.role_eq_object_iff, hsound.objects, List.mem_reverse, List.mem_map]
    constructor
    · rintro ⟨object, hobject, ⟨⟩⟩
      exact ⟨object, (findObject?_eq_some_iff hobjects).mpr ⟨hobject, rfl⟩, rfl⟩
    · rintro ⟨object, hfound, rfl⟩
      obtain ⟨hmem, rfl⟩ := (findObject?_eq_some_iff hobjects).mp hfound
      exact ⟨object, hmem, rfl⟩
  · intro name line
    rw [hdistinct.role_eq_label_iff, hsound.labels]
    constructor
    · exact lookup_eq_some_of_mem hlabels
    · exact mem_of_lookup_eq_some
  · intro name hname
    exact hnamed.identifiers name (hnamed.taken.mem_iff.mp (hall name hname))
  · intro name hname
    exact hnamed.unreserved name (hnamed.taken.mem_iff.mp (hall name hname))

/-- Every text that is laid out properly, right or wrong, is read into a program that means the same
    by its names as the table that its statements were read with, and that keeps the limits of the
    language. -/
theorem Program.one_meaning_of_names {text : List Char} {layout : Layout}
    (h : Layout.ofLines (sourceLines text) = .ok layout) :
    (Program.read text).NamedBy layout.declarations.names ∧ (Program.read text).WithinLimits := by
  have hsound := layout.sound_declarations
  rw [Program.read_of_layout h]
  constructor
  · exact Program.namedBy_ofLayout (sourceLines text) layout
  · exact ⟨layout.length_tape, hsound.tapeValues, hsound.objectLengths, hsound.objectValues⟩

/-- A text whose lines are in each other's way: an early slot, a second length, and names that are
    declared again, for a slot, an object and a label. -/
def crossedNames : List Char :=
  ("tally 1\n.data\n0 b\ntapelength 2\ntapelength 1\n0 a 5\n1 a\nstack a 1\nqueue q -2\n" ++
    ".text\nq:\nx:\nx:\n").toList

theorem Program.one_meaning_of_names_crossedNames :
    let p := Program.read crossedNames
    p.isValid = false ∧ p.declaredNames = ["a", "q", "x"] ∧
      ∃ layout, Layout.ofLines (sourceLines crossedNames) = .ok layout ∧
        p.NamedBy layout.declarations.names ∧ p.WithinLimits ∧
        layout.declarations.names.role "a" = .slot 0 ∧
        layout.declarations.names.role "q" = .object .queue ∧
        layout.declarations.names.role "x" = .label 1 := by
  intro p
  have hok : (Layout.ofLines (sourceLines crossedNames)).toBool = true := by decide +kernel
  have hread : p.isValid = false ∧ p.tape = [⟨some "a", 5⟩, {}] ∧
      p.objects = [⟨"q", .queue, [-2]⟩] ∧ p.labels = [("x", 1)] := by decide +kernel
  obtain ⟨hvalid, htape, hobjects, hlabels⟩ := hread
  refine ⟨hvalid, by simp [declaredNames, htape, hobjects, hlabels], ?_⟩
  cases hlayout : Layout.ofLines (sourceLines crossedNames) with
  | error finding =>
      rw [hlayout] at hok
      cases hok
  | ok layout =>
      obtain ⟨hnamed, hlimits⟩ := Program.one_meaning_of_names hlayout
      refine ⟨layout, rfl, hnamed, hlimits, ?_, ?_, ?_⟩
      · apply (hnamed.slot "a" 0).mpr
        rw [slotIndex?, htape]
        rfl
      · apply (hnamed.object "q" .queue).mpr
        refine ⟨⟨"q", .queue, [-2]⟩, ?_, rfl⟩
        rw [object?, hobjects]
        rfl
      · apply (hnamed.label "x" 1).mpr
        rw [label?, hlabels]
        rfl

end TapePuzzle
