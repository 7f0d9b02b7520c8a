import TapePuzzle.Proofs.Reading.Changes
import TapePuzzle.Proofs.Reading.Programs

/-!
# Every declared name has one role

A name is declared once, for a slot, an object or a label, and never if the language keeps it for
itself. Main statements: whatever is wrong with a program text, what its table of names says of a
name is what was declared under it, and a method that a valid program calls is one of the object
that the name stands for when it runs.
-/

namespace TapePuzzle

/-! ## Tables without repeated names -/

section Tables

variable {α : Type} {table : List (String × α)} {name : String} {value : α}

theorem lookup_eq_none_of_not_mem (h : name ∉ table.map Prod.fst) : table.lookup name = none := by
  rw [List.lookup_eq_none_iff]
  intro entry hentry
  refine bne_iff_ne.mpr fun heq => ?_
  exact h (heq ▸ List.mem_map_of_mem hentry)

theorem mem_of_lookup_eq_some (h : table.lookup name = some value) : (name, value) ∈ table := by
  obtain ⟨front, back, rfl, -⟩ := List.lookup_eq_some_iff.mp h
  simp

theorem lookup_eq_some_of_mem (hnodup : (table.map Prod.fst).Nodup) (h : (name, value) ∈ table) :
    table.lookup name = some value := by
  obtain ⟨front, back, rfl⟩ := List.append_of_mem h
  refine List.lookup_eq_some_iff.mpr ⟨front, back, rfl, fun entry hentry => ?_⟩
  rw [List.map_append, List.nodup_append] at hnodup
  refine bne_iff_ne.mpr fun heq => ?_
  exact hnodup.2.2 entry.1 (List.mem_map_of_mem hentry) name (by simp) heq.symm

end Tables

theorem findObject?_of_mem {objects : List Container} {object : Container}
    (hnodup : (objects.map Container.name).Nodup) (h : object ∈ objects) :
    findObject? objects object.name = some object := by
  obtain ⟨front, back, rfl⟩ := List.append_of_mem h
  rw [List.map_append, List.nodup_append] at hnodup
  have hfront : findObject? front object.name = none := by
    refine List.find?_eq_none.mpr fun other hother => ?_
    simpa using hnodup.2.2 other.name (List.mem_map_of_mem hother) object.name (by simp)
  unfold findObject? at hfront ⊢
  rw [List.find?_append, hfront]
  simp

/-! ## Roles -/

namespace Names

/-- All declared names. -/
def all (names : Names) : List String :=
  names.slots.map Prod.fst ++ names.objects.map Prod.fst ++ names.labels.map Prod.fst

/-- No name is declared twice, and none that the language keeps for itself. -/
structure Distinct (names : Names) : Prop where
  nodup : names.all.Nodup
  unreserved : ∀ name ∈ names.all, isReserved name = false

variable {names : Names} {name : String} {index line : Nat} {kind : ObjectKind}

theorem role_eq_declared (h : isReserved name = false) : names.role name = names.declared name := by
  rw [isReserved, Bool.or_eq_false_iff] at h
  have hnone : Builtin.ofName? name = none := by simpa using h.2
  rw [role, h.1, hnone]
  rfl

theorem mem_slots_of_declared (h : names.declared name = .slot index) :
    (name, index) ∈ names.slots := by
  unfold declared at h
  split at h
  · rename_i hlookup
    cases h
    exact mem_of_lookup_eq_some hlookup
  · repeat' split at h
    all_goals cases h

theorem mem_objects_of_declared (h : names.declared name = .object kind) :
    (name, kind) ∈ names.objects := by
  unfold declared at h
  split at h
  · cases h
  · split at h
    · rename_i hlookup
      cases h
      exact mem_of_lookup_eq_some hlookup
    · split at h <;> cases h

theorem mem_labels_of_declared (h : names.declared name = .label line) :
    (name, line) ∈ names.labels := by
  unfold declared at h
  split at h
  · cases h
  · split at h
    · cases h
    · split at h
      · rename_i hlookup
        cases h
        exact mem_of_lookup_eq_some hlookup
      · cases h

namespace Distinct

variable (h : names.Distinct)

include h

theorem role_of_mem_slots (hmem : (name, index) ∈ names.slots) : names.role name = .slot index := by
  have hslot : name ∈ names.slots.map Prod.fst := List.mem_map_of_mem hmem
  have hnodup := h.nodup
  rw [all, List.append_assoc, List.nodup_append] at hnodup
  rw [role_eq_declared (h.unreserved name (by simp [all, hslot])), declared,
    lookup_eq_some_of_mem hnodup.1 hmem]

theorem role_of_mem_objects (hmem : (name, kind) ∈ names.objects) :
    names.role name = .object kind := by
  have hobject : name ∈ names.objects.map Prod.fst := List.mem_map_of_mem hmem
  have hnodup := h.nodup
  rw [all, List.append_assoc, List.nodup_append, List.nodup_append] at hnodup
  have hslot : name ∉ names.slots.map Prod.fst := fun hslot =>
    hnodup.2.2 name hslot name (List.mem_append_left _ hobject) rfl
  rw [role_eq_declared (h.unreserved name (by simp [all, hobject])), declared,
    lookup_eq_none_of_not_mem hslot, lookup_eq_some_of_mem hnodup.2.1.1 hmem]

theorem role_of_mem_labels (hmem : (name, line) ∈ names.labels) :
    names.role name = .label line := by
  have hlabel : name ∈ names.labels.map Prod.fst := List.mem_map_of_mem hmem
  have hnodup := h.nodup
  rw [all, List.append_assoc, List.nodup_append, List.nodup_append] at hnodup
  have hslot : name ∉ names.slots.map Prod.fst := fun hslot =>
    hnodup.2.2 name hslot name (List.mem_append_right _ hlabel) rfl
  have hobject : name ∉ names.objects.map Prod.fst := fun hobject =>
    hnodup.2.1.2.2 name hobject name hlabel rfl
  rw [role_eq_declared (h.unreserved name (by simp [all, hlabel])), declared,
    lookup_eq_none_of_not_mem hslot, lookup_eq_none_of_not_mem hobject]
  rw [lookup_eq_some_of_mem hnodup.2.1.2.1 hmem]

end Distinct

end Names

/-! ## Declarations -/

namespace Declarations

/-- The names that are taken are those of the table, and every slot that has a name is in it. -/
structure Named (d : Declarations) : Prop where
  taken : d.names.all.Perm (d.declared.map Prod.fst)
  nodup : (d.declared.map Prod.fst).Nodup
  identifiers : ∀ name ∈ d.declared.map Prod.fst, isIdentifier name = true
  unreserved : ∀ name ∈ d.declared.map Prod.fst, isReserved name = false
  tape : ∀ {index : Nat} {slot : Slot} {name : String}, d.tape[index]? = some slot →
    slot.name = some name → (name, index) ∈ d.names.slots

theorem named_empty : Named {} where
  taken := .refl _
  nodup := .nil
  identifiers := by simp
  unreserved := by simp
  tape := by simp

namespace Named

variable {d d' : Declarations}

theorem distinct (h : d.Named) : d.names.Distinct where
  nodup := h.taken.nodup_iff.mpr h.nodup
  unreserved name hname := h.unreserved name (h.taken.mem_iff.mp hname)

/-- A free name is taken for one thing. -/
theorem take (h : d.Named) {ident : Ident} (hident : d.Free ident.name) {tape : List Slot}
    {names : Names} (hnames : names.all.Perm (ident.name :: d.names.all))
    (htape : ∀ {index : Nat} {slot : Slot} {name : String}, tape[index]? = some slot →
      slot.name = some name → (name, index) ∈ names.slots)
    {objects : List Container} {labels : List (String × Nat)} {bound : List Nat} :
    { d.take ident with tape, names, objects, labels, bound }.Named where
  taken := hnames.trans (h.taken.cons ident.name)
  nodup := List.nodup_cons.mpr ⟨hident.fresh, h.nodup⟩
  identifiers := List.forall_mem_cons.mpr ⟨hident.identifier, h.identifiers⟩
  unreserved := List.forall_mem_cons.mpr ⟨hident.reserved, h.unreserved⟩
  tape := htape

theorem nameSlot (h : d.Named) {ident : Ident} (hident : d.Free ident.name) {index : Nat}
    {bound : List Nat} : ({ d with bound := bound }.nameSlot index ident).Named := by
  refine h.take hident (.refl _) fun {place slot name} hslot hname => ?_
  rw [List.getElem?_modify] at hslot
  split at hslot
  · rename_i hindex
    subst hindex
    obtain ⟨old, hold, rfl⟩ := Option.map_eq_some_iff.mp hslot
    cases hname
    exact List.mem_cons_self
  · have hold : d.tape[place]? = some slot := by simpa using hslot
    exact List.mem_cons_of_mem _ (h.tape hold hname)

theorem fillSlot (h : d.Named) (index : Nat) (value : Int) : (d.fillSlot index value).Named := by
  refine ⟨h.taken, h.nodup, h.identifiers, h.unreserved, fun {place slot name} hslot hname => ?_⟩
  simp only [Declarations.fillSlot, List.getElem?_modify] at hslot
  obtain ⟨old, hold, rfl⟩ := Option.map_eq_some_iff.mp hslot
  refine h.tape hold ?_
  split at hname <;> exact hname

theorem change (h : d.Named) (hchange : d.Change d') : d'.Named := by
  cases hchange with
  | none => exact h
  | reject finding => exact ⟨h.taken, h.nodup, h.identifiers, h.unreserved, h.tape⟩
  | spoil hindex hfree finding => exact ⟨h.taken, h.nodup, h.identifiers, h.unreserved, h.tape⟩
  | layOut length htape hleast hmost =>
      refine ⟨h.taken, h.nodup, h.identifiers, h.unreserved,
        fun {index slot name} hslot hname => ?_⟩
      rw [List.eq_of_mem_replicate (List.mem_of_getElem? hslot)] at hname
      cases hname
  | @occupy index ident? value? hindex hfree hident hvalue =>
      have hnamed : (d.occupy index ident? none).Named := by
        cases ident? with
        | none => exact ⟨h.taken, h.nodup, h.identifiers, h.unreserved, h.tape⟩
        | some ident => exact h.nameSlot (hident ident rfl)
      cases value? with
      | none => exact hnamed
      | some value => exact hnamed.fillSlot index value
  | @addObject ident values kind hident hlength hvalues =>
      have hnames : (d.names.addObject ident.name kind).all.Perm (ident.name :: d.names.all) := by
        simp only [Names.all, Names.addObject, List.map_cons, List.append_assoc, List.cons_append]
        exact List.perm_middle
      exact h.take hident hnames h.tape

theorem labelChange (h : d.Named) {line : SourceLine} {index : Nat}
    (hchange : d.LabelChange line index d') : d'.Named := by
  cases hchange with
  | none hline => exact h
  | reject finding => exact ⟨h.taken, h.nodup, h.identifiers, h.unreserved, h.tape⟩
  | @addLabel ident hline hident =>
      have hnames : (d.names.addLabel ident.name index).all.Perm (ident.name :: d.names.all) := by
        simp only [Names.all, Names.addLabel, List.map_cons]
        exact List.perm_middle
      exact h.take hident hnames h.tape

end Named

end Declarations

/-- The declarations of a program text are named properly, whether or not something is wrong with
    it. -/
theorem Layout.named_declarations (layout : Layout) : layout.declarations.Named :=
  layout.declarations_keeps Declarations.named_empty Declarations.Named.change
    fun hnamed hchange => hnamed.labelChange hchange

/-- The methods that the names of a program have are those of its objects. -/
def Program.HasMethods (p : Program) (names : Names) : Prop :=
  ∀ name method, names.HasMethod name method →
    ∃ object, p.object? name = some object ∧ method ∈ object.kind.methods

theorem Program.hasMethods_ofLayout (lines : List SourceLine) (layout : Layout) :
    (Program.ofLayout lines layout).HasMethods layout.declarations.names := by
  have hsound := layout.sound_declarations
  have hdistinct := layout.named_declarations.distinct
  rintro name method ⟨kind, hrole, hmethod⟩
  have hdeclared := Names.declared_of_role hrole (by simp) (by simp)
  have hmem := Names.mem_objects_of_declared hdeclared
  rw [hsound.objects, List.mem_reverse] at hmem
  obtain ⟨object, hobject, heq⟩ := List.mem_map.mp hmem
  cases heq
  have hnodup : (layout.declarations.objects.map Container.name).Nodup := by
    have hall := hdistinct.nodup
    rw [Names.all, List.append_assoc, List.nodup_append, List.nodup_append, hsound.objects] at hall
    rw [List.map_reverse, (List.reverse_perm _).nodup_iff, List.map_map] at hall
    exact hall.2.1.1
  exact ⟨object, findObject?_of_mem hnodup hobject, hmethod⟩

/-- A valid program text is read into a program whose statements make sense in it and whose methods
    are those of its objects. -/
theorem Program.exists_hasMethods_read {text : List Char}
    (h : (Program.read text).isValid = true) :
    ∃ names, (Program.read text).Sound names ∧ (Program.read text).HasMethods names := by
  unfold Program.read Program.ofLines at h ⊢
  split at h
  · cases h
  · exact ⟨_, Program.sound_ofLayout h, Program.hasMethods_ofLayout _ _⟩

end TapePuzzle
