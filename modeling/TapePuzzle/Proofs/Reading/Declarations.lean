import TapePuzzle.Proofs.Reading.Equations
import TapePuzzle.Reading.Declarations

/-!
# What the declarations of a program guarantee

Names are looked up in tables while a program is read, and on the tape and among the objects while
it runs. `Declarations.Sound` says that both agree and that all initial values are in range. Main
statement: this holds of the declarations of every program text, right or wrong.
-/

namespace TapePuzzle

namespace Declarations

theorem checkName_eq_ok_iff {d : Declarations} {ident : Ident} :
    d.checkName ident = .ok () ↔
      isReserved ident.name = false ∧ ident.name ∉ d.declared.map Prod.fst := by
  have hlookup : d.declared.lookup ident.name = none ↔ ident.name ∉ d.declared.map Prod.fst := by
    rw [List.lookup_eq_none_iff]
    simp only [List.mem_map, not_exists, not_and, bne_iff_ne, ne_eq]
    exact forall₂_congr fun entry _ => not_congr eq_comm
  rw [← hlookup, checkName]
  cases isReserved ident.name with
  | true => simp
  | false => cases d.declared.lookup ident.name <;> simp

/-- The tables of names agree with the tape, the objects and the labels, and all initial values are
    in range. -/
structure Sound (d : Declarations) : Prop where
  /-- A slot that has a name was named by the only line about it. -/
  slots : ∀ entry ∈ d.names.slots,
    entry.2 ∈ d.bound ∧ ∃ slot, d.tape[entry.2]? = some slot ∧ slot.name = some entry.1
  objects : d.names.objects = (d.objects.map fun object => (object.name, object.kind)).reverse
  labels : d.names.labels = d.labels
  tapeValues : ∀ slot ∈ d.tape, inRange slot.value = true
  objectLengths : ∀ object ∈ d.objects, object.values.length ≤ maxObjectLength
  objectValues : ∀ object ∈ d.objects, ∀ value ∈ object.values, inRange value = true

theorem sound_empty : Sound {} where
  slots := by simp
  objects := rfl
  labels := rfl
  tapeValues := by simp
  objectLengths := by simp
  objectValues := by simp

namespace Sound

variable {d : Declarations}

theorem reject (h : d.Sound) (finding : Finding) : (d.reject finding).Sound :=
  ⟨h.slots, h.objects, h.labels, h.tapeValues, h.objectLengths, h.objectValues⟩

theorem orReject (h : d.Sound) {result : Checked Declarations}
    (hresult : ∀ declared, result = .ok declared → declared.Sound) : (d.orReject result).Sound := by
  cases result with
  | ok declared => exact hresult declared rfl
  | error finding => exact h.reject finding

/-- A tape is laid out before any slot has a name. -/
theorem readTapeLength (h : d.Sound) (hempty : d.tape = []) {c : Cursor} {declared : Declarations}
    (hread : d.readTapeLength c = .ok declared) : declared.Sound := by
  simp only [Declarations.readTapeLength] at hread
  split at hread
  · cases hread
  · split at hread
    · cases hread
      refine ⟨?_, h.objects, h.labels, ?_, h.objectLengths, h.objectValues⟩
      · intro entry hentry
        obtain ⟨-, slot, hslot, -⟩ := h.slots entry hentry
        simp [hempty] at hslot
      · intro slot hslot
        rw [List.eq_of_mem_replicate hslot]
        decide
    · cases hread

theorem nameSlot (h : d.Sound) {index : Nat} {ident : Ident} (hbound : index ∈ d.bound)
    (hindex : index < d.tape.length) (hfree : ∀ entry ∈ d.names.slots, entry.2 ≠ index) :
    (d.nameSlot index ident).Sound := by
  refine ⟨?_, h.objects, h.labels, ?_, h.objectLengths, h.objectValues⟩
  · intro entry hentry
    rcases List.mem_cons.mp hentry with rfl | hentry
    · refine ⟨hbound, { d.tape[index] with name := some ident.name }, ?_, rfl⟩
      simp [Declarations.nameSlot, hindex]
    · obtain ⟨hbound', slot, hslot, hname⟩ := h.slots entry hentry
      refine ⟨hbound', slot, ?_, hname⟩
      simp [Declarations.nameSlot, (hfree entry hentry).symm, hslot]
  · intro slot hslot
    obtain ⟨place, hplace, rfl⟩ := List.mem_iff_getElem.mp hslot
    have hplace' : place < d.tape.length := by simpa [Declarations.nameSlot] using hplace
    have hvalue := h.tapeValues d.tape[place] (List.getElem_mem hplace')
    simp only [Declarations.nameSlot, List.getElem_modify]
    split <;> exact hvalue

theorem fillSlot (h : d.Sound) {index : Nat} {value : Int} (hvalue : inRange value = true) :
    (d.fillSlot index value).Sound := by
  refine ⟨?_, h.objects, h.labels, ?_, h.objectLengths, h.objectValues⟩
  · intro entry hentry
    obtain ⟨hbound, slot, hslot, hname⟩ := h.slots entry hentry
    refine ⟨hbound, if index = entry.2 then { slot with value := value } else slot, ?_, ?_⟩
    · simp only [Declarations.fillSlot, List.getElem?_modify, hslot]
      split <;> rfl
    · split <;> exact hname
  · intro slot hslot
    obtain ⟨place, hplace, rfl⟩ := List.mem_iff_getElem.mp hslot
    simp only [Declarations.fillSlot, List.getElem_modify]
    split
    · exact hvalue
    · exact h.tapeValues _ (List.getElem_mem _)

end Sound

theorem inRange_of_readDataValue {start : Nat} {c : Cursor} {value : Int}
    (h : readDataValue start c = .ok value) : inRange value = true := by
  simp only [readDataValue] at h
  split at h
  · rename_i hrange
    cases h
    exact hrange
  · cases h

theorem inRange_of_readSlotValue {c past : Cursor} {value : Int}
    (h : readSlotValue c = .ok (some value, past)) : inRange value = true := by
  simp only [readSlotValue] at h
  split at h
  · cases h
  · obtain ⟨value', hvalue, h⟩ := bind_eq_ok_iff.mp h
    cases h
    exact inRange_of_readDataValue hvalue

theorem inRange_of_readValues {fuel : Nat} {c : Cursor} {values : List Int}
    (h : readValues fuel c = .ok values) : ∀ value ∈ values, inRange value = true := by
  induction fuel generalizing c values with
  | zero => cases h
  | succ fuel ih =>
      simp only [readValues] at h
      split at h
      · cases h
        simp
      · split at h
        · cases h
        · obtain ⟨first, hfirst, h⟩ := bind_eq_ok_iff.mp h
          obtain ⟨more, hmore, h⟩ := bind_eq_ok_iff.mp h
          cases h
          intro value hvalue
          rcases List.mem_cons.mp hvalue with rfl | hvalue
          · exact inRange_of_readDataValue hfirst
          · exact ih hmore value hvalue

theorem eq_addObject_of_readObject {d declared : Declarations} {kind : ObjectKind} {c : Cursor}
    (h : d.readObject kind c = .ok declared) :
    ∃ ident values, declared = d.addObject ident kind values ∧
      values.length ≤ maxObjectLength ∧ ∀ value ∈ values, inRange value = true := by
  unfold readObject at h
  split at h
  · cases h
  · split at h
    · cases h
    · obtain ⟨values, hvalues, h⟩ := bind_eq_ok_iff.mp h
      split at h
      · cases h
      · rename_i hlength
        obtain ⟨-, -, h⟩ := bind_eq_ok_iff.mp h
        cases h
        exact ⟨_, values, rfl, by omega, inRange_of_readValues hvalues⟩

theorem index_of_readSlotIndex {d : Declarations} {c past : Cursor} {index : Nat}
    (h : d.readSlotIndex c = .ok (index, past)) : index < d.tape.length ∧ index ∉ d.bound := by
  simp only [readSlotIndex] at h
  split at h
  · cases h
  · split at h
    · rename_i hrange
      split at h
      · cases h
      · rename_i hbound
        cases h
        exact ⟨by omega, by simpa using hbound⟩
    · cases h

namespace Sound

variable {d : Declarations}

theorem of_filled (h : d.Sound) {index : Nat} {value? : Option Int} {declared : Declarations}
    (hfilled : (match value? with
      | none => .ok d
      | some value => .ok (d.fillSlot index value) : Checked Declarations) = .ok declared)
    (hrange : ∀ value ∈ value?, inRange value = true) : declared.Sound := by
  cases value? with
  | none =>
      cases hfilled
      exact h
  | some value =>
      cases hfilled
      exact h.fillSlot (hrange value rfl)

theorem readSlotBinding (h : d.Sound) {index : Nat} {c : Cursor} {declared : Declarations}
    (hbound : index ∈ d.bound) (hindex : index < d.tape.length)
    (hfree : ∀ entry ∈ d.names.slots, entry.2 ≠ index)
    (hread : d.readSlotBinding index c = .ok declared) : declared.Sound := by
  simp only [Declarations.readSlotBinding] at hread
  obtain ⟨⟨value?, past⟩, hvalue, hread⟩ := bind_eq_ok_iff.mp hread
  dsimp only at hread
  split at hread
  · cases hread
  · have hrange : ∀ value ∈ value?, inRange value = true := by
      rintro value rfl
      exact inRange_of_readSlotValue hvalue
    split at hread
    · exact h.of_filled hread hrange
    · obtain ⟨-, -, hread⟩ := bind_eq_ok_iff.mp hread
      exact (h.nameSlot hbound hindex hfree).of_filled hread hrange

theorem bindSlot (h : d.Sound) (c : Cursor) : (d.bindSlot c).Sound := by
  unfold Declarations.bindSlot
  split
  · exact h.reject _
  · rename_i index counted hread
    obtain ⟨hindex, hfree⟩ := index_of_readSlotIndex hread
    have hbound : ({ d with bound := index :: d.bound } : Declarations).Sound := by
      refine ⟨?_, h.objects, h.labels, h.tapeValues, h.objectLengths, h.objectValues⟩
      intro entry hentry
      obtain ⟨hmem, hslot⟩ := h.slots entry hentry
      exact ⟨List.mem_cons_of_mem _ hmem, hslot⟩
    refine hbound.orReject fun declared hdeclared => ?_
    refine hbound.readSlotBinding List.mem_cons_self hindex ?_ hdeclared
    intro entry hentry heq
    exact hfree (heq ▸ (h.slots entry hentry).1)

theorem addObject (h : d.Sound) {ident : Ident} {kind : ObjectKind} {values : List Int}
    (hlength : values.length ≤ maxObjectLength) (hvalues : ∀ value ∈ values, inRange value = true) :
    (d.addObject ident kind values).Sound := by
  refine ⟨h.slots, ?_, h.labels, h.tapeValues, ?_, ?_⟩
  · simp [Declarations.addObject, Names.addObject, h.objects]
  · intro object hobject
    rcases List.mem_append.mp hobject with hobject | hobject
    · exact h.objectLengths object hobject
    · rw [List.mem_singleton.mp hobject]
      exact hlength
  · intro object hobject
    rcases List.mem_append.mp hobject with hobject | hobject
    · exact h.objectValues object hobject
    · rw [List.mem_singleton.mp hobject]
      exact hvalues

theorem readObject (h : d.Sound) {kind : ObjectKind} {c : Cursor} {declared : Declarations}
    (hread : d.readObject kind c = .ok declared) : declared.Sound := by
  obtain ⟨ident, values, rfl, hlength, hvalues⟩ := eq_addObject_of_readObject hread
  exact h.addObject hlength hvalues

theorem readDeclaration (h : d.Sound) (c : Cursor) : (d.readDeclaration c).Sound := by
  unfold Declarations.readDeclaration
  split
  · exact h.bindSlot c
  · split
    · exact h.orReject fun declared hdeclared => h.readObject hdeclared
    · exact h.reject _

theorem readLabel (h : d.Sound) (line : SourceLine) (index : Nat) :
    (d.readLabel line index).Sound := by
  unfold Declarations.readLabel
  split
  · exact h
  · refine h.orReject fun declared hdeclared => ?_
    obtain ⟨-, -, hdeclared⟩ := bind_eq_ok_iff.mp hdeclared
    cases hdeclared
    refine ⟨h.slots, h.objects, ?_, h.tapeValues, h.objectLengths, h.objectValues⟩
    simp [Declarations.addLabel, Names.addLabel, h.labels]

theorem readLabels (h : d.Sound) (lines : List SourceLine) : (d.readLabels lines).Sound := by
  unfold Declarations.readLabels
  generalize lines.zipIdx = numbered
  induction numbered generalizing d with
  | nil => exact h
  | cons first numbered ih => exact ih (h.readLabel first.1 first.2)

end Sound

theorem readLabel_of_none {d : Declarations} {line : SourceLine} (h : labelOf? line = none)
    (index : Nat) : d.readLabel line index = d := by
  rw [readLabel, h]

end Declarations

namespace DataSegment

/-- The declarations are sound, and there is no tape before its length is read. -/
structure Sound (s : DataSegment) : Prop where
  declarations : s.declarations.Sound
  tape : s.sawLength = false → s.declarations.tape = []

theorem Sound.demandLength {s : DataSegment} (h : s.Sound) (line : Nat) :
    (s.demandLength line).Sound := by
  unfold DataSegment.demandLength
  split
  · exact h
  · exact ⟨h.declarations.reject _, h.tape⟩

/-- As long as there is no tape, no line can be about a slot of it. -/
theorem tape_readDeclaration {d : Declarations} (h : d.tape = []) (c : Cursor) :
    (d.readDeclaration c).tape = [] := by
  unfold Declarations.readDeclaration
  split
  · unfold Declarations.bindSlot
    split
    · exact h
    · rename_i index counted hread
      have hindex := (Declarations.index_of_readSlotIndex hread).1
      simp [h] at hindex
  · split
    · rename_i kind past _
      cases hread : d.readObject kind past with
      | error finding => exact h
      | ok declared =>
          obtain ⟨ident, values, rfl, -, -⟩ := Declarations.eq_addObject_of_readObject hread
          exact h
    · exact h

theorem Sound.readLine {s : DataSegment} (h : s.Sound) (line : SourceLine) :
    (s.readLine line).Sound := by
  unfold DataSegment.readLine
  split
  · exact h
  · dsimp only
    split
    · split
      · exact ⟨h.declarations.reject _, h.tape⟩
      · rename_i hsaw
        refine ⟨h.declarations.orReject fun declared hdeclared => ?_, by simp⟩
        exact h.declarations.readTapeLength (h.tape (by simpa using hsaw)) hdeclared
    · have hdemand := h.demandLength line.number
      exact ⟨hdemand.declarations.readDeclaration _, fun hsaw =>
        tape_readDeclaration (hdemand.tape hsaw) _⟩

theorem sound_foldl {s : DataSegment} (h : s.Sound) (lines : List SourceLine) :
    (lines.foldl DataSegment.readLine s).Sound := by
  induction lines generalizing s with
  | nil => exact h
  | cons line lines ih => exact ih (h.readLine line)

end DataSegment

/-- The declarations of a program text are sound, whether or not something is wrong with it. -/
theorem sound_readLabels_read (data text : List SourceLine) (textLine : Nat) :
    ((DataSegment.read data textLine).readLabels text).Sound := by
  have hstart : DataSegment.Sound {} := ⟨Declarations.sound_empty, fun _ => rfl⟩
  have hdata := (DataSegment.sound_foldl hstart data).demandLength textLine
  exact hdata.declarations.readLabels text

end TapePuzzle
