import TapePuzzle.Proofs.Reading.Declarations
import TapePuzzle.Proofs.Reading.TextLines

/-!
# What reading a program guarantees

Main statement: a program text with nothing wrong gives a program whose lines nest properly, whose
statements make sense over a table of names, and whose tape, objects and labels have what this table
promises.
-/

namespace TapePuzzle

/-- A program that its statements make sense in. -/
structure Program.Sound (p : Program) (names : Names) : Prop where
  nested : Nested [] none p.code
  statements : ∀ line ∈ p.code, line.statement.action.WellFormed names
  slot : ∀ name, names.HasSlot name → (p.slotIndex? name).isSome = true
  object : ∀ name method, names.HasMethod name method → (p.object? name).isSome = true
  label : ∀ name, names.HasLabel name → (p.label? name).isSome = true
  tapeValues : ∀ slot ∈ p.tape, inRange slot.value = true
  objectLengths : ∀ object ∈ p.objects, object.values.length ≤ maxObjectLength
  objectValues : ∀ object ∈ p.objects, ∀ value ∈ object.values, inRange value = true

namespace Names

variable {names : Names} {name : String}

theorem declared_of_role {role : Role} (h : names.role name = role) (hkeyword : role ≠ .keyword)
    (hbuiltin : ∀ function, role ≠ .builtin function) : names.declared name = role := by
  unfold Names.role at h
  split at h
  · exact absurd h.symm hkeyword
  · split at h
    · exact absurd h.symm (hbuiltin _)
    · exact h

theorem HasSlot.exists_mem (h : names.HasSlot name) : ∃ index, (name, index) ∈ names.slots := by
  obtain ⟨index, hrole⟩ := h
  have hdeclared := declared_of_role hrole (by simp) (by simp)
  unfold declared at hdeclared
  split at hdeclared
  · rename_i index' hlookup
    obtain ⟨front, back, hslots, -⟩ := List.lookup_eq_some_iff.mp hlookup
    exact ⟨index', by simp [hslots]⟩
  · split at hdeclared
    · cases hdeclared
    · split at hdeclared <;> cases hdeclared

theorem HasMethod.exists_mem {method : Method} (h : names.HasMethod name method) :
    ∃ kind, (name, kind) ∈ names.objects := by
  obtain ⟨kind, hrole, -⟩ := h
  have hdeclared := declared_of_role hrole (by simp) (by simp)
  unfold declared at hdeclared
  split at hdeclared
  · cases hdeclared
  · split at hdeclared
    · rename_i kind' hlookup
      obtain ⟨front, back, hobjects, -⟩ := List.lookup_eq_some_iff.mp hlookup
      exact ⟨kind', by simp [hobjects]⟩
    · split at hdeclared <;> cases hdeclared

theorem HasLabel.isSome_lookup (h : names.HasLabel name) :
    (names.labels.lookup name).isSome = true := by
  obtain ⟨line, hrole⟩ := h
  have hdeclared := declared_of_role hrole (by simp) (by simp)
  unfold declared at hdeclared
  split at hdeclared
  · cases hdeclared
  · split at hdeclared
    · cases hdeclared
    · split at hdeclared
      · rename_i line' hlookup
        rw [hlookup]
        rfl
      · cases hdeclared

end Names

theorem Layout.sound_declarations (layout : Layout) : layout.declarations.Sound :=
  sound_readLabels_read layout.data layout.text layout.textLine

/-- Nothing is wrong with a valid program text, in its declarations or in its statements. -/
theorem Program.sound_ofLayout {lines : List SourceLine} {layout : Layout}
    (h : (Program.ofLayout lines layout).isValid = true) :
    (Program.ofLayout lines layout).Sound layout.declarations.names := by
  have hdeclarations := layout.sound_declarations
  have hnone : (readTextLines layout.declarations.names {} none layout.text).2 = [] := by
    simp only [Program.ofLayout, Program.isValid, List.isEmpty_iff, List.map_eq_nil_iff,
      List.append_eq_nil_iff] at h
    exact h.2
  have htracks : Indentation.Tracks {} [] none := ⟨rfl, rfl⟩
  obtain ⟨hnested, hstatements⟩ :=
    nested_of_readTextLines (Prod.ext rfl hnone) htracks (by simp) 0
  refine ⟨hnested, hstatements, ?_, ?_, ?_, hdeclarations.tapeValues,
    hdeclarations.objectLengths, hdeclarations.objectValues⟩
  · intro name hname
    obtain ⟨index, hmem⟩ := hname.exists_mem
    obtain ⟨-, slot, hslot, hslotName⟩ := hdeclarations.slots _ hmem
    simp only [Program.slotIndex?, TapePuzzle.slotIndex?, List.findIdx?_isSome, List.any_eq_true]
    exact ⟨slot, List.mem_of_getElem? hslot, by simp [hslotName]⟩
  · intro name method hname
    obtain ⟨kind, hmem⟩ := hname.exists_mem
    rw [hdeclarations.objects, List.mem_reverse, List.mem_map] at hmem
    obtain ⟨object, hobject, heq⟩ := hmem
    simp only [Program.object?, findObject?, List.find?_isSome]
    refine ⟨object, hobject, ?_⟩
    simpa using congrArg Prod.fst heq
  · intro name hname
    have hlabel := hname.isSome_lookup
    rw [hdeclarations.labels] at hlabel
    exact hlabel

/-- A valid program text is read into a program that its statements make sense in. -/
theorem Program.exists_sound_read {text : List Char} (h : (Program.read text).isValid = true) :
    ∃ names, (Program.read text).Sound names := by
  unfold Program.read Program.ofLines at h ⊢
  split at h
  · cases h
  · rename_i layout hlayout
    exact ⟨_, Program.sound_ofLayout h⟩

end TapePuzzle
