import TapePuzzle.Proofs.Reading.Declarations
import TapePuzzle.Proofs.Reading.Heading
import TapePuzzle.Reading.Program

/-!
# What a line can change in the declarations

Reading the data segment and the labels takes the declarations through one change per line. `Change`
lists all that a line of the data segment can do, `LabelChange` all that a line of the text segment
can, both with what was checked before it is done. Main statement: the declarations of every program
text, right or wrong, come from none by such changes, so that what each of them keeps holds of all
declarations.
-/

namespace TapePuzzle

namespace Declarations

variable {d d' d'' : Declarations}

theorem free_of_checkName {ident : Ident} (hident : isIdentifier ident.name = true)
    (h : d.checkName ident = .ok ()) : d.Free ident.name := by
  obtain ⟨hreserved, hfresh⟩ := checkName_eq_ok_iff.mp h
  exact ⟨hident, hreserved, hfresh⟩

/-! ## Changes -/

/-- The declarations with a line about slot `index` that gives it a name, a value, both or
    neither. -/
def occupy (d : Declarations) (index : Nat) (ident? : Option Ident) (value? : Option Int) :
    Declarations :=
  let bound := { d with bound := index :: d.bound }
  let named :=
    match ident? with
    | none => bound
    | some ident => bound.nameSlot index ident
  match value? with
  | none => named
  | some value => named.fillSlot index value

/-- What a line of the data segment can make of the declarations. -/
inductive Change (d : Declarations) : Declarations → Prop where
  /-- The line declares nothing. -/
  | none : Change d d
  | reject (finding : Finding) : Change d (d.reject finding)
  | layOut (length : Nat) (htape : d.tape = []) (hleast : 1 ≤ length)
      (hmost : length ≤ maxTapeLength) : Change d { d with tape := List.replicate length {} }
  /-- Only the index of a line about a slot is right. -/
  | spoil {index : Nat} (hindex : index < d.tape.length) (hfree : index ∉ d.bound)
      (finding : Finding) : Change d ({ d with bound := index :: d.bound }.reject finding)
  | occupy {index : Nat} {ident? : Option Ident} {value? : Option Int}
      (hindex : index < d.tape.length) (hfree : index ∉ d.bound)
      (hident : ∀ ident ∈ ident?, d.Free ident.name)
      (hvalue : ∀ value ∈ value?, inRange value = true) :
      Change d (d.occupy index ident? value?)
  | addObject {ident : Ident} {values : List Int} (kind : ObjectKind) (hident : d.Free ident.name)
      (hlength : values.length ≤ maxObjectLength)
      (hvalues : ∀ value ∈ values, inRange value = true) :
      Change d (d.addObject ident kind values)

/-- What line `index` of the text segment can make of the declarations, before statements are
    read. -/
inductive LabelChange (d : Declarations) (line : SourceLine) (index : Nat) :
    Declarations → Prop where
  | none (hline : labelOf? line = none) : LabelChange d line index d
  | reject (finding : Finding) : LabelChange d line index (d.reject finding)
  | addLabel {ident : Ident} (hline : labelOf? line = some ident) (hident : d.Free ident.name) :
      LabelChange d line index (d.addLabel ident index)

theorem change_orReject {result : Checked Declarations}
    (h : ∀ declared, result = .ok declared → d.Change declared) : d.Change (d.orReject result) := by
  cases result with
  | ok declared => exact h declared rfl
  | error finding => exact .reject finding

theorem change_readTapeLength (htape : d.tape = []) {c : Cursor}
    (h : d.readTapeLength c = .ok d') : d.Change d' := by
  simp only [readTapeLength] at h
  split at h
  · cases h
  · split at h
    · rename_i hlength
      cases h
      exact .layOut _ htape (by omega) (by omega)
    · cases h

theorem identifier_of_readSlotName {c past : Cursor} {ident : Ident}
    (h : readSlotName c = (some ident, past)) : isIdentifier ident.name = true := by
  simp only [readSlotName] at h
  split at h
  · cases h
  · rename_i named hnamed
    cases h
    exact Cursor.isIdentifier_of_eat? hnamed

/-- A line about slot `index` whose rest is accepted, and what was read of it. -/
theorem eq_occupy_of_readSlotBinding {index : Nat} {c : Cursor}
    (h : { d with bound := index :: d.bound }.readSlotBinding index c = .ok d') :
    ∃ ident? named value? past, readSlotName c = (ident?, named) ∧
      readSlotValue named = .ok (value?, past) ∧ past.sees .endOfLine = true ∧
      (∀ ident ∈ ident?, d.Free ident.name) ∧ d' = d.occupy index ident? value? := by
  simp only [readSlotBinding] at h
  obtain ⟨⟨value?, past⟩, hvalue, h⟩ := bind_eq_ok_iff.mp h
  rcases hname : readSlotName c with ⟨ident?, named⟩
  rw [hname] at h hvalue
  dsimp only at h
  split at h
  · cases h
  · rename_i hend
    refine ⟨ident?, named, value?, past, rfl, hvalue, by simpa using hend, ?_⟩
    cases ident? with
    | none =>
        refine ⟨by simp, ?_⟩
        cases value? <;> cases h <;> rfl
    | some ident =>
        obtain ⟨⟨⟩, hcheck, h⟩ := bind_eq_ok_iff.mp h
        have hfree := free_of_checkName (identifier_of_readSlotName hname) hcheck
        constructor
        · rintro _ ⟨⟩
          exact ⟨hfree.identifier, hfree.reserved, hfree.fresh⟩
        · cases value? <;> cases h <;> rfl

theorem change_bindSlot (d : Declarations) (c : Cursor) : d.Change (d.bindSlot c) := by
  unfold bindSlot
  split
  · exact .reject _
  · rename_i index counted hread
    obtain ⟨hindex, hfree⟩ := index_of_readSlotIndex hread
    dsimp only
    cases hbinding : { d with bound := index :: d.bound }.readSlotBinding index counted with
    | error finding => exact .spoil hindex hfree finding
    | ok declared =>
        obtain ⟨ident?, named, value?, past, -, hvalue, -, hident, rfl⟩ :=
          eq_occupy_of_readSlotBinding hbinding
        refine .occupy hindex hfree hident ?_
        rintro value rfl
        exact inRange_of_readSlotValue hvalue

theorem change_readObject {kind : ObjectKind} {c : Cursor} (h : d.readObject kind c = .ok d') :
    d.Change d' := by
  unfold readObject at h
  split at h
  · cases h
  · split at h
    · cases h
    · rename_i named hnamed
      obtain ⟨values, hvalues, h⟩ := bind_eq_ok_iff.mp h
      split at h
      · cases h
      · rename_i hlength
        obtain ⟨⟨⟩, hcheck, h⟩ := bind_eq_ok_iff.mp h
        cases h
        exact .addObject kind (free_of_checkName (Cursor.isIdentifier_of_eat? hnamed) hcheck)
          (by omega) (inRange_of_readValues hvalues)

theorem change_readDeclaration (d : Declarations) (c : Cursor) :
    d.Change (d.readDeclaration c) := by
  unfold readDeclaration
  split
  · exact d.change_bindSlot c
  · split
    · exact change_orReject fun declared hdeclared => change_readObject hdeclared
    · exact .reject _

theorem identifier_of_labelOf? {line : SourceLine} {ident : Ident}
    (h : labelOf? line = some ident) : isIdentifier ident.name = true := by
  obtain ⟨named, hnamed, h⟩ := Option.bind_eq_some_iff.mp h
  split at h
  · cases h
  · obtain ⟨colon, -, h⟩ := Option.bind_eq_some_iff.mp h
    split at h
    · cases h
      exact Cursor.isIdentifier_of_eat? hnamed
    · cases h

theorem labelChange_readLabel (d : Declarations) (line : SourceLine) (index : Nat) :
    d.LabelChange line index (d.readLabel line index) := by
  unfold readLabel
  cases hline : labelOf? line with
  | none => exact .none hline
  | some ident =>
      dsimp only
      cases hcheck : d.checkName ident with
      | error finding => exact .reject finding
      | ok checked =>
          exact .addLabel hline (free_of_checkName (identifier_of_labelOf? hline) hcheck)

/-! ## Series of changes -/

/-- The second declarations result from the first by changes. -/
inductive Changes (d : Declarations) : Declarations → Prop where
  | refl : Changes d d
  | step {d' d'' : Declarations} (h : Changes d d') (hchange : d'.Change d'') : Changes d d''

theorem Changes.trans (h : d.Changes d') (h' : d'.Changes d'') : d.Changes d'' := by
  induction h' with
  | refl => exact h
  | step _ hchange ih => exact .step ih hchange

/-- What every change keeps is kept. -/
theorem Changes.keeps {inv : Declarations → Prop} (h : d.Changes d') (hd : inv d)
    (hchange : ∀ {d d' : Declarations}, inv d → d.Change d' → inv d') : inv d' := by
  induction h with
  | refl => exact hd
  | step _ hstep ih => exact hchange ih hstep

/-- What holds before the labels are declared and is kept by each line holds afterwards. Lines are
    met under their place in the text segment. -/
theorem readLabels_keeps {inv : Declarations → Prop} {lines : List SourceLine} (hd : inv d)
    (hchange : ∀ {d d' : Declarations} {line : SourceLine} {index : Nat},
      lines[index]? = some line → inv d → d.LabelChange line index d' → inv d') :
    inv (d.readLabels lines) := by
  have hmem : ∀ entry ∈ lines.zipIdx, lines[entry.2]? = some entry.1 :=
    fun _ hentry => List.mem_zipIdx_iff_getElem?.mp hentry
  unfold readLabels
  generalize lines.zipIdx = numbered at hmem ⊢
  induction numbered generalizing d with
  | nil => exact hd
  | cons entry numbered ih =>
      obtain ⟨hentry, hnumbered⟩ := List.forall_mem_cons.mp hmem
      exact ih (hchange hentry hd (labelChange_readLabel d entry.1 entry.2)) hnumbered

end Declarations

namespace DataSegment

open Declarations

theorem changes_demandLength (s : DataSegment) (line : Nat) :
    s.declarations.Changes (s.demandLength line).declarations := by
  unfold demandLength
  split
  · exact .refl
  · exact .step .refl (.reject _)

theorem changes_readLine {s : DataSegment} (h : s.Sound) (line : SourceLine) :
    s.declarations.Changes (s.readLine line).declarations := by
  unfold readLine
  split
  · exact .refl
  · dsimp only
    split
    · split
      · exact .step .refl (.reject _)
      · rename_i hsaw
        refine .step .refl (change_orReject fun declared hdeclared => ?_)
        exact change_readTapeLength (h.tape (by simpa using hsaw)) hdeclared
    · exact .step (s.changes_demandLength line.number) (change_readDeclaration _ _)

theorem changes_foldl {s : DataSegment} (h : s.Sound) (lines : List SourceLine) :
    s.declarations.Changes (lines.foldl readLine s).declarations := by
  induction lines generalizing s with
  | nil => exact .refl
  | cons line lines ih => exact (changes_readLine h line).trans (ih (h.readLine line))

theorem sound_start : Sound {} := ⟨sound_empty, fun _ => rfl⟩

theorem changes_read (lines : List SourceLine) (textLine : Nat) :
    Declarations.Changes {} (DataSegment.read lines textLine) :=
  (changes_foldl sound_start lines).trans (changes_demandLength _ textLine)

end DataSegment

/-- What holds of no declarations and is kept by every line holds of the declarations of a program
    text. -/
theorem Layout.declarations_keeps {inv : Declarations → Prop} (layout : Layout) (hempty : inv {})
    (hdata : ∀ {d d' : Declarations}, inv d → d.Change d' → inv d')
    (hlabel : ∀ {d d' : Declarations} {line : SourceLine} {index : Nat},
      inv d → d.LabelChange line index d' → inv d') : inv layout.declarations :=
  Declarations.readLabels_keeps
    ((DataSegment.changes_read layout.data layout.textLine).keeps hempty hdata)
    fun _ hd hchange => hlabel hd hchange

end TapePuzzle
