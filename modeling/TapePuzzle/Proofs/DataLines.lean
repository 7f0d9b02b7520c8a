import TapePuzzle.Proofs.Reading.Changes
import TapePuzzle.Proofs.Reading.DeclarationPlaces
import TapePuzzle.Proofs.Reading.Patterns

/-!
# Lines of the data segment

A line of the data segment lays out the tape, binds a slot or adds an object. What it says is
written in it as numbers and names, each of them as long as possible; whether it is allowed depends
on the lines before it. Main statement: what an allowed line says is done, all of it, and nothing is
found wrong with the line; any other line is refused with one finding, and declares nothing.
-/

namespace TapePuzzle

variable {α : Type} {text rest rest' : List Char} {value : Int} {name name' : String}
variable {c past : Cursor}

/-! ## What is written in a line -/

/-- The text starts with a number of the given value, and goes on with `rest`. -/
def SaysNumber (text : List Char) (value : Int) (rest : List Char) : Prop :=
  ∃ number, Pattern.integer.TakesLongest text number rest ∧ readInteger number = value

/-- The text starts with the name, and goes on with `rest`. -/
def SaysName (text : List Char) (name : String) (rest : List Char) : Prop :=
  Pattern.identifier.TakesLongest text name.toList rest

/-- The text starts with something of the given form, if it can. -/
def Perhaps (form : List Char → α → List Char → Prop) (text : List Char) :
    Option α → List Char → Prop
  | some said, rest => form text said rest
  | none, rest => rest = text ∧ ∀ said behind, ¬form text said behind

/-- The text consists of numbers of the given values, with or without blanks around them. -/
inductive SaysValues : List Char → List Int → Prop where
  | nil {text : List Char} (hblank : ∀ b ∈ text, isBlank b = true) : SaysValues text []
  | cons {text rest : List Char} {value : Int} {values : List Int}
      (hvalue : SaysNumber (afterBlanks text) value rest) (hvalues : SaysValues rest values) :
      SaysValues text (value :: values)

/-- What a line says of a slot: its index, and perhaps a name and a value for it. -/
def SaysSlot (text : List Char) (index : Nat) (name? : Option String) (value? : Option Int) :
    Prop :=
  ∃ afterIndex afterName afterValue, SaysNumber text index afterIndex ∧
    Perhaps SaysName (afterBlanks afterIndex) name? afterName ∧
    Perhaps SaysNumber (afterBlanks afterName) value? afterValue ∧
    ∀ b ∈ afterValue, isBlank b = true

theorem saysNumber_of_eat? (h : c.eat? .integer = some past) :
    SaysNumber c.rest (readInteger past.matched) past.rest := by
  obtain ⟨⟨number, rest⟩, hsplit, rfl⟩ := Option.map_eq_some_iff.mp h
  exact ⟨number, Pattern.takesLongest_of_split? hsplit, rfl⟩

theorem eat?_of_saysNumber (h : SaysNumber c.rest value rest) :
    ∃ past, c.eat? .integer = some past ∧ readInteger past.matched = value ∧ past.rest = rest := by
  obtain ⟨number, hnumber, rfl⟩ := h
  obtain ⟨past, hpast, hrest, hmatched⟩ :=
    Cursor.eat?_of_split? (Pattern.split?_eq_some_iff.mpr hnumber)
  exact ⟨past, hpast, by rw [hmatched], hrest⟩

theorem saysName_of_eat? (h : c.eat? .identifier = some past) :
    SaysName c.rest past.word past.rest := by
  obtain ⟨⟨found, rest⟩, hsplit, rfl⟩ := Option.map_eq_some_iff.mp h
  rw [SaysName, Cursor.word, String.toList_ofList]
  exact Pattern.takesLongest_of_split? hsplit

theorem eat?_of_saysName (h : SaysName c.rest name rest) :
    ∃ past, c.eat? .identifier = some past ∧ past.word = name ∧ past.rest = rest := by
  obtain ⟨past, hpast, hrest, hmatched⟩ :=
    Cursor.eat?_of_split? (Pattern.split?_eq_some_iff.mpr h)
  exact ⟨past, hpast, by rw [Cursor.word, hmatched, String.ofList_toList], hrest⟩

theorem sees_endOfLine_iff : c.sees .endOfLine = true ↔ ∀ b ∈ c.rest, isBlank b = true := by
  rw [Cursor.sees_endOfLine, List.all_eq_true]

theorem blank_afterBlanks_iff :
    (∀ b ∈ afterBlanks text, isBlank b = true) ↔ ∀ b ∈ text, isBlank b = true := by
  constructor
  · intro h b hb
    rw [← List.takeWhile_append_dropWhile (p := isBlank) (l := text)] at hb
    rcases List.mem_append.mp hb with hb | hb
    · exact List.mem_takeWhile_imp hb
    · exact h b hb
  · intro h b hb
    exact h b (List.dropWhile_subset _ hb)

theorem sees_endOfLine_skipBlanks_iff :
    c.skipBlanks.sees .endOfLine = true ↔ ∀ b ∈ c.rest, isBlank b = true :=
  sees_endOfLine_iff.trans blank_afterBlanks_iff

theorem leadingBlanks_eq_nil_iff : leadingBlanks text = [] ↔ Stops isBlank text := by
  cases text with
  | nil => simp [leadingBlanks, Stops]
  | cons first more => cases h : isBlank first <;> simp [leadingBlanks, Stops, h]

theorem eat?_blanks_iff {start : Cursor} :
    c.eat? .blanks = some start ↔
      ¬Stops isBlank c.rest ∧ start = { c.skipBlanks with matched := leadingBlanks c.rest } := by
  rw [← leadingBlanks_eq_nil_iff, Cursor.eat?, Pattern.split?]
  cases hblanks : leadingBlanks c.rest with
  | nil => simp
  | cons first more => simp [Cursor.skipBlanks, hblanks, eq_comm]

/-- A number is not blank. -/
theorem SaysNumber.exists_cons (h : SaysNumber text value rest) :
    ∃ first more, text = first :: more ++ rest ∧ isBlank first = false := by
  obtain ⟨number, ⟨rfl, htakes, -⟩, -⟩ := h
  obtain ⟨first, more, rfl, hfirst⟩ := (show IsInteger number from htakes).isWord.exists_cons
  exact ⟨first, more, rfl, isBlank_of_isWordChar hfirst⟩

/-- A text says one name at most. -/
theorem SaysName.unique (h : SaysName text name rest) (h' : SaysName text name' rest') :
    name = name' ∧ rest = rest' := by
  have heq := (Pattern.split?_eq_some_iff.mpr h).symm.trans (Pattern.split?_eq_some_iff.mpr h')
  obtain ⟨hname, hrest⟩ := Prod.mk.inj (Option.some.inj heq)
  exact ⟨String.toList_inj.mp hname, hrest⟩

theorem Perhaps.unique {name? name?' : Option String} (h : Perhaps SaysName text name? rest)
    (h' : Perhaps SaysName text name?' rest') : name? = name?' ∧ rest = rest' := by
  cases name? with
  | none =>
      cases name?' with
      | none => exact ⟨rfl, h.1.trans h'.1.symm⟩
      | some name' => exact absurd h' (h.2 _ _)
  | some name =>
      cases name?' with
      | none => exact absurd h (h'.2 _ _)
      | some name' =>
          obtain ⟨rfl, rfl⟩ := SaysName.unique h h'
          exact ⟨rfl, rfl⟩

/-! ## What is done -/

namespace Declarations

variable {d d' : Declarations} {kind : ObjectKind} {line index : Nat}
variable {name? : Option String} {value? : Option Int} {values : List Int}

/-- What becomes of the declarations by a line with the length of the tape. -/
def LaysOut (d : Declarations) (text : List Char) (d' : Declarations) : Prop :=
  ∃ (length : Nat) (rest : List Char), SaysNumber (afterBlanks text) length rest ∧
    (∀ b ∈ rest, isBlank b = true) ∧ 1 ≤ length ∧ length ≤ maxTapeLength ∧
    d' = { d with tape := List.replicate length {} }

/-- What becomes of the declarations by a line about a slot. -/
def Binds (d : Declarations) (line : Nat) (text : List Char) (d' : Declarations) : Prop :=
  ∃ index name? value?, SaysSlot text index name? value? ∧ index < d.tape.length ∧
    index ∉ d.bound ∧ (∀ name ∈ name?, d.Free name) ∧ (∀ value ∈ value?, inRange value = true) ∧
    d' = { d with
      tape := d.tape.set index ⟨name?, value?.getD 0⟩
      names := name?.elim d.names fun name => d.names.addSlot name index
      declared := name?.elim d.declared fun name => (name, line) :: d.declared
      bound := index :: d.bound }

/-- What becomes of the declarations by a line about an object. -/
def Adds (d : Declarations) (kind : ObjectKind) (line : Nat) (text : List Char)
    (d' : Declarations) : Prop :=
  ∃ name values rest, ¬Stops isBlank text ∧ SaysName (afterBlanks text) name rest ∧
    SaysValues rest values ∧ d.Free name ∧ values.length ≤ maxObjectLength ∧
    (∀ value ∈ values, inRange value = true) ∧
    d' = { d with
      objects := d.objects ++ [⟨name, kind, values⟩]
      names := d.names.addObject name kind
      declared := (name, line) :: d.declared }

/-! ## The length of the tape -/

theorem readTapeLength_eq_ok_iff : d.readTapeLength c = .ok d' ↔ d.LaysOut c.rest d' := by
  constructor
  · intro h
    simp only [readTapeLength] at h
    split at h
    · cases h
    · rename_i counted hcounted
      split at h
      · rename_i hlength
        obtain ⟨hleast, hmost, hend⟩ := hlength
        cases h
        have hnumber := saysNumber_of_eat? hcounted
        refine ⟨(readInteger counted.matched).toNat, counted.rest, ?_, sees_endOfLine_iff.mp hend,
          by omega, by omega, rfl⟩
        rwa [Int.toNat_of_nonneg (by omega)]
      · cases h
  · rintro ⟨length, rest, hnumber, hend, hleast, hmost, rfl⟩
    obtain ⟨counted, hcounted, hvalue, rfl⟩ := eat?_of_saysNumber (c := c.skipBlanks) hnumber
    simp only [readTapeLength, hcounted]
    rw [if_pos ⟨by omega, by omega, sees_endOfLine_iff.mpr hend⟩, hvalue, Int.toNat_natCast]

/-! ## Slots -/

theorem readSlotIndex_iff :
    (∃ counted, d.readSlotIndex c = .ok (index, counted) ∧ counted.rest = rest) ↔
      SaysNumber c.rest index rest ∧ index < d.tape.length ∧ index ∉ d.bound := by
  constructor
  · rintro ⟨counted, h, rfl⟩
    have hindex := index_of_readSlotIndex h
    simp only [readSlotIndex] at h
    split at h
    · cases h
    · rename_i past hpast
      split at h
      · rename_i hrange
        split at h
        · cases h
        · cases h
          have hnumber := saysNumber_of_eat? hpast
          rw [← Int.toNat_of_nonneg hrange.1] at hnumber
          exact ⟨hnumber, hindex⟩
      · cases h
  · rintro ⟨hnumber, hindex, hfree⟩
    obtain ⟨counted, hcounted, hvalue, hrest⟩ := eat?_of_saysNumber hnumber
    have hrange : 0 ≤ (index : Int) ∧ (index : Int) < d.tape.length := by omega
    refine ⟨counted, ?_, hrest⟩
    simp [readSlotIndex, hcounted, hvalue, hrange, hfree]

theorem perhaps_of_readSlotName {ident? : Option Ident} (h : readSlotName c = (ident?, past)) :
    Perhaps SaysName (afterBlanks c.rest) (ident?.map Ident.name) past.rest := by
  simp only [readSlotName] at h
  split at h
  · rename_i hnone
    cases h
    refine ⟨rfl, fun name behind hname => ?_⟩
    obtain ⟨past, hpast, -⟩ := eat?_of_saysName (c := c.skipBlanks) hname
    rw [hnone] at hpast
    cases hpast
  · rename_i named hnamed
    cases h
    exact saysName_of_eat? hnamed

theorem readDataValue_eq_ok_iff {start : Nat} :
    readDataValue start c = .ok value ↔ readInteger c.matched = value ∧ inRange value = true := by
  simp only [readDataValue]
  split
  · rename_i hrange
    constructor
    · rintro ⟨⟩
      exact ⟨rfl, hrange⟩
    · rintro ⟨rfl, -⟩
      rfl
  · rename_i hrange
    constructor
    · rintro ⟨⟩
    · rintro ⟨rfl, hrange'⟩
      exact absurd hrange' hrange

theorem readSlotValue_iff :
    (∃ past, readSlotValue c = .ok (value?, past) ∧ past.rest = rest) ↔
      Perhaps SaysNumber (afterBlanks c.rest) value? rest ∧
        ∀ value ∈ value?, inRange value = true := by
  simp only [readSlotValue]
  constructor
  · rintro ⟨past, h, rfl⟩
    split at h
    · rename_i hnone
      cases h
      refine ⟨⟨rfl, fun value behind hvalue => ?_⟩, by simp⟩
      obtain ⟨past, hpast, -⟩ := eat?_of_saysNumber (c := c.skipBlanks) hvalue
      rw [hnone] at hpast
      cases hpast
    · rename_i counted hcounted
      obtain ⟨value, hvalue, h⟩ := bind_eq_ok_iff.mp h
      cases h
      obtain ⟨rfl, hrange⟩ := readDataValue_eq_ok_iff.mp hvalue
      refine ⟨saysNumber_of_eat? hcounted, ?_⟩
      rintro _ ⟨⟩
      exact hrange
  · rintro ⟨hvalue, hrange⟩
    cases value? with
    | none =>
        obtain ⟨rfl, hnone⟩ := hvalue
        cases heat : c.skipBlanks.eat? .integer with
        | none => exact ⟨_, rfl, rfl⟩
        | some counted => exact absurd (saysNumber_of_eat? heat) (hnone _ _)
    | some value =>
        obtain ⟨counted, hcounted, hread, hrest⟩ := eat?_of_saysNumber (c := c.skipBlanks) hvalue
        rw [hcounted]
        refine ⟨counted, ?_, hrest⟩
        dsimp only
        rw [readDataValue_eq_ok_iff.mpr ⟨hread, hrange value rfl⟩]
        rfl

theorem readSlotBinding_eq_ok_iff :
    { d with bound := index :: d.bound }.readSlotBinding index c = .ok d' ↔
      ∃ ident? named value? past, readSlotName c = (ident?, named) ∧
        readSlotValue named = .ok (value?, past) ∧ past.sees .endOfLine = true ∧
        (∀ ident ∈ ident?, d.Free ident.name) ∧ d' = d.occupy index ident? value? := by
  refine ⟨eq_occupy_of_readSlotBinding, ?_⟩
  rintro ⟨ident?, named, value?, past, hname, hvalue, hend, hident, rfl⟩
  simp only [readSlotBinding, hname]
  refine bind_eq_ok_iff.mpr ⟨_, hvalue, ?_⟩
  simp only [hend, Bool.not_true, Bool.false_eq_true, ↓reduceIte]
  cases ident? with
  | none => cases value? <;> rfl
  | some ident =>
      have hfree := hident ident rfl
      have hcheck : { d with bound := index :: d.bound }.checkName ident = .ok () :=
        checkName_eq_ok_iff.mpr ⟨hfree.reserved, hfree.fresh⟩
      refine bind_eq_ok_iff.mpr ⟨_, hcheck, ?_⟩
      cases value? <;> rfl

theorem modify_eq_set_of_getElem? {tape : List Slot} {slot : Slot} (h : tape[index]? = some slot)
    (change : Slot → Slot) : tape.modify index change = tape.set index (change slot) := by
  have : Inhabited Slot := ⟨slot⟩
  rw [List.modify_eq_set, h, Option.getD_some]

/-- A slot that no line was about is as it was laid out, so that a line about it decides all of
    it. -/
theorem occupy_eq {ident? : Option Ident} (hslot : d.tape[index]? = some {})
    (hline : ∀ ident ∈ ident?, ident.span.line = line) :
    d.occupy index ident? value? = { d with
      tape := d.tape.set index ⟨ident?.map Ident.name, value?.getD 0⟩
      names := (ident?.map Ident.name).elim d.names fun name => d.names.addSlot name index
      declared := (ident?.map Ident.name).elim d.declared fun name => (name, line) :: d.declared
      bound := index :: d.bound } := by
  have hmodify := modify_eq_set_of_getElem? hslot
  have hsame : d.tape.set index {} = d.tape := (hmodify id).symm.trans (List.modify_id _ _)
  cases ident? with
  | none =>
      cases value? with
      | none => simp [occupy, hsame]
      | some value => simp [occupy, fillSlot, hmodify]
  | some ident =>
      obtain rfl := hline ident rfl
      cases value? with
      | none => simp [occupy, nameSlot, take, hmodify]
      | some value =>
          simp only [occupy, nameSlot, fillSlot, take]
          rw [List.modify_modify_eq, hmodify]
          rfl

/-- Slots that no line was about are as they were laid out. -/
def Untouched (d : Declarations) : Prop :=
  ∀ index < d.tape.length, index ∉ d.bound → d.tape[index]? = some {}

theorem Untouched.change (h : d.Untouched) (hchange : d.Change d') : d'.Untouched := by
  cases hchange with
  | none => exact h
  | reject finding => exact h
  | layOut length htape hleast hmost =>
      intro place hplace _
      exact List.getElem?_replicate_of_lt (by simpa using hplace)
  | spoil hindex hfree finding =>
      intro place hplace hbound
      exact h place hplace (List.not_mem_of_not_mem_cons hbound)
  | @occupy index ident? value? hindex hfree hident hvalue =>
      have hline : ∀ ident ∈ ident?,
          ident.span.line = ident?.elim 0 fun ident => ident.span.line := by
        rintro ident rfl
        rfl
      rw [occupy_eq (h index hindex hfree) hline]
      intro place hplace hbound
      obtain ⟨hne, hbound⟩ := List.ne_and_not_mem_of_not_mem_cons hbound
      rw [List.getElem?_set_ne hne.symm]
      exact h place (by simpa using hplace) hbound
  | addObject kind hident hlength hvalues => exact h

theorem lineNumber_of_readSlotIndex (h : d.readSlotIndex c = .ok (index, past)) :
    past.lineNumber = c.lineNumber := by
  have hanswers := answers_readSlotIndex d c
  rw [h] at hanswers
  exact hanswers.lineNumber

theorem binds_iff (h : d.Untouched) :
    d.Binds c.lineNumber c.rest d' ↔
      ∃ index counted, d.readSlotIndex c = .ok (index, counted) ∧
        { d with bound := index :: d.bound }.readSlotBinding index counted = .ok d' := by
  constructor
  · rintro ⟨index, name?, value?, hsaid, hindex, hbound, hfree, hrange, rfl⟩
    obtain ⟨afterIndex, afterName, afterValue, hnumber, hname, hvalue, hend⟩ := hsaid
    obtain ⟨counted, hcounted, rfl⟩ := readSlotIndex_iff.mpr ⟨hnumber, hindex, hbound⟩
    -- the reader finds some name or none, and the line says no other
    rcases hread : readSlotName counted with ⟨ident?, named⟩
    obtain ⟨rfl, rfl⟩ := hname.unique (perhaps_of_readSlotName hread)
    obtain ⟨past, hpast, rfl⟩ := readSlotValue_iff.mpr ⟨hvalue, hrange⟩
    refine ⟨index, counted, hcounted, readSlotBinding_eq_ok_iff.mpr ?_⟩
    refine ⟨ident?, named, value?, past, hread, hpast, sees_endOfLine_iff.mpr hend, ?_, ?_⟩
    · intro ident hident
      exact hfree ident.name (Option.mem_map_of_mem _ hident)
    · refine (occupy_eq (h index hindex hbound) fun ident hident => ?_).symm
      rw [← lineNumber_of_readSlotIndex hcounted]
      exact (within_readSlotName (by rw [hread]; exact hident)).line
  · rintro ⟨index, counted, hcounted, hbinding⟩
    obtain ⟨ident?, named, value?, past, hread, hpast, hend, hfree, rfl⟩ :=
      readSlotBinding_eq_ok_iff.mp hbinding
    obtain ⟨hnumber, hindex, hbound⟩ := readSlotIndex_iff.mp ⟨counted, hcounted, rfl⟩
    obtain ⟨hvalue, hrange⟩ := readSlotValue_iff.mp ⟨past, hpast, rfl⟩
    refine ⟨index, ident?.map Ident.name, value?, ?_, hindex, hbound, ?_, hrange, ?_⟩
    · exact ⟨_, _, _, hnumber, perhaps_of_readSlotName hread, hvalue, sees_endOfLine_iff.mp hend⟩
    · intro name hname
      obtain ⟨ident, hident, rfl⟩ := Option.map_eq_some_iff.mp hname
      exact hfree ident hident
    · refine occupy_eq (h index hindex hbound) fun ident hident => ?_
      rw [← lineNumber_of_readSlotIndex hcounted]
      exact (within_readSlotName (by rw [hread]; exact hident)).line

/-! ## Objects -/

theorem saysValues_of_readValues {fuel : Nat} (h : readValues fuel c = .ok values) :
    SaysValues c.rest values := by
  induction fuel generalizing c values with
  | zero => cases h
  | succ fuel ih =>
      simp only [readValues] at h
      split at h
      · rename_i hend
        cases h
        exact .nil (blank_afterBlanks_iff.mp (sees_endOfLine_iff.mp hend))
      · split at h
        · cases h
        · rename_i counted hcounted
          obtain ⟨value, hvalue, h⟩ := bind_eq_ok_iff.mp h
          obtain ⟨more, hmore, h⟩ := bind_eq_ok_iff.mp h
          cases h
          have hnumber := saysNumber_of_eat? hcounted
          rw [(readDataValue_eq_ok_iff.mp hvalue).1] at hnumber
          exact .cons hnumber (ih hmore)

theorem readValues_of_saysValues {fuel : Nat} (h : SaysValues text values) (htext : c.rest = text)
    (hrange : ∀ value ∈ values, inRange value = true) (hfuel : text.length < fuel) :
    readValues fuel c = .ok values := by
  obtain ⟨fuel, rfl⟩ := Nat.exists_eq_succ_of_ne_zero (Nat.ne_zero_of_lt hfuel)
  induction h generalizing c fuel with
  | @nil text hblank =>
      subst htext
      simp only [readValues, sees_endOfLine_skipBlanks_iff.mpr hblank, ↓reduceIte]
  | @cons text rest value values hvalue hvalues ih =>
      subst htext
      obtain ⟨hfirst, hmore⟩ := List.forall_mem_cons.mp hrange
      obtain ⟨counted, hcounted, hread, rfl⟩ := eat?_of_saysNumber (c := c.skipBlanks) hvalue
      obtain ⟨first, more, hsplit, hblank⟩ := hvalue.exists_cons
      have hend : c.skipBlanks.sees .endOfLine = false := by
        rw [Cursor.sees_endOfLine, Cursor.rest_skipBlanks, hsplit]
        simp [hblank]
      have hshorter : counted.rest.length < c.rest.length := by
        have hle : (afterBlanks c.rest).length ≤ c.rest.length :=
          (List.dropWhile_sublist _).length_le
        rw [hsplit, List.length_append, List.length_cons] at hle
        omega
      obtain ⟨fuel, rfl⟩ := Nat.exists_eq_succ_of_ne_zero (show fuel ≠ 0 by omega)
      simp only [readValues.eq_2 c, hend, hcounted, Bool.false_eq_true, ↓reduceIte]
      refine bind_eq_ok_iff.mpr ⟨value, readDataValue_eq_ok_iff.mpr ⟨hread, hfirst⟩, ?_⟩
      exact bind_eq_ok_iff.mpr ⟨values, ih rfl hmore fuel (by omega), rfl⟩

theorem readObject_eq_ok_iff :
    d.readObject kind c = .ok d' ↔ d.Adds kind c.lineNumber c.rest d' := by
  constructor
  · intro h
    unfold readObject at h
    split at h
    · cases h
    · rename_i start hstart
      obtain ⟨hblank, rfl⟩ := eat?_blanks_iff.mp hstart
      split at h
      · cases h
      · rename_i named hnamed
        obtain ⟨values, hvalues, h⟩ := bind_eq_ok_iff.mp h
        split at h
        · cases h
        · rename_i hlength
          obtain ⟨⟨⟩, hcheck, h⟩ := bind_eq_ok_iff.mp h
          cases h
          obtain ⟨hreserved, hfresh⟩ := checkName_eq_ok_iff.mp hcheck
          have hfree : d.Free named.word := ⟨Cursor.isIdentifier_of_eat? hnamed, hreserved, hfresh⟩
          have hline : named.lineNumber = c.lineNumber := (Cursor.reaches_eat? hnamed).lineNumber
          refine ⟨named.word, values, named.rest, hblank, saysName_of_eat? hnamed,
            saysValues_of_readValues hvalues, hfree, by omega, inRange_of_readValues hvalues, ?_⟩
          rw [← hline]
          rfl
  · rintro ⟨name, values, rest, hblank, hname, hvalues, hfree, hlength, hrange, rfl⟩
    have hstart := eat?_blanks_iff.mpr ⟨hblank, rfl⟩
    obtain ⟨named, hnamed, rfl, rfl⟩ :=
      eat?_of_saysName (c := { c.skipBlanks with matched := leadingBlanks c.rest }) hname
    have hline : named.lineNumber = c.lineNumber := (Cursor.reaches_eat? hnamed).lineNumber
    have hread : readValues (named.rest.length + 1) named = .ok values :=
      readValues_of_saysValues hvalues rfl hrange (Nat.lt_succ_self _)
    simp only [readObject, hstart, hnamed]
    refine bind_eq_ok_iff.mpr ⟨values, hread, ?_⟩
    rw [if_neg (by omega)]
    refine bind_eq_ok_iff.mpr ⟨(), checkName_eq_ok_iff.mpr ⟨hfree.reserved, hfree.fresh⟩, ?_⟩
    rw [← hline]
    rfl

/-! ## Any line -/

/-- Something is found wrong, and nothing is declared. That a line was about a slot may be noted. -/
def Refuses (d d' : Declarations) : Prop :=
  ∃ finding bound, d' = { d with bound := bound, findings := d.findings ++ [finding] }

/-- What the line says is done, or nothing can be done and the line is refused. -/
def Settles (d : Declarations) (effect : Declarations → Prop) (d' : Declarations) : Prop :=
  effect d' ∨ (∀ other, ¬effect other) ∧ d.Refuses d'

theorem settles_orReject {effect : Declarations → Prop} {result : Checked Declarations}
    (h : ∀ {d'}, result = .ok d' ↔ effect d') : d.Settles effect (d.orReject result) := by
  cases result with
  | ok d' => exact .inl (h.mp rfl)
  | error finding =>
      refine .inr ⟨fun other hother => ?_, finding, d.bound, rfl⟩
      cases h.mpr hother

theorem settles_bindSlot (h : d.Untouched) (c : Cursor) :
    d.Settles (d.Binds c.lineNumber c.rest) (d.bindSlot c) := by
  unfold bindSlot
  split
  · rename_i finding hindex
    refine .inr ⟨fun other hother => ?_, finding, d.bound, rfl⟩
    obtain ⟨index, counted, hread, -⟩ := (binds_iff h).mp hother
    rw [hindex] at hread
    cases hread
  · rename_i index counted hindex
    dsimp only
    cases hbinding : { d with bound := index :: d.bound }.readSlotBinding index counted with
    | ok d' => exact .inl ((binds_iff h).mpr ⟨index, counted, hindex, hbinding⟩)
    | error finding =>
        refine .inr ⟨fun other hother => ?_, finding, index :: d.bound, rfl⟩
        obtain ⟨index', counted', hindex', hother⟩ := (binds_iff h).mp hother
        cases hindex.symm.trans hindex'
        rw [hbinding] at hother
        cases hother

/-- The declarations as they are before or after a line of some data segment. -/
def InDataSegment (d : Declarations) : Prop :=
  ∃ lines : List SourceLine, d = (lines.foldl DataSegment.readLine {}).declarations ∨
    ∃ number, d = ((lines.foldl DataSegment.readLine {}).demandLength number).declarations

theorem InDataSegment.untouched (h : d.InDataSegment) : d.Untouched := by
  have hempty : Untouched {} := fun _ hplace => absurd hplace (Nat.not_lt_zero _)
  obtain ⟨lines, rfl | ⟨number, rfl⟩⟩ := h
  · exact (DataSegment.changes_foldl DataSegment.sound_start lines).keeps hempty .change
  · exact ((DataSegment.changes_foldl DataSegment.sound_start lines).trans
      (DataSegment.changes_demandLength _ number)).keeps hempty .change

/-- A line is done as a whole or refused as a whole, whatever the lines before it declare. -/
theorem data_line_settles (h : d.InDataSegment) (c : Cursor) :
    d.Settles (d.LaysOut c.rest) (d.orReject (d.readTapeLength c)) ∧
      d.Settles (d.Binds c.lineNumber c.rest) (d.bindSlot c) ∧
      ∀ kind, d.Settles (d.Adds kind c.lineNumber c.rest) (d.orReject (d.readObject kind c)) :=
  ⟨settles_orReject readTapeLength_eq_ok_iff, settles_bindSlot h.untouched c,
    fun _ => settles_orReject readObject_eq_ok_iff⟩

/-- A data segment whose second line is refused after its index, and whose third is done. -/
def halfRight : List SourceLine :=
  [⟨3, "tapelength 3".toList⟩, ⟨4, "0 a 1000".toList⟩, ⟨5, "1 a 7".toList⟩]

theorem data_line_settles_halfRight :
    let d := (halfRight.foldl DataSegment.readLine {}).declarations
    let c := Cursor.start 6 "2 a -7".toList
    d.tape = [{}, ⟨some "a", 7⟩, {}] ∧ d.bound = [1, 0] ∧ d.findings.length = 1 ∧
      d.InDataSegment ∧
      d.Settles (d.LaysOut c.rest) (d.orReject (d.readTapeLength c)) ∧
      d.Settles (d.Binds c.lineNumber c.rest) (d.bindSlot c) ∧
      ∀ kind, d.Settles (d.Adds kind c.lineNumber c.rest) (d.orReject (d.readObject kind c)) :=
  ⟨by decide +kernel, by decide +kernel, by decide +kernel, ⟨halfRight, .inl rfl⟩,
    data_line_settles ⟨halfRight, .inl rfl⟩ _⟩

end Declarations

end TapePuzzle
