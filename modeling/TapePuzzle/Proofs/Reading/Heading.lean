import TapePuzzle.Proofs.Reading.Declarations
import TapePuzzle.Proofs.Reading.Words
import TapePuzzle.Puzzle.Submission

/-!
# Reading a heading

The lines before the learner's text are written from a tape and a list of objects. Main statement:
what they declare is this tape and these objects, and nothing is wrong with them.
-/

namespace TapePuzzle

/-! ## Slots -/

namespace Declarations

variable {d : Declarations} {c : Cursor} {rest : List Char} {index : Nat} {value : Int}
  {name : String}

theorem readTapeLength_written (d : Declarations) {length : Nat}
    (h : c.rest = ' ' :: (writeInteger length ++ []))
    (hleast : 1 ≤ length) (hmost : length ≤ maxTapeLength) :
    d.readTapeLength c = .ok { d with tape := List.replicate length {} } := by
  have hskip := Cursor.rest_skipBlanks_word (isWord_writeInteger length) h
  obtain ⟨counted, hcounted, hrest, hmatched⟩ :=
    Cursor.eat?_integer (isInteger_writeInteger _) hskip rfl
  have hrange : 1 ≤ (length : Int) ∧ (length : Int) ≤ maxTapeLength := by omega
  simp [readTapeLength, hcounted, hmatched, readInteger_writeInteger, Cursor.sees_endOfLine,
    hrest, hrange]

theorem readDataValue_written {start : Nat} (h : c.matched = writeInteger value)
    (hvalue : inRange value = true) : readDataValue start c = .ok value := by
  simp [readDataValue, h, readInteger_writeInteger, hvalue]

theorem readSlotIndex_written (h : c.rest = writeInteger index ++ rest)
    (hend : Stops Char.isDigit rest) (hindex : index < d.tape.length) (hfree : index ∉ d.bound) :
    ∃ counted, d.readSlotIndex c = .ok (index, counted) ∧ counted.rest = rest := by
  obtain ⟨counted, hcounted, hrest, hmatched⟩ :=
    Cursor.eat?_integer (isInteger_writeInteger _) h hend
  have hrange : 0 ≤ (index : Int) ∧ (index : Int) < d.tape.length := by omega
  refine ⟨counted, ?_, hrest⟩
  simp [readSlotIndex, hcounted, hmatched, readInteger_writeInteger, hrange, hfree]

theorem readSlotName_written (hname : isIdentifier name = true)
    (h : c.rest = ' ' :: (name.toList ++ rest)) (hend : Stops isNameChar rest) :
    ∃ ident past, readSlotName c = (some ident, past) ∧ ident.name = name ∧ past.rest = rest := by
  have hskip := Cursor.rest_skipBlanks_word (isWord_of_isIdentifier hname) h
  obtain ⟨past, hpast, hrest, hword⟩ := Cursor.eat?_identifier hname hskip hend
  refine ⟨⟨past.word, past.spanFrom c.skipBlanks.offset⟩, past, ?_, hword, hrest⟩
  simp only [readSlotName, hpast]

/-- A number is not taken for a name. -/
theorem readSlotName_of_integer (h : c.rest = ' ' :: (writeInteger value ++ rest)) :
    readSlotName c = (none, c.skipBlanks) := by
  have hskip := Cursor.rest_skipBlanks_word (isWord_writeInteger value) h
  simp only [readSlotName, Cursor.eat?_identifier_of_integer hskip]

theorem readSlotValue_written (h : c.skipBlanks.rest = writeInteger value ++ rest)
    (hend : Stops Char.isDigit rest) (hvalue : inRange value = true) :
    ∃ past, readSlotValue c = .ok (some value, past) ∧ past.rest = rest := by
  obtain ⟨past, hpast, hrest, hmatched⟩ := Cursor.eat?_integer (isInteger_writeInteger _) h hend
  refine ⟨past, ?_, hrest⟩
  simp only [readSlotValue, hpast, readDataValue_written hmatched hvalue]
  rfl

/-- A name that a line of the data segment may declare. -/
structure Free (d : Declarations) (name : String) : Prop where
  identifier : isIdentifier name = true
  reserved : isReserved name = false
  fresh : name ∉ d.declared.map Prod.fst

/-- The declarations with a line about slot `index`. -/
def setSlot (d : Declarations) (index : Nat) (ident? : Option Ident) (value : Int) : Declarations :=
  let d := { d with bound := index :: d.bound }
  match ident? with
  | none => d.fillSlot index value
  | some ident => (d.nameSlot index ident).fillSlot index value

/-- The declarations with a line about slot `index`, unless its name cannot be declared. -/
def declareSlot (d : Declarations) (index : Nat) (ident? : Option Ident) (value : Int) :
    Declarations :=
  let d := { d with bound := index :: d.bound }
  match ident? with
  | none => d.fillSlot index value
  | some ident =>
      d.orReject do
        d.checkName ident
        .ok ((d.nameSlot index ident).fillSlot index value)

theorem declareSlot_of_free {ident? : Option Ident} (h : ∀ ident ∈ ident?, d.Free ident.name)
    (index : Nat) (value : Int) :
    d.declareSlot index ident? value = d.setSlot index ident? value := by
  cases ident? with
  | none => rfl
  | some ident =>
      have hfree := h ident rfl
      have hcheck : { d with bound := index :: d.bound }.checkName ident = .ok () :=
        checkName_eq_ok_iff.mpr ⟨hfree.reserved, hfree.fresh⟩
      simp only [declareSlot, hcheck]
      rfl

theorem readSlotBinding_named
    (h : c.rest = ' ' :: (name.toList ++ ' ' :: (writeInteger value ++ [])))
    (hname : isIdentifier name = true) (hvalue : inRange value = true) :
    ∃ ident : Ident, ident.name = name ∧
      d.readSlotBinding index c = (do
        d.checkName ident
        .ok ((d.nameSlot index ident).fillSlot index value)) := by
  obtain ⟨ident, named, hnamed, rfl, hrest⟩ := readSlotName_written hname h rfl
  have hskip := Cursor.rest_skipBlanks_word (isWord_writeInteger value) hrest
  obtain ⟨past, hpast, hpastRest⟩ := readSlotValue_written hskip rfl hvalue
  refine ⟨ident, rfl, ?_⟩
  cases hcheck : d.checkName ident <;>
    simp [readSlotBinding, hnamed, hpast, hcheck, Cursor.sees_endOfLine, hpastRest, bind,
      Except.bind]

theorem readSlotBinding_unnamed (h : c.rest = ' ' :: (writeInteger value ++ []))
    (hvalue : inRange value = true) :
    d.readSlotBinding index c = .ok (d.fillSlot index value) := by
  have hname := readSlotName_of_integer h
  have hskip := Cursor.rest_skipBlanks_word (isWord_writeInteger value) h
  have hagain : c.skipBlanks.skipBlanks.rest = writeInteger value ++ [] := by
    rw [Cursor.rest_skipBlanks, hskip, (isWord_writeInteger value).afterBlanks_append]
  obtain ⟨past, hpast, hpastRest⟩ := readSlotValue_written hagain rfl hvalue
  simp [readSlotBinding, hname, hpast, Cursor.sees_endOfLine, hpastRest, bind, Except.bind]

/-- A line that starts with the index of a slot is about this slot. -/
theorem readDeclaration_of_index (h : c.rest = writeInteger index ++ rest)
    (hend : Stops Char.isDigit rest) (hindex : index < d.tape.length) (hfree : index ∉ d.bound) :
    ∃ counted : Cursor, counted.rest = rest ∧
      d.readDeclaration c =
        let d := { d with bound := index :: d.bound }
        d.orReject (d.readSlotBinding index counted) := by
  obtain ⟨counted, hcounted, hrest⟩ := readSlotIndex_written h hend hindex hfree
  have hsees : c.sees .integer = true := by
    rw [Cursor.sees, Pattern.split?, h, splitInteger?_append (isInteger_writeInteger index) hend]
    rfl
  refine ⟨counted, hrest, ?_⟩
  simp only [readDeclaration, hsees, if_true, bindSlot, hcounted]

theorem readDeclaration_slotLine {slot : Slot} {line : List Char}
    (hline : slotLine? slot index = some line) (h : c.rest = line)
    (hindex : index < d.tape.length) (hfree : index ∉ d.bound)
    (hname : ∀ name ∈ slot.name, isIdentifier name = true) (hvalue : inRange slot.value = true) :
    ∃ ident? : Option Ident, ident?.map Ident.name = slot.name ∧
      d.readDeclaration c = d.declareSlot index ident? slot.value := by
  obtain ⟨name?, value⟩ := slot
  cases name? with
  | some name =>
      have hrest : c.rest =
          writeInteger index ++ ' ' :: (name.toList ++ ' ' :: (writeInteger value ++ [])) := by
        simp [h, ← Option.some.inj hline]
      obtain ⟨counted, hcounted, heq⟩ := readDeclaration_of_index hrest rfl hindex hfree
      obtain ⟨ident, rfl, hread⟩ := readSlotBinding_named hcounted (hname name rfl) hvalue
      refine ⟨some ident, rfl, ?_⟩
      rw [heq]
      dsimp only
      rw [hread]
      rfl
  | none =>
      have hrest : c.rest = writeInteger index ++ ' ' :: (writeInteger value ++ []) := by
        simp only [slotLine?] at hline
        split at hline
        · cases hline
        · simp [h, ← Option.some.inj hline]
      obtain ⟨counted, hcounted, heq⟩ := readDeclaration_of_index hrest rfl hindex hfree
      refine ⟨none, rfl, ?_⟩
      rw [heq]
      dsimp only
      rw [readSlotBinding_unnamed hcounted hvalue]
      rfl

/-! ### Objects -/

theorem length_le_integers (values : List Int) :
    values.length ≤ (values.flatMap fun value => [' '] ++ writeInteger value).length := by
  induction values with
  | nil => exact Nat.le_refl 0
  | cons value values ih =>
      simp only [List.length_cons, List.flatMap_cons, List.length_append]
      omega

theorem stops_integers {p : Char → Bool} (hspace : p ' ' = false) (values : List Int) :
    Stops p (values.flatMap fun value => [' '] ++ writeInteger value) := by
  cases values with
  | nil => rfl
  | cons value values => exact hspace

theorem readValues_written {values : List Int} {fuel : Nat}
    (h : c.rest = values.flatMap fun value => [' '] ++ writeInteger value)
    (hvalues : ∀ value ∈ values, inRange value = true) (hfuel : values.length < fuel) :
    readValues fuel c = .ok values := by
  induction fuel generalizing c values with
  | zero => cases hfuel
  | succ fuel ih =>
      cases values with
      | nil =>
          have hend : c.skipBlanks.sees .endOfLine = true := by
            rw [Cursor.sees_endOfLine, Cursor.rest_skipBlanks, h]
            rfl
          simp only [readValues, hend, if_true]
      | cons value values =>
          obtain ⟨hvalue, hvalues⟩ := List.forall_mem_cons.mp hvalues
          have hword := isWord_writeInteger value
          have hskip := Cursor.rest_skipBlanks_word hword h
          obtain ⟨counted, hcounted, hrest, hmatched⟩ :=
            Cursor.eat?_integer (isInteger_writeInteger _) hskip (stops_integers rfl values)
          have hmore := ih hrest hvalues (Nat.lt_of_succ_lt_succ hfuel)
          simp only [readValues, Cursor.sees_endOfLine_of_word hword hskip, hcounted,
            readDataValue_written hmatched hvalue, hmore]
          rfl

theorem eatFirst?_keyword {kind : ObjectKind} (h : c.rest = kind.keyword.toList ++ ' ' :: rest) :
    ∃ past, c.eatFirst? (fun kind : ObjectKind => .word kind.keyword) ObjectKind.all =
      some (kind, past) ∧ past.rest = ' ' :: rest := by
  obtain ⟨past, hpast, hrest⟩ := Cursor.eat?_word h rfl
  refine ⟨past, ?_, hrest⟩
  cases kind with
  | stack => simp [ObjectKind.all, Cursor.eatFirst?, hpast]
  | queue =>
      have hstack : c.eat? (.word ObjectKind.stack.keyword) = none :=
        Cursor.eat?_word_of_ne rfl (by rw [h]; rfl) (by decide)
      simp [ObjectKind.all, Cursor.eatFirst?, hstack, hpast]
  | feed =>
      have hstack : c.eat? (.word ObjectKind.stack.keyword) = none :=
        Cursor.eat?_word_of_ne rfl (by rw [h]; rfl) (by decide)
      have hqueue : c.eat? (.word ObjectKind.queue.keyword) = none :=
        Cursor.eat?_word_of_ne rfl (by rw [h]; rfl) (by decide)
      simp [ObjectKind.all, Cursor.eatFirst?, hstack, hqueue, hpast]

/-- The declarations with an object, if its name can be declared. -/
def declareObject (d : Declarations) (ident : Ident) (kind : ObjectKind) (values : List Int) :
    Declarations :=
  d.orReject do
    d.checkName ident
    .ok (d.addObject ident kind values)

theorem declareObject_of_free {ident : Ident} (h : d.Free ident.name) (kind : ObjectKind)
    (values : List Int) : d.declareObject ident kind values = d.addObject ident kind values := by
  rw [declareObject, checkName_eq_ok_iff.mpr ⟨h.reserved, h.fresh⟩]
  rfl

theorem readDeclaration_objectLine {object : ObjectDecl} (h : c.rest = objectLine object)
    (hname : isIdentifier object.name = true) (hlength : object.values.length ≤ maxObjectLength)
    (hvalues : ∀ value ∈ object.values, inRange value = true) :
    ∃ ident : Ident, ident.name = object.name ∧
      d.readDeclaration c = d.declareObject ident object.kind object.values := by
  have hrest : c.rest = object.kind.keyword.toList ++ ' ' :: (object.name.toList ++
      object.values.flatMap fun value => [' '] ++ writeInteger value) := by
    simp [h, objectLine]
  obtain ⟨past, hpast, hpastRest⟩ := eatFirst?_keyword hrest
  obtain ⟨start, hstart, hstartRest⟩ := Cursor.eat?_space hpastRest
    ((isWord_of_isIdentifier hname).afterBlanks_append _)
  obtain ⟨named, hnamed, hnamedRest, hword⟩ :=
    Cursor.eat?_identifier hname hstartRest (stops_integers rfl _)
  have hread : readValues (named.rest.length + 1) named = .ok object.values := by
    refine readValues_written hnamedRest hvalues ?_
    rw [hnamedRest]
    exact Nat.lt_succ_of_le (length_le_integers object.values)
  have hobject : d.orReject (d.readObject object.kind past) =
      d.declareObject ⟨named.word, named.spanFrom start.offset⟩ object.kind object.values := by
    simp [readObject, hstart, hnamed, hread, Nat.not_lt.mpr hlength, bind, Except.bind,
      declareObject]
  have hsees : c.sees .integer = false := by
    cases hkind : object.kind <;>
      exact Cursor.sees_integer_of_not_digit (by rw [hrest, hkind]; rfl) (by decide) (by decide)
  refine ⟨⟨named.word, named.spanFrom start.offset⟩, hword, ?_⟩
  simp [readDeclaration, hsees, hpast, hobject]

end Declarations

/-! ## The data segment -/

namespace DataSegment

variable {s : DataSegment} {line : SourceLine} {lines : List SourceLine}

theorem isPlain_tapeLength (length : Nat) :
    IsPlain ("tapelength ".toList ++ writeInteger length) := by
  have hword : IsWord "tapelength".toList := isWord_of_all (by decide) (by decide)
  exact hword.isPlain.append_word (isWord_writeInteger length)

theorem readLine_tapeLength {length : Nat} (hsaw : s.sawLength = false)
    (htext : line.text = "tapelength ".toList ++ writeInteger length)
    (hleast : 1 ≤ length) (hmost : length ≤ maxTapeLength) :
    s.readLine line =
      { s with
        declarations := { s.declarations with tape := List.replicate length {} }
        sawLength := true } := by
  have hbare : IsBare line.text := htext ▸ (isPlain_tapeLength length).isBare
  have hrest : (Cursor.start line.number line.text).rest =
      "tapelength".toList ++ ' ' :: (writeInteger length ++ []) := by
    rw [List.append_nil]
    exact htext
  obtain ⟨past, hpast, hpastRest⟩ := Cursor.eat?_word hrest rfl
  have hread := s.declarations.readTapeLength_written hpastRest hleast hmost
  simp [readLine, hbare.saysNothing_eq, hbare.codePart_eq, hbare.skipBlanks_start, hpast,
    hsaw, hread, Declarations.orReject]

theorem readLine_declaration (hsaw : s.sawLength = true) (hbare : IsBare line.text)
    (hword : (Cursor.start line.number line.text).eat? (.word "tapelength") = none) :
    s.readLine line =
      { s with
        declarations :=
          s.declarations.readDeclaration (Cursor.start line.number line.text) } := by
  simp [readLine, hbare.saysNothing_eq, hbare.codePart_eq, hbare.skipBlanks_start, hword,
    demandLength, hsaw]

/-- What is declared so far is exactly the given tape and objects, under the given names. -/
structure Holds (s : DataSegment) (tape : List Slot) (objects : List Container)
    (taken : List String) : Prop where
  sawLength : s.sawLength = true
  tape : s.declarations.tape = tape
  objects : s.declarations.objects = objects
  declared : s.declarations.declared.map Prod.fst = taken.reverse
  findings : s.declarations.findings = []

end DataSegment

theorem isPlain_slotLine {slot : Slot} {index : Nat} {line : List Char}
    (h : slotLine? slot index = some line) (hname : ∀ name ∈ slot.name, isIdentifier name = true) :
    IsPlain line := by
  have hplace := (isWord_writeInteger index).isPlain
  obtain ⟨name?, value⟩ := slot
  cases name? with
  | some name =>
      obtain rfl := Option.some.inj h
      exact (hplace.append_word (isWord_of_isIdentifier (hname name rfl))).append_word
        (isWord_writeInteger value)
  | none =>
      simp only [slotLine?] at h
      split at h
      · cases h
      · obtain rfl := Option.some.inj h
        exact hplace.append_word (isWord_writeInteger value)

theorem slot_of_slotLine?_eq_none {slot : Slot} {index : Nat} (h : slotLine? slot index = none) :
    slot = {} := by
  obtain ⟨name?, value⟩ := slot
  cases name? with
  | some name => cases h
  | none =>
      simp only [slotLine?] at h
      split at h
      · rename_i hzero
        rw [hzero]
      · cases h

theorem isPlain_objectLine {object : ObjectDecl} (hname : isIdentifier object.name = true) :
    IsPlain (objectLine object) :=
  ((isWord_keyword object.kind).isPlain.append_word (isWord_of_isIdentifier hname)).append_integers
    object.values

namespace Declarations

variable {d : Declarations} {index : Nat} {ident? : Option Ident} {value : Int}

theorem modify_append_cons (done : List Slot) (slot : Slot) (ahead : List Slot)
    (change : Slot → Slot) :
    (done ++ slot :: ahead).modify done.length change = done ++ change slot :: ahead := by
  rw [List.modify_eq_take_cons_drop (by simp)]
  simp

theorem tape_setSlot {done ahead : List Slot} (h : d.tape = done ++ {} :: ahead) :
    (d.setSlot done.length ident? value).tape =
      done ++ ⟨ident?.map Ident.name, value⟩ :: ahead := by
  cases ident? <;> simp [setSlot, nameSlot, fillSlot, h, modify_append_cons]

theorem declared_setSlot :
    (d.setSlot index ident? value).declared.map Prod.fst =
      (ident?.map Ident.name).toList ++ d.declared.map Prod.fst := by
  cases ident? <;> rfl

theorem bound_setSlot : (d.setSlot index ident? value).bound = index :: d.bound := by
  cases ident? <;> rfl

theorem objects_setSlot : (d.setSlot index ident? value).objects = d.objects := by
  cases ident? <;> rfl

theorem findings_setSlot : (d.setSlot index ident? value).findings = d.findings := by
  cases ident? <;> rfl

end Declarations

theorem head?_slotLine {slot : Slot} {index : Nat} {line : List Char}
    (h : slotLine? slot index = some line) : line.head? = (writeInteger index).head? := by
  obtain ⟨first, rest, heq, -⟩ := writeInteger_eq_cons index
  unfold slotLine? at h
  rw [heq] at h ⊢
  dsimp only at h
  split at h
  · obtain rfl := Option.some.inj h
    rfl
  · split at h
    · cases h
    · obtain rfl := Option.some.inj h
      rfl

theorem head?_objectLine (object : ObjectDecl) :
    (objectLine object).head? = object.kind.keyword.toList.head? := by
  obtain ⟨first, rest, heq, -⟩ := (isWord_keyword object.kind).exists_cons
  rw [objectLine, heq]
  rfl

/-- The object that a declaration declares. -/
def ObjectDecl.container (object : ObjectDecl) : Container :=
  ⟨object.name, object.kind, object.values⟩

namespace DataSegment

variable {s : DataSegment} {line : SourceLine} {lines : List SourceLine} {tape : List Slot}
  {objects : List Container} {taken : List String}

/-- A line about a slot declares what its rest says, whatever the name in it is. -/
theorem readLine_of_slotLine {slot : Slot} {index : Nat} (hsaw : s.sawLength = true)
    (hline : slotLine? slot index = some line.text) (hbare : IsBare line.text) :
    s.readLine line =
      { s with
        declarations :=
          s.declarations.readDeclaration (Cursor.start line.number line.text) } := by
  obtain ⟨first, rest, heq, hfirst⟩ := writeInteger_eq_cons index
  have hhead : (Cursor.start line.number line.text).rest.head? = some first := by
    rw [Cursor.start, head?_slotLine hline, heq]
    rfl
  refine readLine_declaration hsaw hbare (Cursor.eat?_word_of_ne rfl hhead ?_)
  rintro rfl
  cases hfirst

theorem readLine_slotLine {slot : Slot} {index : Nat} (hsaw : s.sawLength = true)
    (hline : slotLine? slot index = some line.text) (hindex : index < s.declarations.tape.length)
    (hfree : index ∉ s.declarations.bound)
    (hname : ∀ name ∈ slot.name, isIdentifier name = true) (hvalue : inRange slot.value = true) :
    ∃ ident? : Option Ident, ident?.map Ident.name = slot.name ∧
      s.readLine line =
        { s with declarations := s.declarations.declareSlot index ident? slot.value } := by
  have hplain : IsPlain line.text := isPlain_slotLine hline hname
  obtain ⟨ident?, hident, hread⟩ := Declarations.readDeclaration_slotLine
    (c := Cursor.start line.number line.text) hline rfl hindex hfree hname hvalue
  exact ⟨ident?, hident, by rw [readLine_of_slotLine hsaw hline hplain.isBare, hread]⟩

theorem readLine_objectLine {object : ObjectDecl} (hsaw : s.sawLength = true)
    (hline : line.text = objectLine object) (hname : isIdentifier object.name = true)
    (hlength : object.values.length ≤ maxObjectLength)
    (hvalues : ∀ value ∈ object.values, inRange value = true) :
    ∃ ident : Ident, ident.name = object.name ∧
      s.readLine line =
        { s with
          declarations := s.declarations.declareObject ident object.kind object.values } := by
  have hbare : IsBare line.text := hline ▸ (isPlain_objectLine hname).isBare
  have hword : (Cursor.start line.number line.text).eat? (.word "tapelength") = none := by
    have hhead : (Cursor.start line.number line.text).rest.head? =
        object.kind.keyword.toList.head? := by
      rw [Cursor.start, hline, head?_objectLine]
    cases hkind : object.kind <;> rw [hkind] at hhead <;>
      exact Cursor.eat?_word_of_ne rfl hhead (by decide)
  obtain ⟨ident, hident, hread⟩ := Declarations.readDeclaration_objectLine
    (c := Cursor.start line.number line.text) hline hname hlength hvalues
  exact ⟨ident, hident, by rw [readLine_declaration hsaw hbare hword, hread]⟩

/-- What is kept for every slot of a tape, with its line or without one, is kept by the lines about
    slots. The property may speak of the slots that are done and of how many are left. -/
theorem slotLines_keep (inv : List Slot → Nat → DataSegment → Prop) {tape done ahead : List Slot}
    (htape : done ++ ahead = tape)
    (hlines : lines.map SourceLine.text =
      (ahead.zipIdx done.length).filterMap fun (slot, index) => slotLine? slot index)
    (hskip : ∀ {done : List Slot} {slot : Slot} {left : Nat} {s : DataSegment},
      done ++ [slot] <+: tape → slotLine? slot done.length = none →
        inv done (left + 1) s → inv (done ++ [slot]) left s)
    (hread : ∀ {done : List Slot} {slot : Slot} {left : Nat} {line : SourceLine} {s : DataSegment},
      done ++ [slot] <+: tape → slotLine? slot done.length = some line.text →
        inv done (left + 1) s → inv (done ++ [slot]) left (s.readLine line))
    (h : inv done ahead.length s) : inv tape 0 (lines.foldl readLine s) := by
  induction ahead generalizing done s lines with
  | nil =>
      obtain rfl : lines = [] := List.map_eq_nil_iff.mp hlines
      rw [List.append_nil] at htape
      exact htape ▸ h
  | cons slot ahead ih =>
      have hassoc : (done ++ [slot]) ++ ahead = tape := by simpa using htape
      have hfront : done ++ [slot] <+: tape := ⟨ahead, hassoc⟩
      have hlength : (done ++ [slot]).length = done.length + 1 := by simp
      rw [List.zipIdx_cons, List.filterMap_cons, ← hlength] at hlines
      dsimp only at hlines
      split at hlines
      · rename_i hnone
        exact ih hassoc hlines (hskip hfront hnone h)
      · rename_i text hsome
        obtain ⟨line, rest, rfl, rfl, hrest⟩ := List.map_eq_cons_iff.mp hlines
        rw [List.foldl_cons]
        exact ih hassoc hrest (hread hfront hsome h)

/-- What is kept for every object is kept by the lines about objects. -/
theorem objectLines_keep (inv : List ObjectDecl → DataSegment → Prop)
    {objects done ahead : List ObjectDecl} (hobjects : done ++ ahead = objects)
    (hlines : lines.map SourceLine.text = ahead.map objectLine)
    (hread : ∀ {done : List ObjectDecl} {object : ObjectDecl} {line : SourceLine}
      {s : DataSegment}, done ++ [object] <+: objects → line.text = objectLine object →
        inv done s → inv (done ++ [object]) (s.readLine line))
    (h : inv done s) : inv objects (lines.foldl readLine s) := by
  induction ahead generalizing done s lines with
  | nil =>
      obtain rfl : lines = [] := List.map_eq_nil_iff.mp hlines
      rw [List.append_nil] at hobjects
      exact hobjects ▸ h
  | cons object ahead ih =>
      have hassoc : (done ++ [object]) ++ ahead = objects := by simpa using hobjects
      obtain ⟨line, rest, rfl, hline, hrest⟩ := List.map_eq_cons_iff.mp hlines
      rw [List.foldl_cons]
      exact ih hassoc hrest (hread ⟨ahead, hassoc⟩ hline h)

/-- The first slots of a tape are declared, and no line was about the others, of which there are
    `left`. -/
structure HoldsSlots (s : DataSegment) (done : List Slot) (left : Nat) : Prop where
  holds : s.Holds (done ++ List.replicate left ({} : Slot)) [] (done.filterMap Slot.name)
  bound : ∀ index ∈ s.declarations.bound, index < done.length

/-- A slot without a line keeps what it has: no name, and zero. -/
theorem HoldsSlots.skip {done : List Slot} {left : Nat} (h : s.HoldsSlots done (left + 1)) :
    s.HoldsSlots (done ++ [({} : Slot)]) left := by
  refine ⟨?_, ?_⟩
  · simpa [List.replicate_succ] using h.holds
  · intro index hindex
    rw [List.length_append]
    exact Nat.lt_succ_of_lt (h.bound index hindex)

/-- A slot with a line gets its name and its value. -/
theorem HoldsSlots.setSlot {done : List Slot} {slot : Slot} {left : Nat}
    (h : s.HoldsSlots done (left + 1)) (hline : slotLine? slot done.length = some line.text)
    (hname : ∀ name ∈ slot.name, isIdentifier name = true ∧ isReserved name = false)
    (hnodup : ((done ++ [slot]).filterMap Slot.name).Nodup) (hvalue : inRange slot.value = true) :
    (s.readLine line).HoldsSlots (done ++ [slot]) left := by
  have htape : s.declarations.tape = done ++ {} :: List.replicate left ({} : Slot) := by
    rw [h.holds.tape, List.replicate_succ]
  have hfree : ∀ name ∈ slot.name, s.declarations.Free name := by
    intro name hmem
    refine ⟨(hname name hmem).1, (hname name hmem).2, ?_⟩
    rw [h.holds.declared, List.mem_reverse]
    intro htaken
    have hslot : name ∈ [slot].filterMap Slot.name := by simpa using hmem
    rw [List.filterMap_append] at hnodup
    exact (List.nodup_append.mp hnodup).2.2 name htaken name hslot rfl
  obtain ⟨ident?, hident, hread⟩ := readLine_slotLine h.holds.sawLength hline (by simp [htape])
    (fun hmem => Nat.lt_irrefl _ (h.bound _ hmem)) (fun name hmem => (hname name hmem).1) hvalue
  have hidents : ∀ ident ∈ ident?, s.declarations.Free ident.name := by
    intro ident hmem
    exact hfree ident.name (hident ▸ Option.mem_map_of_mem Ident.name hmem)
  rw [hread, Declarations.declareSlot_of_free hidents]
  refine ⟨⟨h.holds.sawLength, ?_, ?_, ?_, ?_⟩, ?_⟩
  · rw [Declarations.tape_setSlot htape, hident]
    simp
  · rw [Declarations.objects_setSlot, h.holds.objects]
  · rw [Declarations.declared_setSlot, hident, h.holds.declared]
    cases hslot : slot.name <;> simp [hslot]
  · rw [Declarations.findings_setSlot, h.holds.findings]
  · intro index hindex
    rw [Declarations.bound_setSlot] at hindex
    rw [List.length_append]
    rcases List.mem_cons.mp hindex with rfl | hindex
    · exact Nat.lt_succ_self _
    · exact Nat.lt_succ_of_lt (h.bound index hindex)

theorem HoldsSlots.slotLines {tape : List Slot} (h : s.HoldsSlots [] tape.length)
    (hlines : lines.map SourceLine.text =
      tape.zipIdx.filterMap fun (slot, index) => slotLine? slot index)
    (hnames : ∀ slot ∈ tape, ∀ name ∈ slot.name,
      isIdentifier name = true ∧ isReserved name = false)
    (hnodup : (tape.filterMap Slot.name).Nodup)
    (hvalues : ∀ slot ∈ tape, inRange slot.value = true) :
    (lines.foldl readLine s).Holds tape [] (tape.filterMap Slot.name) := by
  have hall := slotLines_keep (fun done left s => s.HoldsSlots done left) (List.nil_append tape)
    hlines ?_ ?_ h
  · simpa using hall.holds
  · intro done slot left s hfront hnone hs
    obtain rfl := slot_of_slotLine?_eq_none hnone
    exact hs.skip
  · intro done slot left line s hfront hline hs
    have hslot : slot ∈ tape := hfront.subset (by simp)
    exact hs.setSlot hline (hnames slot hslot)
      (hnodup.sublist (hfront.sublist.filterMap Slot.name)) (hvalues slot hslot)

theorem Holds.addObject {object : ObjectDecl} (h : s.Holds tape objects taken)
    (hline : line.text = objectLine object)
    (hname : isIdentifier object.name = true ∧ isReserved object.name = false)
    (hfresh : object.name ∉ taken) (hlength : object.values.length ≤ maxObjectLength)
    (hvalues : ∀ value ∈ object.values, inRange value = true) :
    (s.readLine line).Holds tape (objects ++ [object.container]) (taken ++ [object.name]) := by
  have hfree : s.declarations.Free object.name := by
    refine ⟨hname.1, hname.2, ?_⟩
    rw [h.declared, List.mem_reverse]
    exact hfresh
  obtain ⟨ident, hident, hread⟩ := readLine_objectLine h.sawLength hline hname.1 hlength hvalues
  rw [hread, Declarations.declareObject_of_free (hident ▸ hfree)]
  refine ⟨h.sawLength, h.tape, ?_, ?_, h.findings⟩
  · simp [Declarations.addObject, h.objects, ObjectDecl.container, hident]
  · simp [Declarations.addObject, Declarations.take, h.declared, hident]

theorem Holds.objectLines {decls : List ObjectDecl} (h : s.Holds tape [] taken)
    (hlines : lines.map SourceLine.text = decls.map objectLine)
    (hnames : ∀ object ∈ decls, isIdentifier object.name = true ∧ isReserved object.name = false)
    (hnodup : (taken ++ decls.map ObjectDecl.name).Nodup)
    (hlengths : ∀ object ∈ decls, object.values.length ≤ maxObjectLength)
    (hvalues : ∀ object ∈ decls, ∀ value ∈ object.values, inRange value = true) :
    (lines.foldl readLine s).Holds tape (decls.map ObjectDecl.container)
      (taken ++ decls.map ObjectDecl.name) := by
  apply objectLines_keep (fun done s => s.Holds tape (done.map ObjectDecl.container)
    (taken ++ done.map ObjectDecl.name)) (List.nil_append decls) hlines
  · intro done object line s hfront hline hs
    have hobject : object ∈ decls := hfront.subset (by simp)
    have hfresh : object.name ∉ taken ++ done.map ObjectDecl.name := by
      have hearlier : taken ++ (done ++ [object]).map ObjectDecl.name <+:
          taken ++ decls.map ObjectDecl.name :=
        (List.prefix_append_right_inj taken).mpr (hfront.map ObjectDecl.name)
      have hapart := hnodup.sublist hearlier.sublist
      rw [List.map_append, ← List.append_assoc] at hapart
      intro htaken
      exact (List.nodup_append.mp hapart).2.2 _ htaken _ (by simp) rfl
    rw [List.map_append, List.map_append, ← List.append_assoc]
    exact hs.addObject hline (hnames object hobject) hfresh (hlengths object hobject)
      (hvalues object hobject)
  · simpa using h

end DataSegment

/-! ## Headings -/

/-- The names that slots and objects are declared under. -/
def declaredNames (tape : List Slot) (objects : List ObjectDecl) : List String :=
  tape.filterMap Slot.name ++ objects.map ObjectDecl.name

/-- A tape and objects that a data segment can declare. -/
structure Writable (tape : List Slot) (objects : List ObjectDecl) : Prop where
  least : 1 ≤ tape.length
  most : tape.length ≤ maxTapeLength
  names : ∀ name ∈ declaredNames tape objects, isIdentifier name = true ∧ isReserved name = false
  nodup : (declaredNames tape objects).Nodup
  slotValues : ∀ slot ∈ tape, inRange slot.value = true
  objectLengths : ∀ object ∈ objects, object.values.length ≤ maxObjectLength
  objectValues : ∀ object ∈ objects, ∀ value ∈ object.values, inRange value = true

/-- The lines of a heading between its markers. -/
def dataLines (tape : List Slot) (objects : List ObjectDecl) : List (List Char) :=
  ["tapelength ".toList ++ writeInteger tape.length] ++
    tape.zipIdx.filterMap (fun (slot, index) => slotLine? slot index) ++ objects.map objectLine

theorem headingLines_eq (tape : List Slot) (objects : List ObjectDecl) :
    headingLines tape objects =
      headerLine.toList :: dataMarker.toList ::
        (dataLines tape objects ++ [textMarker.toList]) := by
  simp [headingLines, dataLines]

namespace DataSegment

variable {lines : List SourceLine}

/-- Where the lines of a heading have come to when the length of the tape is known. -/
def laidOut (length : Nat) : DataSegment where
  declarations := { tape := List.replicate length {} }
  sawLength := true

/-- The lines of a heading are read as those about slots and those about objects, once the length of
    the tape is known. -/
theorem exists_foldl_dataLines {tape : List Slot} {objects : List ObjectDecl}
    (hlines : lines.map SourceLine.text = dataLines tape objects) (hleast : 1 ≤ tape.length)
    (hmost : tape.length ≤ maxTapeLength) :
    ∃ slotLines objectLines : List SourceLine,
      slotLines.map SourceLine.text =
        tape.zipIdx.filterMap (fun (slot, index) => slotLine? slot index) ∧
      objectLines.map SourceLine.text = objects.map objectLine ∧
      lines.foldl readLine {} =
        objectLines.foldl readLine (slotLines.foldl readLine (laidOut tape.length)) := by
  obtain ⟨front, objectLines, rfl, hfront, hobjects⟩ := List.map_eq_append_iff.mp hlines
  obtain ⟨first, slotLines, rfl, hfirst, hslots⟩ := List.map_eq_append_iff.mp hfront
  obtain ⟨line, rfl, hline⟩ := List.map_eq_singleton_iff.mp hfirst
  refine ⟨slotLines, objectLines, hslots, hobjects, ?_⟩
  rw [List.foldl_append, List.foldl_append, List.foldl_cons, List.foldl_nil,
    readLine_tapeLength rfl hline hleast hmost]
  rfl

theorem read_of_sawLength (h : (lines.foldl readLine {}).sawLength = true) (textLine : Nat) :
    DataSegment.read lines textLine = (lines.foldl readLine {}).declarations := by
  rw [DataSegment.read, demandLength, h]
  rfl

end DataSegment

/-- A tape and objects that a data segment can spell out, whether or not their names can be
    declared. -/
structure Spellable (tape : List Slot) (objects : List ObjectDecl) : Prop where
  least : 1 ≤ tape.length
  most : tape.length ≤ maxTapeLength
  identifiers : ∀ name ∈ declaredNames tape objects, isIdentifier name = true
  slotValues : ∀ slot ∈ tape, inRange slot.value = true
  objectLengths : ∀ object ∈ objects, object.values.length ≤ maxObjectLength
  objectValues : ∀ object ∈ objects, ∀ value ∈ object.values, inRange value = true

namespace Spellable

variable {tape : List Slot} {objects : List ObjectDecl} (h : Spellable tape objects)

include h

theorem slotNames : ∀ slot ∈ tape, ∀ name ∈ slot.name, isIdentifier name = true := by
  intro slot hslot name hname
  exact h.identifiers name (List.mem_append_left _ (List.mem_filterMap.mpr ⟨slot, hslot, hname⟩))

theorem objectNames : ∀ object ∈ objects, isIdentifier object.name = true := by
  intro object hobject
  exact h.identifiers _ (List.mem_append_right _ (List.mem_map_of_mem hobject))

theorem isPlain_dataLines : ∀ line ∈ dataLines tape objects, IsPlain line := by
  intro line hline
  simp only [dataLines, List.mem_append, List.mem_singleton, List.mem_filterMap, List.mem_map]
    at hline
  rcases hline with (rfl | ⟨⟨slot, index⟩, hmem, hline⟩) | ⟨object, hobject, rfl⟩
  · exact DataSegment.isPlain_tapeLength tape.length
  · exact isPlain_slotLine hline (h.slotNames slot (List.fst_mem_of_mem_zipIdx hmem))
  · exact isPlain_objectLine (h.objectNames object hobject)

end Spellable

namespace Writable

variable {tape : List Slot} {objects : List ObjectDecl} (h : Writable tape objects)

include h

theorem spellable : Spellable tape objects :=
  ⟨h.least, h.most, fun name hname => (h.names name hname).1, h.slotValues, h.objectLengths,
    h.objectValues⟩

theorem slotNames : ∀ slot ∈ tape, ∀ name ∈ slot.name,
    isIdentifier name = true ∧ isReserved name = false := by
  intro slot hslot name hname
  exact h.names name (List.mem_append_left _ (List.mem_filterMap.mpr ⟨slot, hslot, hname⟩))

theorem objectNames : ∀ object ∈ objects,
    isIdentifier object.name = true ∧ isReserved object.name = false := by
  intro object hobject
  exact h.names _ (List.mem_append_right _ (List.mem_map_of_mem hobject))

/-- Reading the lines of a heading declares what they were written from. -/
theorem read_dataLines {lines : List SourceLine} (hlines : lines.map SourceLine.text =
    dataLines tape objects) (textLine : Nat) :
    (DataSegment.read lines textLine).tape = tape ∧
      (DataSegment.read lines textLine).objects = objects.map ObjectDecl.container ∧
      (DataSegment.read lines textLine).findings = [] := by
  obtain ⟨slotLines, objectLines, hslots, hobjects, hread⟩ :=
    DataSegment.exists_foldl_dataLines hlines h.least h.most
  have hstart : (DataSegment.laidOut tape.length).HoldsSlots [] tape.length :=
    ⟨⟨rfl, rfl, rfl, rfl, rfl⟩, by simp [DataSegment.laidOut]⟩
  have hslotsHold := hstart.slotLines hslots h.slotNames (List.nodup_append.mp h.nodup).1
    h.slotValues
  have hholds := hslotsHold.objectLines hobjects h.objectNames h.nodup h.objectLengths
    h.objectValues
  rw [← hread] at hholds
  rw [DataSegment.read_of_sawLength hholds.sawLength]
  exact ⟨hholds.tape, hholds.objects, hholds.findings⟩

end Writable

end TapePuzzle
