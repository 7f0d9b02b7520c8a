import TapePuzzle.Proofs.Reading.Heading

/-!
# The roster of a heading

A heading has more lines or fewer, depending on the values that it spells out. `Roster` is what its
lines say about names. Main statement: the roster of a heading depends on the names of the slots and
on the kinds and names of the objects alone, even if some of these names cannot be declared.
-/

namespace TapePuzzle

/-- What declarations say about names: the table, the names that are taken, and how many lines were
    refused. -/
structure Roster where
  names : Names := {}
  taken : List String := []
  refused : Nat := 0
  deriving DecidableEq, Repr

namespace Roster

/-- The roster with one more name, unless this cannot be declared. -/
def declare (r : Roster) (name : String) (add : Names → Names) : Roster :=
  if isReserved name = false ∧ name ∉ r.taken then
    { r with names := add r.names, taken := name :: r.taken }
  else { r with refused := r.refused + 1 }

/-- The roster with slot `index`, which may have no name. -/
def declareSlot (r : Roster) (name? : Option String) (index : Nat) : Roster :=
  match name? with
  | none => r
  | some name => r.declare name (·.addSlot name index)

/-- The roster of a tape. -/
def ofTape (tape : List Slot) : Roster :=
  (tape.map Slot.name).zipIdx.foldl (fun r (name?, index) => r.declareSlot name? index) {}

theorem ofTape_concat (tape : List Slot) (slot : Slot) :
    ofTape (tape ++ [slot]) = (ofTape tape).declareSlot slot.name tape.length := by
  simp [ofTape, List.zipIdx_append]

def declareObject (r : Roster) (object : ObjectKind × String) : Roster :=
  r.declare object.2 (·.addObject object.2 object.1)

/-- The roster of a heading. -/
def ofHeading (tape : List Slot) (objects : List ObjectDecl) : Roster :=
  (objects.map fun object => (object.kind, object.name)).foldl declareObject (ofTape tape)

theorem ofHeading_concat (tape : List Slot) (objects : List ObjectDecl) (object : ObjectDecl) :
    ofHeading tape (objects ++ [object]) =
      (ofHeading tape objects).declareObject (object.kind, object.name) := by
  simp [ofHeading]

end Roster

/-! ## Declarations -/

namespace Declarations

variable {d d' : Declarations} {ident : Ident}

def roster (d : Declarations) : Roster :=
  ⟨d.names, d.declared.map Prod.fst, d.findings.length⟩

/-- A line that takes a name, or is refused for it. -/
theorem roster_orReject (add : Names → Names) (hnames : d'.names = add d.names)
    (hdeclared : d'.declared = (d.take ident).declared) (hfindings : d'.findings = d.findings) :
    (d.orReject do
      d.checkName ident
      .ok d').roster = d.roster.declare ident.name add := by
  have hiff : d.checkName ident = .ok () ↔
      isReserved ident.name = false ∧ ident.name ∉ d.roster.taken := checkName_eq_ok_iff
  cases hcheck : d.checkName ident with
  | ok _ =>
      rw [Roster.declare, if_pos (hiff.mp hcheck)]
      simp [bind, Except.bind, orReject, roster, hnames, hdeclared, hfindings, take]
  | error finding =>
      have hfree : ¬(isReserved ident.name = false ∧ ident.name ∉ d.roster.taken) := by
        intro hfree
        rw [hiff.mpr hfree] at hcheck
        cases hcheck
      rw [Roster.declare, if_neg hfree]
      simp [bind, Except.bind, orReject, reject, roster]

theorem roster_declareObject (kind : ObjectKind) (values : List Int) :
    (d.declareObject ident kind values).roster = d.roster.declareObject (kind, ident.name) :=
  roster_orReject (·.addObject ident.name kind) rfl rfl rfl

theorem roster_declareSlot (index : Nat) (ident? : Option Ident) (value : Int) :
    (d.declareSlot index ident? value).roster =
      d.roster.declareSlot (ident?.map Ident.name) index := by
  cases ident? with
  | none => rfl
  | some ident =>
      exact roster_orReject (d := { d with bound := index :: d.bound })
        (·.addSlot ident.name index) rfl rfl rfl

/-- Whether or not it is refused, a line about a slot keeps the length of the tape, and the slot is
    done with. -/
theorem length_and_bound_declareSlot (d : Declarations) (index : Nat) (ident? : Option Ident)
    (value : Int) :
    (d.declareSlot index ident? value).tape.length = d.tape.length ∧
      (d.declareSlot index ident? value).bound = index :: d.bound := by
  cases ident? with
  | none => simp [declareSlot, fillSlot]
  | some ident =>
      simp only [declareSlot]
      cases ({ d with bound := index :: d.bound } : Declarations).checkName ident with
      | ok _ => simp [bind, Except.bind, orReject, nameSlot, fillSlot, take]
      | error finding => simp [bind, Except.bind, orReject, reject]

theorem length_and_bound_declareObject (d : Declarations) (ident : Ident) (kind : ObjectKind)
    (values : List Int) :
    (d.declareObject ident kind values).tape.length = d.tape.length ∧
      (d.declareObject ident kind values).bound = d.bound := by
  simp only [declareObject]
  cases d.checkName ident with
  | ok _ => exact ⟨rfl, rfl⟩
  | error finding => exact ⟨rfl, rfl⟩

end Declarations

/-! ## The data segment -/

namespace DataSegment

variable {s : DataSegment} {line : SourceLine} {length next : Nat} {r : Roster}

/-- The lines so far give the roster. The tape has `length` slots, and no line was about those from
    `next` on. -/
structure Enrols (s : DataSegment) (length next : Nat) (r : Roster) : Prop where
  sawLength : s.sawLength = true
  tape : s.declarations.tape.length = length
  bound : ∀ index ∈ s.declarations.bound, index < next
  roster : s.declarations.roster = r

/-- A slot without a line has no name, and is not on the roster. -/
theorem Enrols.skip (h : s.Enrols length next r) : s.Enrols length (next + 1) r := by
  refine ⟨h.sawLength, h.tape, ?_, h.roster⟩
  intro index hindex
  exact Nat.lt_succ_of_lt (h.bound index hindex)

theorem Enrols.declareSlot (h : s.Enrols length next r) (hnext : next < length) {slot : Slot}
    (hline : slotLine? slot next = some line.text)
    (hname : ∀ name ∈ slot.name, isIdentifier name = true) (hvalue : inRange slot.value = true) :
    (s.readLine line).Enrols length (next + 1) (r.declareSlot slot.name next) := by
  have hindex : next < s.declarations.tape.length := h.tape ▸ hnext
  have hfree : next ∉ s.declarations.bound := fun hmem => Nat.lt_irrefl _ (h.bound _ hmem)
  obtain ⟨ident?, hident, hread⟩ := readLine_slotLine h.sawLength hline hindex hfree hname hvalue
  obtain ⟨htape, hbound⟩ := s.declarations.length_and_bound_declareSlot next ident? slot.value
  rw [hread]
  refine ⟨h.sawLength, htape.trans h.tape, ?_, ?_⟩
  · intro index hmem
    rw [hbound] at hmem
    rcases List.mem_cons.mp hmem with rfl | hmem
    · exact Nat.lt_succ_self _
    · exact Nat.lt_succ_of_lt (h.bound index hmem)
  · rw [Declarations.roster_declareSlot, hident, h.roster]

theorem Enrols.declareObject (h : s.Enrols length next r) {object : ObjectDecl}
    (hline : line.text = objectLine object) (hname : isIdentifier object.name = true)
    (hlength : object.values.length ≤ maxObjectLength)
    (hvalues : ∀ value ∈ object.values, inRange value = true) :
    (s.readLine line).Enrols length next (r.declareObject (object.kind, object.name)) := by
  obtain ⟨ident, hident, hread⟩ := readLine_objectLine h.sawLength hline hname hlength hvalues
  obtain ⟨htape, hbound⟩ := s.declarations.length_and_bound_declareObject ident object.kind
    object.values
  rw [hread]
  refine ⟨h.sawLength, htape.trans h.tape, hbound ▸ h.bound, ?_⟩
  rw [Declarations.roster_declareObject, hident, h.roster]

end DataSegment

/-- The lines of a heading give its roster. -/
theorem Spellable.roster_read {tape : List Slot} {objects : List ObjectDecl}
    (h : Spellable tape objects) {lines : List SourceLine}
    (hlines : lines.map SourceLine.text = dataLines tape objects) (textLine : Nat) :
    (DataSegment.read lines textLine).roster = Roster.ofHeading tape objects := by
  obtain ⟨slotLines, objectLines, hslots, hobjects, hread⟩ :=
    DataSegment.exists_foldl_dataLines hlines h.least h.most
  have hstart : (DataSegment.laidOut tape.length).Enrols tape.length 0 {} :=
    ⟨rfl, List.length_replicate, by simp [DataSegment.laidOut], rfl⟩
  have hslotsEnrol : (slotLines.foldl DataSegment.readLine
      (DataSegment.laidOut tape.length)).Enrols tape.length tape.length (Roster.ofTape tape) := by
    apply DataSegment.slotLines_keep
      (fun done _ s => s.Enrols tape.length done.length (Roster.ofTape done))
      (List.nil_append tape) hslots _ _ hstart
    · intro done slot left s hfront hnone hs
      obtain rfl := slot_of_slotLine?_eq_none hnone
      rw [Roster.ofTape_concat, List.length_append]
      exact hs.skip
    · intro done slot left line s hfront hline hs
      have hslot : slot ∈ tape := hfront.subset (by simp)
      have hnext : done.length < tape.length := by
        have hless := hfront.length_le
        rw [List.length_append] at hless
        exact hless
      rw [Roster.ofTape_concat, List.length_append]
      exact hs.declareSlot hnext hline (h.slotNames slot hslot) (h.slotValues slot hslot)
  have henrols : (lines.foldl DataSegment.readLine {}).Enrols tape.length tape.length
      (Roster.ofHeading tape objects) := by
    rw [hread]
    apply DataSegment.objectLines_keep
      (fun done s => s.Enrols tape.length tape.length (Roster.ofHeading tape done))
      (List.nil_append objects) hobjects _ hslotsEnrol
    intro done object line s hfront hline hs
    have hobject : object ∈ objects := hfront.subset (by simp)
    rw [Roster.ofHeading_concat]
    exact hs.declareObject hline (h.objectNames object hobject) (h.objectLengths object hobject)
      (h.objectValues object hobject)
  rw [DataSegment.read_of_sawLength henrols.sawLength]
  exact henrols.roster

end TapePuzzle
