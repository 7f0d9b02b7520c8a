import TapePuzzle.Proofs.Grammar.Readers
import TapePuzzle.Proofs.Reading.Declarations
import TapePuzzle.Proofs.Reading.Statements
import TapePuzzle.Reading.Program

/-!
# Lines read under other numbers

What a line says depends on its text, and on the names only by what kind of thing they stand for.
Neither the number of the line nor the places that slots and labels have matter. Main statements:
two readers of a statement that face the same text both refuse it or find the same statement, apart
from places; and two readers of a declaration change the declarations in the same way.
-/

namespace TapePuzzle

/-! ## Answers -/

/-- Both answers are findings, or both are results that are alike. -/
inductive Checked.Alike {α β : Type} (like : α → β → Prop) : Checked α → Checked β → Prop where
  | ok {a : α} {b : β} (h : like a b) : Alike like (.ok a) (.ok b)
  | error (finding finding' : Finding) : Alike like (.error finding) (.error finding')

namespace Checked.Alike

variable {α α' β β' : Type} {like : α → α' → Prop} {like' : β → β' → Prop} {r : Checked α}
  {r' : Checked α'}

theorem bind {next : α → Checked β} {next' : α' → Checked β'} (h : Alike like r r')
    (hnext : ∀ a a', like a a' → Alike like' (next a) (next' a')) :
    Alike like' (r >>= next) (r' >>= next') := by
  cases h with
  | ok h => exact hnext _ _ h
  | error finding finding' => exact .error finding finding'

/-- Readers of which each accepts what the other one does. -/
theorem of_ok (h : ∀ a, r = .ok a → ∃ a', r' = .ok a' ∧ like a a')
    (h' : ∀ a', r' = .ok a' → ∃ a, r = .ok a) : Alike like r r' := by
  cases r with
  | ok a =>
      obtain ⟨a', rfl, hlike⟩ := h a rfl
      exact .ok hlike
  | error finding =>
      cases r' with
      | ok a' =>
          obtain ⟨a, ha⟩ := h' a' rfl
          cases ha
      | error finding' => exact .error finding finding'

end Checked.Alike

/-- The same result, in the sense of `view`, in front of the same text. -/
def SameAnswer {α β : Type} (view : α → β) (a a' : α × Cursor) : Prop :=
  view a'.1 = view a.1 ∧ a'.2.rest = a.2.rest

/-! ## Cursors that face the same text -/

namespace Cursor

variable {c c' : Cursor}

theorem sees_of_rest (h : c'.rest = c.rest) (p : Pattern) : c'.sees p = c.sees p := by
  rw [sees, sees, h]

theorem rest_skipBlanks_of_rest (h : c'.rest = c.rest) :
    c'.skipBlanks.rest = c.skipBlanks.rest := by
  rw [rest_skipBlanks, rest_skipBlanks, h]

/-- Either no pattern matches, or the same text is matched. -/
theorem eat?_of_rest (h : c'.rest = c.rest) (p : Pattern) :
    c.eat? p = none ∧ c'.eat? p = none ∨
      ∃ past past', c.eat? p = some past ∧ c'.eat? p = some past' ∧ past'.rest = past.rest ∧
        past'.matched = past.matched := by
  rw [eat?, eat?, h]
  cases p.split? c.rest with
  | none => exact .inl ⟨rfl, rfl⟩
  | some found => exact .inr ⟨_, _, rfl, rfl, rfl, rfl⟩

theorem eatFirst?_of_rest {α : Type} (h : c'.rest = c.rest) (pattern : α → Pattern)
    (choices : List α) :
    c.eatFirst? pattern choices = none ∧ c'.eatFirst? pattern choices = none ∨
      ∃ choice past past', c.eatFirst? pattern choices = some (choice, past) ∧
        c'.eatFirst? pattern choices = some (choice, past') ∧ past'.rest = past.rest := by
  induction choices with
  | nil => exact .inl ⟨rfl, rfl⟩
  | cons choice choices ih =>
      rcases eat?_of_rest h (pattern choice) with
        ⟨hnone, hnone'⟩ | ⟨past, past', hpast, hpast', hrest, -⟩
      · simpa [eatFirst?, hnone, hnone'] using ih
      · refine .inr ⟨choice, past, past', ?_, ?_, hrest⟩
        · simp [eatFirst?, hpast]
        · simp [eatFirst?, hpast']

theorem word_of_matched (h : c'.matched = c.matched) : c'.word = c.word := by
  rw [word, word, h]

theorem expect_of_rest (h : c'.rest = c.rest) (wanted : String) :
    Checked.Alike (fun past past' => past'.rest = past.rest) (c.expect wanted)
      (c'.expect wanted) := by
  unfold expect
  rcases eat?_of_rest h (.literal wanted) with
    ⟨hnone, hnone'⟩ | ⟨past, past', hpast, hpast', hrest, -⟩
  · rw [hnone, hnone']
    exact .error _ _
  · rw [hpast, hpast']
    exact .ok hrest

end Cursor

/-! ## Names of the same kind -/

/-- What kind of thing a name stands for, without its place. -/
def Role.kind : Role → Role
  | slot _ => slot 0
  | label _ => label 0
  | role => role

/-- Every name stands for the same kind of thing in both tables. -/
def Names.Agree (names names' : Names) : Prop :=
  ∀ name, (names'.role name).kind = (names.role name).kind

theorem Role.exists_slot {role : Role} {index : Nat} (h : role.kind = (Role.slot index).kind) :
    ∃ index', role = .slot index' := by
  cases role <;> simp_all [Role.kind]

theorem Role.exists_label {role : Role} {line : Nat} (h : role.kind = (Role.label line).kind) :
    ∃ line', role = .label line' := by
  cases role <;> simp_all [Role.kind]

theorem Role.eq_object {role : Role} {kind : ObjectKind} (h : role.kind = (Role.object kind).kind) :
    role = .object kind := by
  cases role <;> simp_all [Role.kind]

namespace Names.Agree

variable {names names' : Names}

theorem symm (h : names.Agree names') : names'.Agree names := fun name => (h name).symm

theorem within (h : names.Agree names') : names.Within names' where
  slot := by
    rintro name ⟨index, hrole⟩
    exact Role.exists_slot (hrole ▸ h name)
  method := by
    rintro name verb ⟨kind, hrole, hverb⟩
    exact ⟨kind, Role.eq_object (hrole ▸ h name), hverb⟩
  label := by
    rintro name ⟨line, hrole⟩
    exact Role.exists_label (hrole ▸ h name)

end Names.Agree

/-! ## Statements -/

section Statements

variable {names names' : Names} {c c' : Cursor} (hnames : names.Agree names')
  (hrest : c'.rest = c.rest)

include hnames hrest

theorem alike_readEquation (stop : EndMark) :
    Checked.Alike (SameAnswer Expr.unplaced) (readEquation names stop c)
      (readEquation names' stop c') := by
  refine .of_ok ?_ ?_
  · rintro ⟨e, past⟩ h
    obtain ⟨text, htext, hat, hderived⟩ := derives_readEquation names _ _ _ _ h
    obtain ⟨e', past', h', he, hpast⟩ :=
      accepts_readEquation (hderived.within hnames.within) (hrest.trans htext) hat
    exact ⟨(e', past'), h', he, hpast⟩
  · rintro ⟨e, past⟩ h
    obtain ⟨text, htext, hat, hderived⟩ := derives_readEquation names' _ _ _ _ h
    obtain ⟨e', past', h', -, -⟩ :=
      accepts_readEquation (hderived.within hnames.symm.within) (hrest.symm.trans htext) hat
    exact ⟨(e', past'), h'⟩

theorem alike_readSlotRef (name : String) (s s' : Span) :
    Checked.Alike (SameAnswer SlotRef.unplaced) (readSlotRef (readEquation names) ⟨name, s⟩ c)
      (readSlotRef (readEquation names') ⟨name, s'⟩ c') := by
  unfold readSlotRef
  rcases Cursor.eat?_of_rest hrest (.literal "[") with
    ⟨hnone, hnone'⟩ | ⟨opened, opened', hopened, hopened', hopenedRest, -⟩
  · rw [hnone, hnone']
    refine .ok ⟨?_, hrest⟩
    simp [SlotRef.unplaced, Ident.unplaced]
  · rw [hopened, hopened']
    refine (alike_readEquation hnames hopenedRest .closeBracket).bind ?_
    rintro ⟨offset, last⟩ ⟨offset', last'⟩ ⟨hoffset, hlast⟩
    refine (Cursor.expect_of_rest hlast "]").bind fun closed closed' hclosed => ?_
    refine .ok ⟨?_, hclosed⟩
    have hoffset : offset'.unplaced = offset.unplaced := hoffset
    simp [SlotRef.unplaced, Ident.unplaced, hoffset]

theorem alike_readCondition (kind : BlockKind) :
    Checked.Alike (SameAnswer Expr.unplaced) (readCondition names kind c)
      (readCondition names' kind c') := by
  unfold readCondition
  dsimp only
  rcases Cursor.eat?_of_rest (Cursor.rest_skipBlanks_of_rest hrest) (.literal "(") with
    ⟨hnone, hnone'⟩ | ⟨opened, opened', hopened, hopened', hopenedRest, -⟩
  · rw [hnone, hnone']
    exact .error _ _
  · rw [hopened, hopened']
    refine (alike_readEquation hnames hopenedRest .closeParen).bind ?_
    rintro ⟨condition, last⟩ ⟨condition', last'⟩ ⟨hcondition, hlast⟩
    refine (Cursor.expect_of_rest hlast ")").bind fun closed closed' hclosed => ?_
    refine (Cursor.expect_of_rest (Cursor.rest_skipBlanks_of_rest hclosed) ":").bind
      fun done done' hdone => ?_
    exact .ok ⟨hcondition, hdone⟩

theorem alike_readJump :
    Checked.Alike (SameAnswer Action.unplaced) (readJump names c) (readJump names' c') := by
  unfold readJump
  dsimp only
  rcases Cursor.eat?_of_rest (Cursor.rest_skipBlanks_of_rest hrest) .identifier with
    ⟨hnone, hnone'⟩ | ⟨named, named', hnamed, hnamed', hnamedRest, hmatched⟩
  · rw [hnone, hnone']
    exact .error _ _
  · rw [hnamed, hnamed']
    dsimp only
    rw [Cursor.word_of_matched hmatched]
    have hkind := hnames named.word
    cases hrole : names.role named.word with
    | label line =>
        obtain ⟨line', hrole'⟩ := Role.exists_label (hrole ▸ hkind)
        rw [hrole']
        refine .ok ⟨?_, hnamedRest⟩
        simp [Action.unplaced, Ident.unplaced]
    | slot | object | builtin | keyword | unknown =>
        cases hrole' : names'.role named.word with
        | label line' => simp [hrole, hrole', Role.kind] at hkind
        | slot | object | builtin | keyword | unknown => exact .error _ _

omit hnames in
theorem seesAssignment_of_rest : c'.seesAssignment = c.seesAssignment := by
  rw [Cursor.seesAssignment, Cursor.seesAssignment, Cursor.sees_of_rest hrest,
    Cursor.sees_of_rest hrest]

/-- The same target in front of the same text, or no target in either case. -/
def SameTarget (target? target?' : Option (SlotRef × Cursor)) : Prop :=
  match target?, target?' with
  | none, none => True
  | some target, some target' => SameAnswer SlotRef.unplaced target target'
  | _, _ => False

theorem alike_readTarget? :
    Checked.Alike SameTarget (readTarget? names c) (readTarget? names' c') := by
  unfold readTarget?
  rcases Cursor.eat?_of_rest hrest .identifier with
    ⟨hnone, hnone'⟩ | ⟨named, named', hnamed, hnamed', hnamedRest, hmatched⟩
  · rw [hnone, hnone']
    exact .ok trivial
  · rw [hnamed, hnamed']
    dsimp only
    rw [Cursor.word_of_matched hmatched]
    have hkind := hnames named.word
    have hsees := seesAssignment_of_rest (Cursor.rest_skipBlanks_of_rest hnamedRest)
    cases hrole : names.role named.word with
    | slot index =>
        obtain ⟨index', hrole'⟩ := Role.exists_slot (hrole ▸ hkind)
        rw [hrole']
        dsimp only
        refine (alike_readSlotRef hnames hnamedRest named.word _ _).bind ?_
        rintro ⟨slot, behind⟩ ⟨slot', behind'⟩ ⟨hslot, hbehind⟩
        have hsign := Cursor.rest_skipBlanks_of_rest hbehind
        refine .ok ?_
        dsimp only
        rw [seesAssignment_of_rest hsign]
        split
        · exact ⟨hslot, hsign⟩
        · trivial
    | label | object | builtin | keyword | unknown =>
        cases hrole' : names'.role named.word with
        | slot index' => simp [hrole, hrole', Role.kind] at hkind
        | label | object | builtin | keyword | unknown =>
            dsimp only
            rw [hsees]
            split
            · exact .error _ _
            · exact .ok trivial

theorem alike_readPlain :
    Checked.Alike (SameAnswer Action.unplaced) (readPlain names c) (readPlain names' c') := by
  unfold readPlain
  refine (alike_readTarget? hnames hrest).bind ?_
  rintro (_ | ⟨target, sign⟩) (_ | ⟨target', sign'⟩) htarget
  · refine (alike_readEquation hnames hrest .endOfLine).bind ?_
    rintro ⟨equation, last⟩ ⟨equation', last'⟩ ⟨hequation, hlast⟩
    exact .ok ⟨congrArg Action.evaluate hequation, hlast⟩
  · exact absurd htarget (by simp [SameTarget])
  · exact absurd htarget (by simp [SameTarget])
  · obtain ⟨hslot, hsign⟩ := htarget
    refine (Cursor.expect_of_rest hsign "=").bind fun assigned assigned' hassigned => ?_
    refine (alike_readEquation hnames hassigned .endOfLine).bind ?_
    rintro ⟨value, last⟩ ⟨value', last'⟩ ⟨hvalue, hlast⟩
    have hslot : target'.unplaced = target.unplaced := hslot
    have hvalue : value'.unplaced = value.unplaced := hvalue
    refine .ok ⟨?_, hlast⟩
    simp only [Action.unplaced, hslot, hvalue]

theorem alike_readAction :
    Checked.Alike (SameAnswer Action.unplaced) (readAction names c) (readAction names' c') := by
  unfold readAction
  rcases Cursor.eat?_of_rest hrest (.word BlockKind.ifBlock.keyword) with
    ⟨hnone, hnone'⟩ | ⟨past, past', hpast, hpast', hpastRest, -⟩
  · rw [hnone, hnone']
    dsimp only
    rcases Cursor.eat?_of_rest hrest (.word BlockKind.whileBlock.keyword) with
      ⟨hnone, hnone'⟩ | ⟨past, past', hpast, hpast', hpastRest, -⟩
    · rw [hnone, hnone']
      dsimp only
      rcases Cursor.eat?_of_rest hrest (.word BlockKind.elseBlock.keyword) with
        ⟨hnone, hnone'⟩ | ⟨past, past', hpast, hpast', hpastRest, -⟩
      · rw [hnone, hnone']
        dsimp only
        rcases Cursor.eat?_of_rest hrest (.word "jump") with
          ⟨hnone, hnone'⟩ | ⟨past, past', hpast, hpast', hpastRest, -⟩
        · rw [hnone, hnone']
          exact alike_readPlain hnames hrest
        · rw [hpast, hpast']
          exact alike_readJump hnames hpastRest
      · rw [hpast, hpast']
        refine (Cursor.expect_of_rest (Cursor.rest_skipBlanks_of_rest hpastRest) ":").bind
          fun done done' hdone => ?_
        exact .ok ⟨rfl, hdone⟩
    · rw [hpast, hpast']
      refine (alike_readCondition hnames hpastRest .whileBlock).bind ?_
      rintro ⟨condition, last⟩ ⟨condition', last'⟩ ⟨hcondition, hlast⟩
      exact .ok ⟨congrArg Action.whileTrue hcondition, hlast⟩
  · rw [hpast, hpast']
    refine (alike_readCondition hnames hpastRest .ifBlock).bind ?_
    rintro ⟨condition, last⟩ ⟨condition', last'⟩ ⟨hcondition, hlast⟩
    exact .ok ⟨congrArg Action.ifTrue hcondition, hlast⟩

/-- Statements on the same text are alike. -/
theorem alike_readStatement :
    Checked.Alike (fun s s' => s'.action.unplaced = s.action.unplaced) (readStatement names c)
      (readStatement names' c') := by
  unfold readStatement
  refine (alike_readAction hnames hrest).bind ?_
  rintro ⟨action, last⟩ ⟨action', last'⟩ ⟨haction, hlast⟩
  dsimp only at hlast ⊢
  rcases Cursor.eat?_of_rest hlast .endOfLine with
    ⟨hnone, hnone'⟩ | ⟨past, past', hpast, hpast', -, -⟩
  · rw [hnone, hnone']
    exact .error _ _
  · rw [hpast, hpast']
    exact .ok haction

omit hnames in
theorem opener?_of_rest : c'.opener? = c.opener? := by
  unfold Cursor.opener?
  congr
  funext kind
  exact Cursor.sees_of_rest hrest _

theorem alike_readPlaced (placement : Placement) :
    Checked.Alike (fun line line' => line'.unplaced = line.unplaced) (readPlaced names placement c)
      (readPlaced names' placement c') := by
  unfold readPlaced
  rw [opener?_of_rest hrest]
  split
  · exact .error _ _
  · refine (alike_readStatement hnames hrest).bind fun statement statement' haction => ?_
    exact .ok (by simp only [Line.unplaced, haction])

omit hrest in
/-- A line is the same under another number, and leads to the same levels. -/
theorem alike_readCodeLine (ind : Indentation) (number number' : Nat) (text : List Char) :
    Checked.Alike (fun line line' => line'.unplaced = line.unplaced)
        (readCodeLine names ind number text).1 (readCodeLine names' ind number' text).1 ∧
      (readCodeLine names' ind number' text).2 = (readCodeLine names ind number text).2 := by
  have hrest : (Cursor.start number' text).skipBlanks.rest =
      (Cursor.start number text).skipBlanks.rest := rfl
  unfold readCodeLine
  dsimp only
  split
  · exact ⟨.error _ _, rfl⟩
  · refine ⟨alike_readPlaced hnames hrest _, ?_⟩
    dsimp only
    rw [opener?_of_rest hrest]

end Statements

/-! ## Declarations -/

/-- A label, for the line that its line has become. -/
def movedLabel (f : Nat → Nat) (entry : String × Nat) : String × Nat := (entry.1, f entry.2)

namespace Declarations

/-- The same is declared, apart from the lines of the declarations, and as much was found wrong. A
    label for line `i` stands for line `f i` among the second declarations. -/
structure Alike (f : Nat → Nat) (d d' : Declarations) : Prop where
  tape : d'.tape = d.tape
  objects : d'.objects = d.objects
  bound : d'.bound = d.bound
  slotNames : d'.names.slots = d.names.slots
  objectNames : d'.names.objects = d.names.objects
  labelNames : d'.names.labels = d.names.labels.map (movedLabel f)
  labels : d'.labels = d.labels.map (movedLabel f)
  declared : d'.declared.map Prod.fst = d.declared.map Prod.fst
  findings : d'.findings.length = d.findings.length

variable {f : Nat → Nat} {d d' : Declarations} {c c' : Cursor}

theorem lookup_movedLabel (f : Nat → Nat) (labels : List (String × Nat)) (name : String) :
    (labels.map (movedLabel f)).lookup name = (labels.lookup name).map f := by
  induction labels with
  | nil => rfl
  | cons entry labels ih =>
      rw [List.map_cons, List.lookup_cons, List.lookup_cons, ih, movedLabel]
      cases name == entry.1 <;> rfl

/-- Names that are declared alike stand for the same kinds of things. -/
theorem Alike.agree (h : Alike f d d') : d.names.Agree d'.names := by
  intro name
  unfold Names.role
  split
  · rfl
  · split
    · rfl
    · unfold Names.declared
      rw [h.slotNames, h.objectNames, h.labelNames, lookup_movedLabel]
      cases d.names.slots.lookup name with
      | some index => rfl
      | none =>
          cases d.names.objects.lookup name with
          | some kind => rfl
          | none => cases d.names.labels.lookup name <;> rfl

theorem alike_empty (f : Nat → Nat) : Alike f {} {} := ⟨rfl, rfl, rfl, rfl, rfl, rfl, rfl, rfl, rfl⟩

theorem alike_readDataValue (h : c'.matched = c.matched) (start start' : Nat) :
    Checked.Alike Eq (readDataValue start c) (readDataValue start' c') := by
  simp only [readDataValue, h]
  split
  · exact .ok rfl
  · exact .error _ _

theorem alike_readSlotValue (hrest : c'.rest = c.rest) :
    Checked.Alike (SameAnswer id) (readSlotValue c) (readSlotValue c') := by
  have hskip := Cursor.rest_skipBlanks_of_rest hrest
  simp only [readSlotValue]
  rcases Cursor.eat?_of_rest hskip .integer with
    ⟨hnone, hnone'⟩ | ⟨counted, counted', hcounted, hcounted', hcountedRest, hmatched⟩
  · rw [hnone, hnone']
    exact .ok ⟨rfl, hskip⟩
  · rw [hcounted, hcounted']
    refine (alike_readDataValue hmatched _ _).bind ?_
    rintro value _ rfl
    exact .ok ⟨rfl, hcountedRest⟩

theorem readSlotName_of_rest (hrest : c'.rest = c.rest) :
    (readSlotName c').1.map Ident.name = (readSlotName c).1.map Ident.name ∧
      (readSlotName c').2.rest = (readSlotName c).2.rest := by
  have hskip := Cursor.rest_skipBlanks_of_rest hrest
  simp only [readSlotName]
  rcases Cursor.eat?_of_rest hskip .identifier with
    ⟨hnone, hnone'⟩ | ⟨named, named', hnamed, hnamed', hnamedRest, hmatched⟩
  · rw [hnone, hnone']
    exact ⟨rfl, hskip⟩
  · rw [hnamed, hnamed']
    exact ⟨congrArg some (Cursor.word_of_matched hmatched), hnamedRest⟩

theorem alike_readValues (hrest : c'.rest = c.rest) (fuel : Nat) :
    Checked.Alike Eq (readValues fuel c) (readValues fuel c') := by
  induction fuel generalizing c c' with
  | zero => exact .error _ _
  | succ fuel ih =>
      have hskip := Cursor.rest_skipBlanks_of_rest hrest
      simp only [readValues, Cursor.sees_of_rest hskip]
      split
      · exact .ok rfl
      · rcases Cursor.eat?_of_rest hskip .integer with
          ⟨hnone, hnone'⟩ | ⟨counted, counted', hcounted, hcounted', hcountedRest, hmatched⟩
        · rw [hnone, hnone']
          exact .error _ _
        · rw [hcounted, hcounted']
          refine (alike_readDataValue hmatched _ _).bind ?_
          rintro value _ rfl
          refine (ih hcountedRest).bind ?_
          rintro values _ rfl
          exact .ok rfl

namespace Alike

theorem reject (h : Alike f d d') (finding finding' : Finding) :
    Alike f (d.reject finding) (d'.reject finding') :=
  { h with findings := by simp [Declarations.reject, h.findings] }

theorem orReject (h : Alike f d d') {result result' : Checked Declarations}
    (hresult : Checked.Alike (Alike f) result result') :
    Alike f (d.orReject result) (d'.orReject result') := by
  cases hresult with
  | ok h => exact h
  | error finding finding' => exact h.reject finding finding'

theorem take (h : Alike f d d') {ident ident' : Ident} (hname : ident'.name = ident.name) :
    Alike f (d.take ident) (d'.take ident') :=
  { h with declared := by simp [Declarations.take, hname, h.declared] }

theorem checkName (h : Alike f d d') {ident ident' : Ident} (hname : ident'.name = ident.name) :
    Checked.Alike (fun _ _ => True) (d.checkName ident) (d'.checkName ident') := by
  have hiff : d'.checkName ident' = .ok () ↔ d.checkName ident = .ok () := by
    rw [checkName_eq_ok_iff, checkName_eq_ok_iff, hname, h.declared]
  cases hd : d.checkName ident with
  | ok _ =>
      rw [hiff.mpr hd]
      exact .ok trivial
  | error finding =>
      cases hd' : d'.checkName ident' with
      | ok _ =>
          rw [hiff.mp hd'] at hd
          cases hd
      | error finding' => exact .error finding finding'

theorem readTapeLength (h : Alike f d d') (hrest : c'.rest = c.rest) :
    Checked.Alike (Alike f) (d.readTapeLength c) (d'.readTapeLength c') := by
  have hskip := Cursor.rest_skipBlanks_of_rest hrest
  simp only [Declarations.readTapeLength]
  rcases Cursor.eat?_of_rest hskip .integer with
    ⟨hnone, hnone'⟩ | ⟨counted, counted', hcounted, hcounted', hcountedRest, hmatched⟩
  · rw [hnone, hnone']
    exact .error _ _
  · rw [hcounted, hcounted']
    dsimp only
    rw [hmatched, Cursor.sees_of_rest hcountedRest]
    split
    · exact .ok { h with tape := rfl }
    · exact .error _ _

theorem readSlotIndex (h : Alike f d d') (hrest : c'.rest = c.rest) :
    Checked.Alike (SameAnswer id) (d.readSlotIndex c) (d'.readSlotIndex c') := by
  unfold Declarations.readSlotIndex
  rcases Cursor.eat?_of_rest hrest .integer with
    ⟨hnone, hnone'⟩ | ⟨counted, counted', hcounted, hcounted', hcountedRest, hmatched⟩
  · rw [hnone, hnone']
    exact .error _ _
  · rw [hcounted, hcounted']
    dsimp only
    rw [hmatched, h.tape, h.bound]
    split
    · split
      · exact .error _ _
      · exact .ok ⟨rfl, hcountedRest⟩
    · exact .error _ _

theorem nameSlot (h : Alike f d d') (index : Nat) {ident ident' : Ident}
    (hname : ident'.name = ident.name) :
    Alike f (d.nameSlot index ident) (d'.nameSlot index ident') :=
  { h.take hname with
    tape := by simp [Declarations.nameSlot, h.tape, hname]
    slotNames := by simp [Declarations.nameSlot, Names.addSlot, h.slotNames, hname]
    objectNames := h.objectNames
    labelNames := h.labelNames }

theorem fillSlot (h : Alike f d d') (index : Nat) (value : Int) :
    Alike f (d.fillSlot index value) (d'.fillSlot index value) :=
  { h with tape := by simp [Declarations.fillSlot, h.tape] }

theorem readSlotBinding (h : Alike f d d') (index : Nat) (hrest : c'.rest = c.rest) :
    Checked.Alike (Alike f) (d.readSlotBinding index c) (d'.readSlotBinding index c') := by
  obtain ⟨hname, hnameRest⟩ := readSlotName_of_rest hrest
  unfold Declarations.readSlotBinding
  dsimp only
  refine (alike_readSlotValue hnameRest).bind ?_
  rintro ⟨value?, last⟩ ⟨value?', last'⟩ ⟨hvalue, hlast⟩
  obtain rfl : value?' = value? := hvalue
  dsimp only at hlast ⊢
  rw [Cursor.sees_of_rest hlast]
  generalize (readSlotName c).1 = ident? at hname ⊢
  generalize (readSlotName c').1 = ident?' at hname ⊢
  split
  · exact .error _ _
  · cases ident? with
    | none =>
        obtain rfl := Option.map_eq_none_iff.mp hname
        cases value?' with
        | none => exact .ok h
        | some value => exact .ok (h.fillSlot index value)
    | some ident =>
        obtain ⟨ident', rfl, hsame⟩ := Option.map_eq_some_iff.mp hname
        refine (h.checkName hsame).bind fun _ _ _ => ?_
        have hnamed := h.nameSlot index hsame
        cases value?' with
        | none => exact .ok hnamed
        | some value => exact .ok (hnamed.fillSlot index value)

theorem bindSlot (h : Alike f d d') (hrest : c'.rest = c.rest) :
    Alike f (d.bindSlot c) (d'.bindSlot c') := by
  have hindex := h.readSlotIndex hrest
  unfold Declarations.bindSlot
  generalize d.readSlotIndex c = result at hindex
  generalize d'.readSlotIndex c' = result' at hindex
  cases hindex with
  | error finding finding' => exact h.reject finding finding'
  | @ok answer answer' hanswer =>
      obtain ⟨index, counted⟩ := answer
      obtain ⟨index', counted'⟩ := answer'
      obtain ⟨hindex, hcounted⟩ := hanswer
      obtain rfl : index' = index := hindex
      have hbound : Alike f { d with bound := index' :: d.bound }
          { d' with bound := index' :: d'.bound } := { h with bound := by simp [h.bound] }
      exact hbound.orReject (hbound.readSlotBinding index' hcounted)

theorem addObject (h : Alike f d d') {ident ident' : Ident} (hname : ident'.name = ident.name)
    (kind : ObjectKind) (values : List Int) :
    Alike f (d.addObject ident kind values) (d'.addObject ident' kind values) :=
  { h.take hname with
    objects := by simp [Declarations.addObject, h.objects, hname]
    slotNames := h.slotNames
    objectNames := by simp [Declarations.addObject, Names.addObject, h.objectNames, hname]
    labelNames := h.labelNames }

theorem readObject (h : Alike f d d') (kind : ObjectKind) (hrest : c'.rest = c.rest) :
    Checked.Alike (Alike f) (d.readObject kind c) (d'.readObject kind c') := by
  unfold Declarations.readObject
  rcases Cursor.eat?_of_rest hrest .blanks with
    ⟨hnone, hnone'⟩ | ⟨start, start', hstart, hstart', hstartRest, -⟩
  · rw [hnone, hnone']
    exact .error _ _
  · rw [hstart, hstart']
    dsimp only
    rcases Cursor.eat?_of_rest hstartRest .identifier with
      ⟨hnone, hnone'⟩ | ⟨named, named', hnamed, hnamed', hnamedRest, hmatched⟩
    · rw [hnone, hnone']
      exact .error _ _
    · rw [hnamed, hnamed']
      dsimp only
      rw [hnamedRest]
      refine (alike_readValues hnamedRest _).bind ?_
      rintro values _ rfl
      split
      · exact .error _ _
      · have hname := Cursor.word_of_matched hmatched
        exact (h.checkName hname).bind fun _ _ _ => .ok (h.addObject hname kind values)

theorem readDeclaration (h : Alike f d d') (hrest : c'.rest = c.rest) :
    Alike f (d.readDeclaration c) (d'.readDeclaration c') := by
  unfold Declarations.readDeclaration
  rw [Cursor.sees_of_rest hrest]
  split
  · exact h.bindSlot hrest
  · rcases Cursor.eatFirst?_of_rest hrest (fun kind : ObjectKind => .word kind.keyword)
        ObjectKind.all with
      ⟨hnone, hnone'⟩ | ⟨kind, past, past', hpast, hpast', hpastRest⟩
    · rw [hnone, hnone']
      exact h.reject _ _
    · rw [hpast, hpast']
      exact h.orReject (h.readObject kind hpastRest)

end Alike

end Declarations

namespace DataSegment

/-- As much of the data segment is read, with declarations that are alike. -/
structure Alike (f : Nat → Nat) (s s' : DataSegment) : Prop where
  declarations : s.declarations.Alike f s'.declarations
  sawLength : s'.sawLength = s.sawLength
  missedLength : s'.missedLength = s.missedLength

variable {f : Nat → Nat} {s s' : DataSegment}

theorem Alike.demandLength (h : Alike f s s') (line line' : Nat) :
    Alike f (s.demandLength line) (s'.demandLength line') := by
  unfold DataSegment.demandLength
  rw [h.sawLength, h.missedLength]
  split
  · exact h
  · exact ⟨h.declarations.reject _ _, rfl, rfl⟩

/-- A line does the same under another number. -/
theorem Alike.readLine (h : Alike f s s') (text : List Char) (number number' : Nat) :
    Alike f (s.readLine ⟨number, text⟩) (s'.readLine ⟨number', text⟩) := by
  have hrest : (Cursor.start number' (codePart text)).skipBlanks.rest =
      (Cursor.start number (codePart text)).skipBlanks.rest := rfl
  unfold DataSegment.readLine
  dsimp only
  split
  · exact h
  · rcases Cursor.eat?_of_rest hrest (.word "tapelength") with
      ⟨hnone, hnone'⟩ | ⟨past, past', hpast, hpast', hpastRest, -⟩
    · rw [hnone, hnone']
      have hdemand := h.demandLength number number'
      exact { hdemand with declarations := hdemand.declarations.readDeclaration hrest }
    · rw [hpast, hpast']
      dsimp only
      rw [h.sawLength]
      split
      · exact ⟨h.declarations.reject _ _, rfl, h.missedLength⟩
      · have hlength := h.declarations.readTapeLength hpastRest
        exact ⟨h.declarations.orReject hlength, rfl, h.missedLength⟩

end DataSegment

/-! ## Labels -/

theorem name_labelOf? (text : List Char) (number number' : Nat) :
    (labelOf? ⟨number', text⟩).map Ident.name = (labelOf? ⟨number, text⟩).map Ident.name := by
  have hrest : (Cursor.start number' (codePart text)).skipBlanks.rest =
      (Cursor.start number (codePart text)).skipBlanks.rest := rfl
  unfold labelOf?
  dsimp only
  rcases Cursor.eat?_of_rest hrest .identifier with
    ⟨hnone, hnone'⟩ | ⟨named, named', hnamed, hnamed', hnamedRest, hmatched⟩
  · rw [hnone, hnone']
    rfl
  · have hword := Cursor.word_of_matched hmatched
    rw [hnamed, hnamed']
    dsimp only [bind, Option.bind]
    rw [hword]
    split
    · rfl
    · rcases Cursor.eat?_of_rest (Cursor.rest_skipBlanks_of_rest hnamedRest) (.literal ":") with
        ⟨hnone, hnone'⟩ | ⟨colon, colon', hcolon, hcolon', hcolonRest, -⟩
      · rw [hnone, hnone']
      · rw [hcolon, hcolon']
        dsimp only
        rw [Cursor.sees_of_rest hcolonRest]
        split
        · rfl
        · rfl

theorem isSilent_of_text (text : List Char) (number number' : Nat) :
    isSilent ⟨number', text⟩ = isSilent ⟨number, text⟩ := by
  have hname := congrArg Option.isSome (name_labelOf? text number number')
  simp only [Option.isSome_map] at hname
  rw [isSilent, isSilent, hname]

/-- A label does the same on a line that has moved. -/
theorem Declarations.Alike.readLabel {f : Nat → Nat} {d d' : Declarations} (h : Alike f d d')
    (text : List Char) (number number' index : Nat) :
    Alike f (d.readLabel ⟨number, text⟩ index) (d'.readLabel ⟨number', text⟩ (f index)) := by
  have hname := name_labelOf? text number number'
  unfold Declarations.readLabel
  cases hlabel : labelOf? ⟨number, text⟩ with
  | none =>
      rw [hlabel] at hname
      rw [Option.map_eq_none_iff.mp hname]
      exact h
  | some ident =>
      rw [hlabel] at hname
      obtain ⟨ident', hlabel', hname⟩ := Option.map_eq_some_iff.mp hname
      rw [hlabel']
      refine h.orReject ((h.checkName hname).bind fun _ _ _ => .ok ?_)
      exact { h.take hname with
        labels := by simp [addLabel, h.labels, hname, movedLabel]
        slotNames := h.slotNames
        objectNames := h.objectNames
        labelNames := by simp [addLabel, Names.addLabel, h.labelNames, hname, movedLabel] }

end TapePuzzle
