import TapePuzzle.Execution.Run
import TapePuzzle.Proofs.Reading.Programs

/-!
# What evaluation preserves

A statement of a sound program finds every slot, object and label that it mentions. It changes
values on the tape and in objects, never what is there to change, and it writes down what it did.
The statements here are about any class of values that the operators do not lead out of: the
integers from -999 to 999 are one, and all integers are another. Main statement: carrying out a
statement keeps `Machine.Fits`, whatever way it ends, and never ends in a defect.
-/

namespace TapePuzzle

/-! ## Computations that keep an invariant -/

namespace Eval

variable {α β : Type} {inv : Machine → Prop} {stops : Stop → Prop}

/-- From every machine with `inv` the computation leaves a machine with `inv`. A value it returns
    has `post`, and a stop it ends in has `stops`. -/
def Keeps (inv : Machine → Prop) (stops : Stop → Prop) (x : Eval α) (post : α → Prop) : Prop :=
  ∀ m, inv m → inv (x.run m).2 ∧
    match (x.run m).1 with
    | .ok value => post value
    | .error stop => stops stop

theorem run_bind (x : Eval α) (next : α → Eval β) (m : Machine) :
    (x >>= next).run m =
      match x.run m with
      | (.ok value, m') => (next value).run m'
      | (.error stop, m') => (.error stop, m') := by
  change (match x m with | (result, m') => ExceptT.bindCont next result m') = _
  change _ = match x m with
    | (.ok value, m') => (next value).run m'
    | (.error stop, m') => (.error stop, m')
  rcases x m with ⟨result, m'⟩
  cases result <;> rfl

theorem keeps_pure {post : α → Prop} {value : α} (h : post value) :
    Keeps inv stops (pure value) post := by
  intro m hm
  exact ⟨hm, h⟩

theorem keeps_throw {post : α → Prop} {stop : Stop} (h : stops stop) :
    Keeps inv stops (throw stop : Eval α) post := by
  intro m hm
  exact ⟨hm, h⟩

theorem Keeps.bind {x : Eval α} {next : α → Eval β} {mid : α → Prop} {post : β → Prop}
    (hx : Keeps inv stops x mid) (hnext : ∀ value, mid value → Keeps inv stops (next value) post) :
    Keeps inv stops (x >>= next) post := by
  intro m hm
  obtain ⟨hinv, hresult⟩ := hx m hm
  rw [run_bind]
  rcases hrun : x.run m with ⟨result, m'⟩
  rw [hrun] at hinv hresult
  cases result with
  | ok value => exact hnext value hresult m' hinv
  | error stop => exact ⟨hinv, hresult⟩

theorem keeps_memory {post : Memory → Prop} (h : ∀ m, inv m → post m.memory) :
    Keeps inv stops memory post := by
  intro m hm
  exact ⟨hm, h m hm⟩

theorem keeps_update {f : Memory → Memory} (h : ∀ m, inv m → inv { m with memory := f m.memory }) :
    Keeps inv stops (update f) fun _ => True := by
  intro m hm
  exact ⟨h m hm, trivial⟩

theorem keeps_record {event : Event}
    (h : ∀ m, inv m → inv { m with events := m.events ++ [event] }) :
    Keeps inv stops (record event) fun _ => True := by
  intro m hm
  exact ⟨h m hm, trivial⟩

end Eval

/-! ## The invariant -/

/-- The values of an event: operands, results and what was moved. -/
def Event.values : Event → List Int
  | load _ value => [value]
  | store _ value => [value]
  | arithmetic _ left right result => [left, right, result]
  | shortCircuit _ left result => [left, result]
  | unary _ operand result => [operand, result]
  | push _ value => [value]
  | take _ value => [value]
  | examine _ value => [value]
  | input value => [value]
  | output value => [value]
  | halt _ => []

/-- An event is about a slot that is there, and its result is what the operator makes of its
    operands. -/
def Event.Accurate (p : Program) : Event → Prop
  | load slot _ => slot < p.tape.length
  | store slot _ => slot < p.tape.length
  | arithmetic op left right result => op.apply left right = .ok result
  | shortCircuit op left result => op.decided? left = some result
  | unary op operand result => op.apply operand = result
  | push _ _ | take _ _ | examine _ _ | input _ | output _ | halt _ => True

/-- Only values of the class `good` are in the memory, and what they are in is as the program
    declares it. -/
structure Memory.Fits (p : Program) (good : Int → Prop) (m : Memory) : Prop where
  slotNames : m.tape.map Slot.name = p.tape.map Slot.name
  objectNames : m.objects.map (fun object => (object.name, object.kind)) =
    p.objects.map fun object => (object.name, object.kind)
  objectLengths : ∀ object ∈ m.objects, object.values.length ≤ maxObjectLength
  tape : ∀ slot ∈ m.tape, good slot.value
  objects : ∀ object ∈ m.objects, ∀ value ∈ object.values, good value
  input : ∀ value ∈ m.input, good value
  output : ∀ value ∈ m.output, good value

/-- Memory and journal hold only values of the class `good`, in what the program declares. -/
structure Machine.Fits (p : Program) (good : Int → Prop) (m : Machine) : Prop where
  memory : m.memory.Fits p good
  values : ∀ event ∈ m.events, ∀ value ∈ event.values, good value
  accurate : ∀ event ∈ m.events, event.Accurate p

/-- A stop that a sound program can come to. Leaving the tape is one, but only by an index that is
    off the tape; a defect is none. -/
def Stop.Fits (p : Program) : Stop → Prop
  | .fault (.defect _) => False
  | .fault (.slotOutOfRange index length) => length = p.tape.length ∧ ¬(0 ≤ index ∧ index < length)
  | .fault _ | .halt _ => True

namespace BinaryOp

variable {left right result : Int}

theorem apply_divide_eq_ok_iff :
    divide.apply left right = .ok result ↔ right ≠ 0 ∧ left.fdiv right = result := by
  by_cases hzero : right = 0
  · simp [apply, hzero]
  · simp [apply, hzero]

theorem apply_remainder_eq_ok_iff :
    remainder.apply left right = .ok result ↔ right ≠ 0 ∧ left.tmod right = result := by
  by_cases hzero : right = 0
  · simp [apply, hzero]
  · simp [apply, hzero]

/-- The operators fail only by a zero divisor. -/
theorem reason_of_apply_eq_error {op : BinaryOp} {reason : Fault}
    (h : op.apply left right = .error reason) :
    reason = .divisionByZero ∨ reason = .remainderByZero := by
  cases op with
  | divide | remainder =>
      by_cases hzero : right = 0
      · simp_all [apply]
      · simp [apply, hzero] at h
  | add | subtract | multiply | or | and | equal | notEqual | less | greater | lessEqual
  | greaterEqual => cases h

end BinaryOp

/-- A class of values that has all values in range, and that division does not lead out of. -/
structure ValueClass (good : Int → Prop) : Prop where
  ofInRange : ∀ value, inRange value = true → good value
  divide : ∀ left right, good left → good right → right ≠ 0 → good (left.fdiv right)
  remainder : ∀ left right, good left → good right → right ≠ 0 → good (left.tmod right)

namespace ValueClass

variable {good : Int → Prop}

theorem truth (h : ValueClass good) (b : Bool) : good (truth b) := by
  apply h.ofInRange
  cases b <;> decide

theorem wrap (h : ValueClass good) (value : Int) : good (wrap value) :=
  h.ofInRange _ (inRange_wrap value)

theorem length (h : ValueClass good) {values : List Int}
    (hlength : values.length ≤ maxObjectLength) : good values.length := by
  apply h.ofInRange
  rw [inRange_iff]
  unfold maxObjectLength at hlength
  omega

theorem binary (h : ValueClass good) {op : BinaryOp} {left right result : Int} (hleft : good left)
    (hright : good right) (happly : op.apply left right = .ok result) : good result := by
  cases op with
  | divide =>
      obtain ⟨hzero, rfl⟩ := BinaryOp.apply_divide_eq_ok_iff.mp happly
      exact h.divide left right hleft hright hzero
  | remainder =>
      obtain ⟨hzero, rfl⟩ := BinaryOp.apply_remainder_eq_ok_iff.mp happly
      exact h.remainder left right hleft hright hzero
  | add | subtract | multiply =>
      cases happly
      exact h.wrap _
  | or | and | equal | notEqual | less | greater | lessEqual | greaterEqual =>
      cases happly
      exact h.truth _

theorem decided (h : ValueClass good) {op : BinaryOp} {left result : Int}
    (hdecided : op.decided? left = some result) : good result := by
  unfold BinaryOp.decided? at hdecided
  split at hdecided
  · split at hdecided
    · cases hdecided
      exact h.truth false
    · cases hdecided
  · split at hdecided
    · cases hdecided
      exact h.truth true
    · cases hdecided
  · cases hdecided

theorem unary (h : ValueClass good) (op : UnaryOp) (operand : Int) : good (op.apply operand) := by
  cases op with
  | negate => exact h.wrap _
  | not => exact h.truth _

end ValueClass

/-! ## What the invariant provides -/

theorem slotIndex?_eq_of_map_name {tape tape' : List Slot}
    (h : tape.map Slot.name = tape'.map Slot.name) (name : String) :
    slotIndex? tape name = slotIndex? tape' name := by
  have hmap : ∀ slots : List Slot, slotIndex? slots name =
      (slots.map Slot.name).findIdx? fun found => decide (found = some name) := by
    intro slots
    rw [List.findIdx?_map]
    rfl
  rw [hmap, hmap, h]

theorem isSome_findObject?_iff {objects : List Container} {name : String} :
    (findObject? objects name).isSome = true ↔ name ∈ objects.map Container.name := by
  simp [findObject?, List.find?_isSome]

namespace Memory

theorem map_setValues (name : String) (values : List Int) (objects : List Container) :
    (setValues name values objects).map (fun object => (object.name, object.kind)) =
      objects.map fun object => (object.name, object.kind) := by
  induction objects with
  | nil => rfl
  | cons object objects ih =>
      unfold setValues
      split
      · rfl
      · rw [List.map_cons, ih, List.map_cons]

/-- Every object afterwards was there before or has the new values. -/
theorem mem_setValues {name : String} {values : List Int} {objects : List Container}
    {object : Container} (h : object ∈ setValues name values objects) :
    object ∈ objects ∨ object.values = values := by
  induction objects with
  | nil => exact .inl h
  | cons first objects ih =>
      unfold setValues at h
      split at h
      · rcases List.mem_cons.mp h with rfl | h
        · exact .inr rfl
        · exact .inl (List.mem_cons_of_mem _ h)
      · rcases List.mem_cons.mp h with rfl | h
        · exact .inl List.mem_cons_self
        · exact (ih h).imp_left (List.mem_cons_of_mem _)

namespace Fits

variable {p : Program} {good : Int → Prop} {m : Memory}

theorem length_tape (h : m.Fits p good) : m.tape.length = p.tape.length := by
  simpa using congrArg List.length h.slotNames

theorem slotIndex?_eq (h : m.Fits p good) (name : String) :
    slotIndex? m.tape name = p.slotIndex? name :=
  slotIndex?_eq_of_map_name h.slotNames name

theorem isSome_object? (h : m.Fits p good) {name : String}
    (hname : (p.object? name).isSome = true) : (m.object? name).isSome = true := by
  have hnames : m.objects.map Container.name = p.objects.map Container.name := by
    simpa [List.map_map, Function.comp_def] using congrArg (List.map Prod.fst) h.objectNames
  unfold Memory.object?
  rw [isSome_findObject?_iff, hnames]
  exact isSome_findObject?_iff.mp hname

theorem setInput (h : m.Fits p good) {input : List Int} (hinput : ∀ value ∈ input, good value) :
    ({ m with input := input } : Memory).Fits p good :=
  { h with input := hinput }

theorem appendOutput (h : m.Fits p good) {value : Int} (hvalue : good value) :
    ({ m with output := m.output ++ [value] } : Memory).Fits p good := by
  refine { h with output := ?_ }
  intro value' hvalue'
  rcases List.mem_append.mp hvalue' with hvalue' | hvalue'
  · exact h.output value' hvalue'
  · rw [List.mem_singleton.mp hvalue']
    exact hvalue

theorem writeSlot (h : m.Fits p good) (index : Nat) {value : Int} (hvalue : good value) :
    (m.writeSlot index value).Fits p good := by
  refine { h with slotNames := ?_, tape := ?_ }
  · rw [← h.slotNames]
    apply List.ext_getElem?
    intro place
    simp only [Memory.writeSlot, List.getElem?_map, List.getElem?_modify]
    cases m.tape[place]? with
    | none => simp
    | some slot => simp; split <;> rfl
  · intro slot hslot
    obtain ⟨place, hplace, rfl⟩ := List.mem_iff_getElem.mp hslot
    simp only [Memory.writeSlot, List.getElem_modify]
    split
    · exact hvalue
    · exact h.tape _ (List.getElem_mem _)

theorem writeObject (h : m.Fits p good) (name : String) {values : List Int}
    (hlength : values.length ≤ maxObjectLength) (hvalues : ∀ value ∈ values, good value) :
    (m.writeObject name values).Fits p good := by
  refine { h with objectNames := ?_, objectLengths := ?_, objects := ?_ }
  · rw [← h.objectNames]
    exact map_setValues name values m.objects
  · intro object hobject
    rcases mem_setValues hobject with hobject | heq
    · exact h.objectLengths object hobject
    · rw [heq]
      exact hlength
  · intro object hobject
    rcases mem_setValues hobject with hobject | heq
    · exact h.objects object hobject
    · rw [heq]
      exact hvalues

end Fits

end Memory

namespace Machine.Fits

variable {p : Program} {good : Int → Prop} {m : Machine}

theorem update (h : m.Fits p good) {memory : Memory} (hmemory : memory.Fits p good) :
    ({ m with memory := memory } : Machine).Fits p good :=
  ⟨hmemory, h.values, h.accurate⟩

theorem record (h : m.Fits p good) {event : Event} (hvalues : ∀ value ∈ event.values, good value)
    (haccurate : event.Accurate p) :
    ({ m with events := m.events ++ [event] } : Machine).Fits p good := by
  refine ⟨h.memory, ?_, ?_⟩
  · intro event' hevent
    rcases List.mem_append.mp hevent with hevent | hevent
    · exact h.values event' hevent
    · rw [List.mem_singleton.mp hevent]
      exact hvalues
  · intro event' hevent
    rcases List.mem_append.mp hevent with hevent | hevent
    · exact h.accurate event' hevent
    · rw [List.mem_singleton.mp hevent]
      exact haccurate

end Machine.Fits

/-! ## Carrying out statements -/

namespace Eval

/-- The computation keeps the invariant of the program and does not end in a defect. -/
def Safe {α : Type} (p : Program) (good : Int → Prop) (x : Eval α) (post : α → Prop) : Prop :=
  Keeps (Machine.Fits p good) (Stop.Fits p) x post

section Primitives

variable {p : Program} {good : Int → Prop}

theorem safe_memory : Safe p good memory (Memory.Fits p good) :=
  keeps_memory fun _ hm => hm.memory

theorem safe_update {f : Memory → Memory}
    (h : ∀ memory : Memory, memory.Fits p good → (f memory).Fits p good) :
    Safe p good (update f) fun _ => True :=
  keeps_update fun _ hm => hm.update (h _ hm.memory)

theorem safe_record {event : Event} (hvalues : ∀ value ∈ event.values, good value)
    (haccurate : event.Accurate p) : Safe p good (record event) fun _ => True :=
  keeps_record fun _ hm => hm.record hvalues haccurate

/-- Writes an event and returns a value, which is how every operation ends. -/
theorem safe_record_pure {event : Event} {value : Int}
    (hvalues : ∀ value ∈ event.values, good value) (haccurate : event.Accurate p)
    (hvalue : good value) :
    Safe p good (do record event; return value) good :=
  (safe_record hvalues haccurate).bind fun _ _ => keeps_pure hvalue

theorem safe_locate {name : String} (hname : (p.slotIndex? name).isSome = true) :
    Safe p good (locate name) (· < p.tape.length) := by
  refine safe_memory.bind fun memory hmemory => ?_
  rw [hmemory.slotIndex?_eq]
  obtain ⟨index, hindex⟩ := Option.isSome_iff_exists.mp hname
  rw [hindex]
  exact keeps_pure (List.findIdx?_eq_some_iff_getElem.mp hindex).1

theorem safe_displace (base : Nat) (offset : Int) :
    Safe p good (displace base offset) (· < p.tape.length) := by
  refine safe_memory.bind fun memory hmemory => ?_
  dsimp only
  rw [hmemory.length_tape]
  split
  · rename_i hindex
    exact keeps_pure (by omega)
  · rename_i hindex
    exact keeps_throw ⟨rfl, hindex⟩

theorem safe_loadSlot {index : Nat} (hindex : index < p.tape.length) :
    Safe p good (loadSlot index) good := by
  refine safe_memory.bind fun memory hmemory => ?_
  have hindex' : index < memory.tape.length := by rw [hmemory.length_tape]; exact hindex
  rw [List.getElem?_eq_getElem hindex']
  have hvalue := hmemory.tape _ (List.getElem_mem hindex')
  exact safe_record_pure (by simpa [Event.values] using hvalue) hindex hvalue

theorem safe_takeInput : Safe p good takeInput good := by
  refine safe_memory.bind fun memory hmemory => ?_
  split
  · exact keeps_throw trivial
  · rename_i value rest hinput
    have hvalues : ∀ v ∈ value :: rest, good v := hinput ▸ hmemory.input
    have hvalue := hvalues value List.mem_cons_self
    have hrest : ∀ v ∈ rest, good v := fun v hv => hvalues v (List.mem_cons_of_mem _ hv)
    refine (safe_update fun memory hmemory => hmemory.setInput hrest).bind fun _ _ => ?_
    exact safe_record_pure (by simpa [Event.values] using hvalue) trivial hvalue

theorem safe_writeOutput {value : Int} (hvalue : good value) :
    Safe p good (writeOutput value) good := by
  refine (safe_update fun memory hmemory => hmemory.appendOutput hvalue).bind fun _ _ => ?_
  exact safe_record_pure (by simpa [Event.values] using hvalue) trivial hvalue

theorem safe_object {name : String} (hname : (p.object? name).isSome = true) :
    Safe p good (object name) fun object =>
      object.values.length ≤ maxObjectLength ∧ ∀ value ∈ object.values, good value := by
  refine safe_memory.bind fun memory hmemory => ?_
  obtain ⟨object, hobject⟩ := Option.isSome_iff_exists.mp (hmemory.isSome_object? hname)
  have hmem : object ∈ memory.objects := List.mem_of_find?_eq_some hobject
  rw [hobject]
  exact keeps_pure ⟨hmemory.objectLengths object hmem, hmemory.objects object hmem⟩

theorem safe_writeObject {name : String} {values : List Int}
    (hlength : values.length ≤ maxObjectLength) (hvalues : ∀ value ∈ values, good value) :
    Safe p good (update (·.writeObject name values)) fun _ => True :=
  safe_update fun _ hmemory => hmemory.writeObject name hlength hvalues

theorem safe_pushValue {name : String} {value : Int} (hname : (p.object? name).isSome = true)
    (hvalue : good value) : Safe p good (pushValue name value) good := by
  refine (safe_object hname).bind fun object hobject => ?_
  dsimp only
  split
  · exact keeps_throw trivial
  · rename_i hroom
    refine (safe_writeObject ?_ ?_).bind fun _ _ => ?_
    · rw [List.length_append, List.length_singleton]
      omega
    · intro v hv
      rcases List.mem_append.mp hv with hv | hv
      · exact hobject.2 v hv
      · rw [List.mem_singleton.mp hv]
        exact hvalue
    · exact safe_record_pure (by simpa [Event.values] using hvalue) trivial hvalue

theorem safe_takeFirst {name : String} {stop : Stop} (hname : (p.object? name).isSome = true)
    (hstop : stop.Fits p) : Safe p good (takeFirst name stop) good := by
  refine (safe_object hname).bind fun object hobject => ?_
  split
  · exact keeps_throw hstop
  · rename_i value rest hvalues
    rw [hvalues] at hobject
    have hvalue := hobject.2 value List.mem_cons_self
    refine (safe_writeObject ?_ ?_).bind fun _ _ => ?_
    · exact Nat.le_of_succ_le hobject.1
    · exact fun v hv => hobject.2 v (List.mem_cons_of_mem _ hv)
    · exact safe_record_pure (by simpa [Event.values] using hvalue) trivial hvalue

theorem safe_takeLast {name : String} {stop : Stop} (hname : (p.object? name).isSome = true)
    (hstop : stop.Fits p) : Safe p good (takeLast name stop) good := by
  refine (safe_object hname).bind fun object hobject => ?_
  dsimp only
  split
  · exact keeps_throw hstop
  · rename_i value hlast
    have hvalue := hobject.2 value (List.mem_of_getLast? hlast)
    refine (safe_writeObject ?_ ?_).bind fun _ _ => ?_
    · rw [List.length_dropLast]
      exact Nat.le_trans (Nat.sub_le _ _) hobject.1
    · exact fun v hv => hobject.2 v (List.dropLast_subset _ hv)
    · exact safe_record_pure (by simpa [Event.values] using hvalue) trivial hvalue

end Primitives

section Calls

variable {p : Program} {good : Int → Prop} (hgood : ValueClass good)

include hgood

theorem safe_examine {name : String} (hname : (p.object? name).isSome = true) :
    Safe p good (examine name) good := by
  refine (safe_object hname).bind fun object hobject => ?_
  have hlength := hgood.length hobject.1
  exact safe_record_pure (by simpa [Event.values] using hlength) trivial hlength

theorem safe_callMethod {name : String} {verb : Method} (hname : (p.object? name).isSome = true)
    (harity : verb.arity = 0) : Safe p good (callMethod name verb) good := by
  cases verb with
  | pop => exact safe_takeLast hname trivial
  | dequeue => exact safe_takeFirst hname trivial
  | next => exact safe_takeFirst hname trivial
  | length => exact safe_examine hgood hname
  | push => cases harity
  | enqueue => cases harity

theorem safe_combine {op : BinaryOp} {left right : Int} (hleft : good left) (hright : good right) :
    Safe p good (combine op left right) good := by
  unfold combine
  split
  · rename_i reason happly
    rcases BinaryOp.reason_of_apply_eq_error happly with rfl | rfl
    · exact keeps_throw trivial
    · exact keeps_throw trivial
  · rename_i result happly
    have hresult := hgood.binary hleft hright happly
    exact safe_record_pure (by simp [Event.values, hleft, hright, hresult]) happly hresult

end Calls

theorem safe_callMethodWith {p : Program} {good : Int → Prop} {name : String} {verb : Method}
    {argument : Int} (hname : (p.object? name).isSome = true) (harity : verb.arity = 1)
    (hargument : good argument) : Safe p good (callMethodWith name verb argument) good := by
  cases verb with
  | push => exact safe_pushValue hname hargument
  | enqueue => exact safe_pushValue hname hargument
  | pop | dequeue | length | next => cases harity

theorem safe_callFunction {p : Program} {good : Int → Prop} {function : Builtin}
    (harity : function.arity = 0) : Safe p good (callFunction function) good := by
  cases function with
  | input => exact safe_takeInput
  | finish => exact keeps_throw trivial
  | output => cases harity

theorem safe_callFunctionWith {p : Program} {good : Int → Prop} {function : Builtin}
    {argument : Int} (harity : function.arity = 1) (hargument : good argument) :
    Safe p good (callFunctionWith function argument) good := by
  cases function with
  | output => exact safe_writeOutput hargument
  | input => cases harity
  | finish => cases harity

end Eval

open Eval

section Statements

variable {p : Program} {names : Names} {good : Int → Prop}
  (hp : p.Sound names) (hgood : ValueClass good)

include hp hgood

/-- Evaluating an equation keeps the invariant and gives a value of the class. -/
theorem Expr.safe_eval {e : Expr} (he : e.WellFormed names) : Safe p good e.eval good := by
  induction e with
  | number value span => exact keeps_pure (hgood.ofInRange value he)
  | slot name reference span =>
      exact (safe_locate (hp.slot _ he)).bind fun base hbase => safe_loadSlot hbase
  | slotAt name offset reference span ih =>
      refine (safe_locate (hp.slot _ he.1)).bind fun base _ => ?_
      refine (ih he.2).bind fun shift _ => ?_
      exact (safe_displace base shift).bind fun index hindex => safe_loadSlot hindex
  | call function span => exact safe_callFunction he
  | callWith function argument span ih =>
      exact (ih he.2).bind fun value hvalue => safe_callFunctionWith he.1 hvalue
  | method object verb span => exact safe_callMethod hgood (hp.object _ _ he.1) he.2
  | methodWith object verb argument span ih =>
      exact (ih he.2.2).bind fun value hvalue =>
        safe_callMethodWith (hp.object _ _ he.1) he.2.1 hvalue
  | unary op operand span ih =>
      refine (ih he).bind fun value hvalue => ?_
      have hresult := hgood.unary op value
      exact safe_record_pure (by simp [Event.values, hvalue, hresult]) rfl hresult
  | binary left op right span ihLeft ihRight =>
      refine (ihLeft he.1).bind fun leftValue hleft => ?_
      split
      · rename_i result hdecided
        have hresult := hgood.decided hdecided
        exact safe_record_pure (by simp [Event.values, hleft, hresult]) hdecided hresult
      · exact (ihRight he.2).bind fun rightValue hright => safe_combine hgood hleft hright

theorem SlotRef.safe_resolve {slot : SlotRef} (hslot : slot.WellFormed names) :
    Safe p good slot.resolve (· < p.tape.length) := by
  refine (safe_locate (hp.slot _ hslot.1)).bind fun base hbase => ?_
  split
  · exact keeps_pure hbase
  · rename_i offset hoffset
    exact (Expr.safe_eval hp hgood (hslot.2 offset hoffset)).bind fun shift _ =>
      safe_displace base shift

theorem safe_assign {target : SlotRef} {value : Expr} (htarget : target.WellFormed names)
    (hvalue : value.WellFormed names) : Safe p good (assign target value) fun _ => True := by
  refine (SlotRef.safe_resolve hp hgood htarget).bind fun index hindex => ?_
  refine (Expr.safe_eval hp hgood hvalue).bind fun result hresult => ?_
  refine (safe_update fun memory hmemory => hmemory.writeSlot index hresult).bind fun _ _ => ?_
  exact safe_record (by simpa [Event.values] using hresult) hindex

/-- Carrying out a statement keeps the invariant, and only a header is followed by its block. -/
theorem safe_perform {statement : Statement} (hstatement : statement.action.WellFormed names) :
    Safe p good (Run.perform p statement) fun onward =>
      onward = .enterBlock → statement.opens?.isSome = true := by
  obtain ⟨action, span⟩ := statement
  cases action with
  | assign target value =>
      exact (safe_assign hp hgood hstatement.1 hstatement.2).bind fun _ _ => keeps_pure (by simp)
  | evaluate equation =>
      exact (Expr.safe_eval hp hgood hstatement).bind fun _ _ => keeps_pure (by simp)
  | ifTrue condition =>
      exact (Expr.safe_eval hp hgood hstatement).bind fun _ _ => keeps_pure fun _ => rfl
  | whileTrue condition =>
      exact (Expr.safe_eval hp hgood hstatement).bind fun _ _ => keeps_pure fun _ => rfl
  | otherwise => exact keeps_pure fun _ => rfl
  | jump label =>
      obtain ⟨line, hline⟩ := Option.isSome_iff_exists.mp (hp.label _ hstatement)
      simp only [Run.perform, hline]
      exact keeps_pure (by simp)

end Statements

end TapePuzzle
