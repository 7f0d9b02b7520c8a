import TapePuzzle.Proofs.Execution.Evaluation

/-!
# What a line writes down is what it does

A line changes the memory by small operations, and writes an event into the journal for each of
them. `Event.Does` says what the event tells of the memory before and after. Main statement:
carrying out a statement of any program, sound or not, is a series of such operations, and so it
never takes back an output and never writes down a halt by itself.
-/

namespace TapePuzzle

/-- The operation that is written down as an event takes the first memory to the second. -/
inductive Event.Does : Event → Memory → Memory → Prop where
  | load {m : Memory} {index : Nat} {slot : Slot} (h : m.tape[index]? = some slot) :
      Does (.load index slot.value) m m
  | store (m : Memory) (index : Nat) (value : Int) :
      Does (.store index value) m (m.writeSlot index value)
  | arithmetic {op : BinaryOp} {left right result : Int} (m : Memory)
      (h : op.apply left right = .ok result) : Does (.arithmetic op left right result) m m
  | shortCircuit {op : BinaryOp} {left result : Int} (m : Memory)
      (h : op.decided? left = some result) : Does (.shortCircuit op left result) m m
  | unary (m : Memory) (op : UnaryOp) (operand : Int) :
      Does (.unary op operand (op.apply operand)) m m
  | push {m : Memory} {name : String} {object : Container} (h : m.object? name = some object)
      (value : Int) : Does (.push name value) m (m.writeObject name (object.values ++ [value]))
  | takeFirst {m : Memory} {name : String} {object : Container} {value : Int} {rest : List Int}
      (h : m.object? name = some object) (hvalues : object.values = value :: rest) :
      Does (.take name value) m (m.writeObject name rest)
  | takeLast {m : Memory} {name : String} {object : Container} {value : Int}
      (h : m.object? name = some object) (hvalues : object.values.getLast? = some value) :
      Does (.take name value) m (m.writeObject name object.values.dropLast)
  | examine {m : Memory} {name : String} {object : Container} (h : m.object? name = some object) :
      Does (.examine name object.values.length) m m
  | input {m : Memory} {value : Int} {rest : List Int} (h : m.input = value :: rest) :
      Does (.input value) m { m with input := rest }
  | output (m : Memory) (value : Int) :
      Does (.output value) m { m with output := m.output ++ [value] }

/-- The second machine results from the first by operations that are all written down. -/
inductive Machine.Writes : Machine → Machine → Prop where
  | refl (m : Machine) : Writes m m
  | step {m m' : Machine} {memory : Memory} {event : Event} (h : event.Does m.memory memory)
      (hrest : Writes ⟨memory, m.events ++ [event]⟩ m') : Writes m m'

def Event.isHalt : Event → Bool
  | halt _ => true
  | load _ _ | store _ _ | arithmetic _ _ _ _ | shortCircuit _ _ _ | unary _ _ _ | push _ _
  | take _ _ | examine _ _ | input _ | output _ => false

theorem Event.Does.prefix_output {event : Event} {m m' : Memory} (h : event.Does m m') :
    m.output <+: m'.output := by
  cases h with
  | output value => exact List.prefix_append _ _
  | load | store | arithmetic | shortCircuit | unary | push | takeFirst | takeLast | examine
  | input => exact List.prefix_rfl

theorem Event.Does.isHalt_eq {event : Event} {m m' : Memory} (h : event.Does m m') :
    event.isHalt = false := by
  cases h <;> rfl

namespace Machine.Writes

variable {m m' m'' : Machine}

theorem trans (h : m.Writes m') (h' : m'.Writes m'') : m.Writes m'' := by
  induction h with
  | refl m => exact h'
  | step hdoes _ ih => exact .step hdoes (ih h')

theorem single {memory : Memory} {event : Event} (h : event.Does m.memory memory) :
    m.Writes ⟨memory, m.events ++ [event]⟩ :=
  .step h (.refl _)

/-- Output is only ever appended. -/
theorem prefix_output (h : m.Writes m') : m.memory.output <+: m'.memory.output := by
  induction h with
  | refl m => exact List.prefix_rfl
  | step hdoes _ ih => exact hdoes.prefix_output.trans ih

theorem isHalt_eq (h : m.Writes m') (hevents : ∀ event ∈ m.events, event.isHalt = false) :
    ∀ event ∈ m'.events, event.isHalt = false := by
  induction h with
  | refl m => exact hevents
  | step hdoes _ ih =>
      apply ih
      intro event hevent
      rcases List.mem_append.mp hevent with hevent | hevent
      · exact hevents event hevent
      · rw [List.mem_singleton.mp hevent]
        exact hdoes.isHalt_eq

end Machine.Writes

/-! ## Computations -/

namespace Eval

variable {α β : Type}

/-- From every machine, all that the computation does is written down. -/
def Journals (x : Eval α) : Prop := ∀ m : Machine, m.Writes (x.run m).2

theorem journals_pure (value : α) : Journals (pure value) := .refl

theorem journals_throw (stop : Stop) : Journals (throw stop : Eval α) := .refl

theorem Journals.bind {x : Eval α} {next : α → Eval β} (hx : Journals x)
    (hnext : ∀ value, Journals (next value)) : Journals (x >>= next) := by
  intro m
  have hfirst := hx m
  rw [run_bind]
  rcases hrun : x.run m with ⟨result, m'⟩
  rw [hrun] at hfirst
  cases result with
  | ok value => exact hfirst.trans (hnext value m')
  | error stop => exact hfirst

/-- What a computation does with the memory that it reads may depend on this memory. -/
theorem journals_memory_bind {next : Memory → Eval β}
    (h : ∀ m : Machine, m.Writes ((next m.memory).run m).2) : Journals (memory >>= next) := h

/-- Looking for an object changes nothing. -/
theorem run_object (name : String) (m : Machine) :
    (object name).run m =
      match m.memory.object? name with
      | some found => (.ok found, m)
      | none => (.error (.fault (.defect (.unknownObject name))), m) := by
  have hmemory : memory.run m = (.ok m.memory, m) := rfl
  simp only [object, run_bind, hmemory]
  cases m.memory.object? name <;> rfl

theorem journals_object_bind {name : String} {next : Container → Eval β}
    (h : ∀ (m : Machine) (found : Container), m.memory.object? name = some found →
      m.Writes ((next found).run m).2) :
    Journals (object name >>= next) := by
  intro m
  rw [run_bind, run_object]
  cases hfound : m.memory.object? name with
  | none => exact .refl m
  | some found => exact h m found hfound

theorem writes_record {m : Machine} {event : Event} (h : event.Does m.memory m.memory)
    (value : α) : m.Writes ((do record event; return value : Eval α).run m).2 :=
  .single h

theorem writes_update_record {m : Machine} {f : Memory → Memory} {event : Event}
    (h : event.Does m.memory (f m.memory)) (value : α) :
    m.Writes ((do update f; record event; return value : Eval α).run m).2 :=
  .single h

/-! ## Operations -/

theorem journals_locate (name : String) : Journals (locate name) := by
  refine journals_memory_bind fun m => ?_
  split
  · exact .refl m
  · exact .refl m

theorem journals_displace (base : Nat) (offset : Int) : Journals (displace base offset) := by
  refine journals_memory_bind fun m => ?_
  dsimp only
  split
  · exact .refl m
  · exact .refl m

theorem journals_loadSlot (index : Nat) : Journals (loadSlot index) := by
  refine journals_memory_bind fun m => ?_
  split
  · rename_i slot hslot
    exact writes_record (.load hslot) slot.value
  · exact .refl m

theorem journals_takeInput : Journals takeInput := by
  refine journals_memory_bind fun m => ?_
  split
  · exact .refl m
  · rename_i value rest hinput
    exact writes_update_record (.input hinput) value

theorem journals_writeOutput (value : Int) : Journals (writeOutput value) := by
  intro m
  exact writes_update_record (.output m.memory value) value

theorem journals_pushValue (name : String) (value : Int) : Journals (pushValue name value) := by
  refine journals_object_bind fun m found hfound => ?_
  dsimp only
  split
  · exact .refl m
  · exact writes_update_record (.push hfound value) value

theorem journals_takeFirst (name : String) (stop : Stop) : Journals (takeFirst name stop) := by
  refine journals_object_bind fun m found hfound => ?_
  split
  · exact .refl m
  · rename_i value rest hvalues
    exact writes_update_record (.takeFirst hfound hvalues) value

theorem journals_takeLast (name : String) (stop : Stop) : Journals (takeLast name stop) := by
  refine journals_object_bind fun m found hfound => ?_
  dsimp only
  split
  · exact .refl m
  · rename_i value hvalues
    exact writes_update_record (.takeLast hfound hvalues) value

theorem journals_examine (name : String) : Journals (examine name) :=
  journals_object_bind fun _ _ hfound => writes_record (.examine hfound) _

theorem journals_callMethod (name : String) (verb : Method) : Journals (callMethod name verb) := by
  cases verb with
  | pop => exact journals_takeLast name _
  | dequeue | next => exact journals_takeFirst name _
  | length => exact journals_examine name
  | push | enqueue => exact journals_throw _

theorem journals_callMethodWith (name : String) (verb : Method) (argument : Int) :
    Journals (callMethodWith name verb argument) := by
  cases verb with
  | push | enqueue => exact journals_pushValue name argument
  | pop | dequeue | next | length => exact journals_callMethod name _

theorem journals_callFunction (function : Builtin) : Journals (callFunction function) := by
  cases function with
  | input => exact journals_takeInput
  | finish | output => exact journals_throw _

theorem journals_callFunctionWith (function : Builtin) (argument : Int) :
    Journals (callFunctionWith function argument) := by
  cases function with
  | output => exact journals_writeOutput argument
  | input | finish => exact journals_callFunction _

theorem journals_combine (op : BinaryOp) (left right : Int) : Journals (combine op left right) := by
  unfold combine
  split
  · exact journals_throw _
  · rename_i result happly
    exact fun m => writes_record (.arithmetic m.memory happly) result

end Eval

open Eval

theorem Expr.journals_eval (e : Expr) : Journals e.eval := by
  induction e with
  | number value span => exact journals_pure value
  | slot name reference span => exact (journals_locate _).bind journals_loadSlot
  | slotAt name offset reference span ih =>
      refine (journals_locate _).bind fun base => ih.bind fun shift => ?_
      exact (journals_displace base shift).bind journals_loadSlot
  | call function span => exact journals_callFunction function
  | callWith function argument span ih => exact ih.bind (journals_callFunctionWith function)
  | method object verb span => exact journals_callMethod object.name verb
  | methodWith object verb argument span ih =>
      exact ih.bind (journals_callMethodWith object.name verb)
  | unary op operand span ih =>
      exact ih.bind fun value m => writes_record (.unary m.memory op value) _
  | binary left op right span ihLeft ihRight =>
      refine ihLeft.bind fun leftValue => ?_
      split
      · rename_i result hdecided
        exact fun m => writes_record (.shortCircuit m.memory hdecided) result
      · exact ihRight.bind (journals_combine op leftValue)

theorem SlotRef.journals_resolve (slot : SlotRef) : Journals slot.resolve := by
  refine (journals_locate _).bind fun base => ?_
  split
  · exact journals_pure base
  · rename_i offset _
    exact offset.journals_eval.bind (journals_displace base)

theorem journals_assign (target : SlotRef) (value : Expr) : Journals (assign target value) := by
  refine target.journals_resolve.bind fun index => value.journals_eval.bind fun result m => ?_
  exact writes_update_record (.store m.memory index result) ()

/-- All that a statement does is written down, whatever way it ends. -/
theorem Run.journals_perform (program : Program) (statement : Statement) :
    Journals (perform program statement) := by
  obtain ⟨action, span⟩ := statement
  cases action with
  | assign target value => exact (journals_assign target value).bind fun _ => journals_pure _
  | evaluate equation => exact equation.journals_eval.bind fun _ => journals_pure _
  | ifTrue condition | whileTrue condition =>
      exact condition.journals_eval.bind fun _ => journals_pure _
  | otherwise => exact journals_pure _
  | jump label =>
      simp only [perform]
      split
      · exact journals_pure _
      · exact journals_throw _

end TapePuzzle
