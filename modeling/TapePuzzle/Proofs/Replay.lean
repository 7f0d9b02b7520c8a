import TapePuzzle.Proofs.Execution.Journal
import TapePuzzle.Proofs.Execution.Progress
import TapePuzzle.Proofs.Execution.Runs
import TapePuzzle.Proofs.Reading.NameRoles

/-!
# Replaying the journal of a step

The events of a step can be replayed on the memory before it: some of them change it, and some of
them say what is in it at their moment. Main statement: in every run of a valid program, replaying
the events of a step gives the memory after the step, and whatever they say on the way is true,
however the step ends.

Which value leaves an object is not part of the event. It follows from the kind of the object,
because the names of a valid program only have methods of their objects.
-/

namespace TapePuzzle

/-! ## Replaying events -/

/-- The value that leaves an object of the kind next. -/
def ObjectKind.next? : ObjectKind → List Int → Option Int
  | .stack, values => values.getLast?
  | .queue, values => values.head?
  | .feed, values => values.head?

/-- The values that stay when the next one leaves. -/
def ObjectKind.rest : ObjectKind → List Int → List Int
  | .stack, values => values.dropLast
  | .queue, values => values.tail
  | .feed, values => values.tail

/-- Changes the values of the object called `name`, if there is one. -/
def Memory.changeObject (m : Memory) (name : String) (change : Container → List Int) : Memory :=
  match m.object? name with
  | none => m
  | some object => m.writeObject name (change object)

theorem Memory.changeObject_eq {m : Memory} {name : String} {object : Container}
    (h : m.object? name = some object) (change : Container → List Int) :
    m.changeObject name change = m.writeObject name (change object) := by
  rw [changeObject, h]

namespace Event

/-- The memory after an event that is replayed. -/
def replay : Event → Memory → Memory
  | store slot value, m => m.writeSlot slot value
  | push name value, m => m.changeObject name fun object => object.values ++ [value]
  | take name _, m => m.changeObject name fun object => object.kind.rest object.values
  | input _, m => { m with input := m.input.tail }
  | output value, m => { m with output := m.output ++ [value] }
  | load _ _, m | arithmetic _ _ _ _, m | shortCircuit _ _ _, m | unary _ _ _, m | examine _ _, m
  | halt _, m => m

/-- What the event says of the memory it is replayed on: the value that a slot has, the value that
    leaves the input or an object, the length of an object. What is written to is there. -/
def TrueOf (m : Memory) : Event → Prop
  | load slot value => ∃ held, m.tape[slot]? = some held ∧ held.value = value
  | store slot _ => slot < m.tape.length
  | push name _ => ∃ object, m.object? name = some object
  | take name value =>
      ∃ object, m.object? name = some object ∧ object.kind.next? object.values = some value
  | examine name value => ∃ object, m.object? name = some object ∧ value = object.values.length
  | input value => m.input.head? = some value
  | output _ | arithmetic _ _ _ _ | shortCircuit _ _ _ | unary _ _ _ | halt _ => True

end Event

/-- The memory after events that are replayed in order. -/
def Memory.replay (m : Memory) (events : List Event) : Memory :=
  events.foldl (fun m event => event.replay m) m

@[simp] theorem Memory.replay_concat (m : Memory) (events : List Event) (event : Event) :
    m.replay (events ++ [event]) = event.replay (m.replay events) := by
  simp [replay, List.foldl_append]

/-- Replaying the journal on the memory `start` gives the memory of the machine, and every event is
    true of the memory that it is replayed on. -/
structure Machine.Retells (start : Memory) (m : Machine) : Prop where
  memory : start.replay m.events = m.memory
  isTrue : ∀ earlier event later, m.events = earlier ++ event :: later →
    event.TrueOf (start.replay earlier)

namespace Machine.Retells

variable {start : Memory} {m : Machine}

theorem nil (start : Memory) : Machine.Retells start ⟨start, []⟩ := ⟨rfl, by simp⟩

/-- One more event is written down for what is done. -/
theorem record (h : m.Retells start) {event : Event} {memory : Memory}
    (hmemory : event.replay m.memory = memory) (htrue : event.TrueOf m.memory) :
    Machine.Retells start ⟨memory, m.events ++ [event]⟩ := by
  refine ⟨?_, ?_⟩
  · rw [Memory.replay_concat, h.memory, hmemory]
  · intro earlier event' later heq
    rcases List.eq_nil_or_concat later with rfl | ⟨before, last, rfl⟩
    · obtain ⟨rfl, hevent⟩ := List.append_inj' heq rfl
      cases hevent
      rw [h.memory]
      exact htrue
    · have hsplit : m.events = earlier ++ event' :: before := by
        have hassoc : earlier ++ event' :: (before ++ [last]) =
            (earlier ++ event' :: before) ++ [last] := by simp
        rw [List.concat_eq_append, hassoc] at heq
        exact (List.append_inj' heq rfl).1
      exact h.isTrue earlier event' before hsplit

end Machine.Retells

/-! ## Operations -/

theorem map_kind_findObject? {objects objects' : List Container}
    (h : objects.map (fun object => (object.name, object.kind)) =
      objects'.map fun object => (object.name, object.kind)) (name : String) :
    (findObject? objects name).map Container.kind =
      (findObject? objects' name).map Container.kind := by
  induction objects generalizing objects' with
  | nil =>
      obtain rfl : objects' = [] := by simpa using h.symm
      rfl
  | cons object objects ih =>
      cases objects' with
      | nil => cases h
      | cons object' objects' =>
          rw [List.map_cons, List.map_cons, List.cons.injEq, Prod.mk.injEq] at h
          obtain ⟨⟨hname, hkind⟩, hrest⟩ := h
          have hmore := ih hrest
          unfold findObject? at hmore ⊢
          rw [List.find?_cons, List.find?_cons, hname]
          split
          · exact congrArg some hkind
          · exact hmore

namespace Eval

variable {p : Program} {start : Memory} {α β : Type}

/-- The computation keeps the invariant of the program, and its journal goes on retelling what was
    done since the memory was `start`. -/
def Tells (p : Program) (start : Memory) (x : Eval α) (post : α → Prop) : Prop :=
  Keeps (fun m => m.Fits p (fun _ => True) ∧ m.Retells start) (Stop.Fits p) x post

/-- From every machine that fits the program, the journal goes on retelling what was done. -/
def GoesOn (p : Program) (start : Memory) (x : Eval α) : Prop :=
  ∀ m : Machine, m.Fits p (fun _ => True) → m.Retells start → (x.run m).2.Retells start

theorem Safe.tells {x : Eval α} {post : α → Prop} (h : Safe p (fun _ => True) x post)
    (hx : GoesOn p start x) : Tells p start x post := by
  intro m hm
  obtain ⟨hfits, hpost⟩ := h m hm.1
  exact ⟨⟨hfits, hx m hm.1 hm.2⟩, hpost⟩

theorem goesOn_throw (stop : Stop) : GoesOn p start (throw stop : Eval α) := fun _ _ h => h

theorem goesOn_memory_bind {next : Memory → Eval β}
    (h : ∀ m : Machine, m.Fits p (fun _ => True) → m.Retells start →
      ((next m.memory).run m).2.Retells start) : GoesOn p start (memory >>= next) := h

theorem goesOn_object_bind {name : String} {next : Container → Eval β}
    (h : ∀ (m : Machine) (found : Container), m.Fits p (fun _ => True) → m.Retells start →
      m.memory.object? name = some found → ((next found).run m).2.Retells start) :
    GoesOn p start (object name >>= next) := by
  intro m hfits hm
  rw [run_bind, run_object]
  cases hfound : m.memory.object? name with
  | none => exact hm
  | some found => exact h m found hfits hm hfound

/-- An event that says nothing of the memory is written down. -/
theorem tells_record_pure {event : Event} (value : Int) (haccurate : event.Accurate p)
    (hmemory : ∀ m, event.replay m = m) (htrue : ∀ m, event.TrueOf m) :
    Tells p start (do record event; return value) fun _ => True :=
  (safe_record_pure (fun _ _ => trivial) haccurate trivial).tells fun m _ hm =>
    hm.record (hmemory m.memory) (htrue m.memory)

theorem goesOn_locate (name : String) : GoesOn p start (locate name) := by
  refine goesOn_memory_bind fun m _ hm => ?_
  split <;> exact hm

theorem goesOn_displace (base : Nat) (offset : Int) : GoesOn p start (displace base offset) := by
  refine goesOn_memory_bind fun m _ hm => ?_
  dsimp only
  split <;> exact hm

theorem goesOn_loadSlot (index : Nat) : GoesOn p start (loadSlot index) := by
  refine goesOn_memory_bind fun m _ hm => ?_
  split
  · rename_i slot hslot
    exact hm.record rfl ⟨slot, hslot, rfl⟩
  · exact hm

theorem goesOn_takeInput : GoesOn p start takeInput := by
  refine goesOn_memory_bind fun m _ hm => ?_
  split
  · exact hm
  · rename_i value rest hinput
    refine hm.record ?_ ?_
    · simp [Event.replay, hinput]
    · simp [Event.TrueOf, hinput]

theorem goesOn_writeOutput (value : Int) : GoesOn p start (writeOutput value) :=
  fun _ _ hm => hm.record rfl trivial

theorem goesOn_pushValue (name : String) (value : Int) : GoesOn p start (pushValue name value) := by
  refine goesOn_object_bind fun m found _ hm hfound => ?_
  dsimp only
  split
  · exact hm
  · exact hm.record (Memory.changeObject_eq hfound _) ⟨found, hfound⟩

theorem goesOn_examine (name : String) : GoesOn p start (examine name) :=
  goesOn_object_bind fun _ found _ hm hfound => hm.record rfl ⟨found, hfound, rfl⟩

theorem goesOn_combine (op : BinaryOp) (left right : Int) :
    GoesOn p start (combine op left right) := by
  unfold combine
  split
  · exact goesOn_throw _
  · exact fun _ _ hm => hm.record rfl trivial

/-- The name stands for an object whose kind is known from the program. -/
theorem kind_of_fits {m : Machine} (hfits : m.Fits p fun _ => True) {name : String}
    {declared found : Container} (hdeclared : p.object? name = some declared)
    (hfound : m.memory.object? name = some found) : found.kind = declared.kind := by
  have hkinds := map_kind_findObject? hfits.memory.objectNames name
  rw [← Program.object?, hdeclared, ← Memory.object?, hfound] at hkinds
  exact Option.some.inj hkinds

theorem goesOn_takeFirst {name : String} {declared : Container}
    (hdeclared : p.object? name = some declared) (hkind : declared.kind ≠ .stack) (stop : Stop) :
    GoesOn p start (takeFirst name stop) := by
  refine goesOn_object_bind fun m found hfits hm hfound => ?_
  have hfoundKind : found.kind ≠ .stack := kind_of_fits hfits hdeclared hfound ▸ hkind
  split
  · exact hm
  · rename_i value rest hvalues
    refine hm.record ((Memory.changeObject_eq hfound _).trans ?_) ⟨found, hfound, ?_⟩
    · cases hkind : found.kind <;> simp_all [ObjectKind.rest]
    · cases hkind : found.kind <;> simp_all [ObjectKind.next?]

theorem goesOn_takeLast {name : String} {declared : Container}
    (hdeclared : p.object? name = some declared) (hkind : declared.kind = .stack) (stop : Stop) :
    GoesOn p start (takeLast name stop) := by
  refine goesOn_object_bind fun m found hfits hm hfound => ?_
  have hfoundKind : found.kind = .stack := (kind_of_fits hfits hdeclared hfound).trans hkind
  dsimp only
  split
  · exact hm
  · rename_i value hvalues
    refine hm.record ((Memory.changeObject_eq hfound _).trans ?_) ⟨found, hfound, ?_⟩
    · rw [hfoundKind, ObjectKind.rest]
    · rw [hfoundKind, ObjectKind.next?, hvalues]

end Eval

open Eval

/-! ## Statements -/

/-- The method takes its value from the end that the kind of the object says. -/
theorem goesOn_callMethod {p : Program} {names : Names} {start : Memory}
    (hmethods : p.HasMethods names) {name : String} {verb : Method}
    (h : names.HasMethod name verb) : GoesOn p start (callMethod name verb) := by
  obtain ⟨declared, hdeclared, hverb⟩ := hmethods name verb h
  cases verb with
  | pop =>
      refine goesOn_takeLast hdeclared ?_ _
      cases hkind : declared.kind <;> simp_all [ObjectKind.methods]
  | dequeue | next =>
      refine goesOn_takeFirst hdeclared ?_ _
      intro hkind
      simp_all [ObjectKind.methods]
  | length => exact goesOn_examine name
  | push | enqueue => exact goesOn_throw _

section Statements

variable {p : Program} {names : Names} {start : Memory} (hp : p.Sound names)
  (hmethods : p.HasMethods names)

include hp hmethods

theorem Expr.tells_eval {e : Expr} (he : e.WellFormed names) :
    Tells p start e.eval fun _ => True := by
  induction e with
  | number value span => exact keeps_pure trivial
  | slot name reference span =>
      refine ((safe_locate (hp.slot _ he)).tells (goesOn_locate _)).bind fun base hbase => ?_
      exact (safe_loadSlot hbase).tells (goesOn_loadSlot base)
  | slotAt name offset reference span ih =>
      refine ((safe_locate (hp.slot _ he.1)).tells (goesOn_locate _)).bind fun base _ => ?_
      refine (ih he.2).bind fun shift _ => ?_
      refine ((safe_displace base shift).tells (goesOn_displace base shift)).bind ?_
      exact fun index hindex => (safe_loadSlot hindex).tells (goesOn_loadSlot index)
  | call function span =>
      refine (safe_callFunction he).tells ?_
      cases function with
      | input => exact goesOn_takeInput
      | finish | output => exact goesOn_throw _
  | callWith function argument span ih =>
      refine (ih he.2).bind fun value _ => (safe_callFunctionWith he.1 trivial).tells ?_
      cases function with
      | output => exact goesOn_writeOutput value
      | input | finish => cases he.1
  | method object verb span =>
      exact (safe_callMethod valueClass_true (hp.object _ _ he.1) he.2).tells
        (goesOn_callMethod hmethods he.1)
  | methodWith object verb argument span ih =>
      refine (ih he.2.2).bind fun value _ => ?_
      refine (safe_callMethodWith (hp.object _ _ he.1) he.2.1 trivial).tells ?_
      cases verb with
      | push | enqueue => exact goesOn_pushValue object.name value
      | pop | dequeue | next | length => cases he.2.1
  | unary op operand span ih =>
      refine (ih he).bind fun value _ => ?_
      exact tells_record_pure _ rfl (fun _ => rfl) fun _ => trivial
  | binary left op right span ihLeft ihRight =>
      refine (ihLeft he.1).bind fun leftValue _ => ?_
      split
      · rename_i result hdecided
        exact tells_record_pure result hdecided (fun _ => rfl) fun _ => trivial
      · refine (ihRight he.2).bind fun rightValue _ => ?_
        exact (safe_combine valueClass_true trivial trivial).tells (goesOn_combine _ _ _)

theorem SlotRef.tells_resolve {slot : SlotRef} (hslot : slot.WellFormed names) :
    Tells p start slot.resolve (· < p.tape.length) := by
  refine ((safe_locate (hp.slot _ hslot.1)).tells (goesOn_locate _)).bind fun base hbase => ?_
  split
  · exact keeps_pure hbase
  · rename_i offset hoffset
    refine (Expr.tells_eval hp hmethods (hslot.2 offset hoffset)).bind fun shift _ => ?_
    exact (safe_displace base shift).tells (goesOn_displace base shift)

theorem tells_assign {target : SlotRef} {value : Expr} (htarget : target.WellFormed names)
    (hvalue : value.WellFormed names) : Tells p start (assign target value) fun _ => True := by
  refine (SlotRef.tells_resolve hp hmethods htarget).bind fun index hindex => ?_
  refine (Expr.tells_eval hp hmethods hvalue).bind fun result _ => ?_
  have hsafe : Safe p (fun _ => True)
      (do update (·.writeSlot index result); record (.store index result)) fun _ => True :=
    (safe_update fun memory hmemory => hmemory.writeSlot index trivial).bind fun _ _ =>
      safe_record (by simp) hindex
  refine hsafe.tells fun m hfits hm => hm.record rfl ?_
  rw [Event.TrueOf, hfits.memory.length_tape]
  exact hindex

theorem tells_perform {statement : Statement} (hstatement : statement.action.WellFormed names) :
    Tells p start (Run.perform p statement) fun _ => True := by
  obtain ⟨action, span⟩ := statement
  cases action with
  | assign target value =>
      exact (tells_assign hp hmethods hstatement.1 hstatement.2).bind fun _ _ => keeps_pure trivial
  | evaluate equation =>
      exact (Expr.tells_eval hp hmethods hstatement).bind fun _ _ => keeps_pure trivial
  | ifTrue condition | whileTrue condition =>
      exact (Expr.tells_eval hp hmethods hstatement).bind fun _ _ => keeps_pure trivial
  | otherwise => exact keeps_pure trivial
  | jump label =>
      obtain ⟨line, hline⟩ := Option.isSome_iff_exists.mp (hp.label _ hstatement)
      simp only [Run.perform, hline]
      exact keeps_pure trivial

end Statements

/-! ## Steps -/

namespace Run

variable {p : Program} {names : Names} {start : Memory} {r : Run}

/-- The events of the latest step retell what was done since the memory was `start`. -/
def Retells (start : Memory) (r : Run) : Prop := Machine.Retells start ⟨r.memory, r.events⟩

theorem Retells.settle (h : r.Retells start) (stop : Stop) : (r.settle stop).Retells start := by
  cases stop with
  | fault fault => exact h
  | halt halt =>
      have hhalt : Machine.Retells start ⟨r.memory, r.events ++ [Event.halt halt]⟩ :=
        Machine.Retells.record h rfl trivial
      unfold Run.settle
      dsimp only
      split <;> exact hhalt

theorem Retells.checkOutput (h : r.Retells start) : r.checkOutput.Retells start := by
  unfold Run.checkOutput
  split <;> exact h

section Step

variable (hp : p.Sound names) (hmethods : p.HasMethods names)

include hp hmethods

theorem retells_executeLine (h : r.Sound p fun _ => True) {index : Nat}
    (hposition : r.control.position = some index) (hevents : r.events = []) :
    (r.executeLine index).Retells r.memory := by
  obtain rfl := h.program
  obtain ⟨⟨statement, hline⟩, -⟩ := h.control.standing index hposition
  have hmem : ⟨index, r.control.blocks.length, statement⟩ ∈ r.program.code := by
    unfold Program.code
    rw [exists_split_of_getElem? hline]
    simp
  have hmachine : (Machine.mk r.memory []).Fits r.program fun _ => True := hevents ▸ h.machine
  have hperform := tells_perform hp hmethods (hp.statements _ hmem) _ ⟨hmachine, .nil r.memory⟩
  unfold Run.executeLine
  rw [hline]
  simp only [Option.bind_some, Line.statement?]
  rcases hrun : (Run.perform r.program statement).run ⟨r.memory, []⟩ with ⟨result, machine⟩
  rw [hrun] at hperform
  have hretells : Retells r.memory { r with memory := machine.memory, events := machine.events } :=
    hperform.1.2
  cases result with
  | error stop => exact hretells.settle stop
  | ok onward => exact hretells

theorem retells_executeNext (h : r.Sound p fun _ => True) (hcode : p.code ≠ [])
    (hevents : r.events = []) : r.executeNext.Retells r.memory := by
  obtain ⟨index, blocks, hnext, hstanding⟩ := h.control.next hp.nested hcode
  rw [← h.program] at hnext
  unfold executeNext
  rw [hnext]
  dsimp only
  split
  · refine Retells.settle ?_ _
    rw [Retells, hevents]
    exact .nil r.memory
  · exact retells_executeLine hp hmethods (h.advance hstanding) rfl hevents

/-- Whatever the step comes to, its events retell it. -/
theorem retells_step (h : r.Sound p fun _ => True) : r.step.Retells r.memory := by
  have hnothing : Machine.Retells r.memory ⟨r.memory, []⟩ := .nil r.memory
  refine Retells.checkOutput ?_
  unfold plainStep
  dsimp only
  split
  · exact hnothing
  · split
    · exact hnothing
    · rename_i hcode
      refine retells_executeNext hp hmethods h.clear ?_ rfl
      rw [← Program.hasCode_iff, ← h.program]
      simpa using hcode

end Step

end Run

/-- From whatever state a run of a valid program has come to, and however the next step ends:
    replaying the events of the step on the memory before it gives the memory after it. On the way,
    every event is true of the memory that it is replayed on. -/
theorem Run.replay_events_step (text : List Char) (hvalid : (Program.read text).isValid = true)
    (case : TestCase) (limit count : Nat) :
    let before := Run.after (Program.read text) case limit count
    let after := before.step
    before.memory.replay after.events = after.memory ∧
      ∀ earlier event later, after.events = earlier ++ event :: later →
        event.TrueOf (before.memory.replay earlier) := by
  intro before after
  obtain ⟨names, hp, hmethods⟩ := Program.exists_hasMethods_read hvalid
  have hretells : after.Retells before.memory :=
    Run.retells_step hp hmethods (Run.sound_after_of_sound hp hvalid case limit count)
  exact ⟨hretells.memory, hretells.isTrue⟩

/-- A text whose only line takes from a queue and from a stack, and then stops at an empty feed. -/
def takeFromAll : List Char :=
  ("tally 1\n.data\ntapelength 2\n0 n 1\nqueue q 4 5\nstack s 6 7\nfeed f\n.text\n" ++
    "n[q.dequeue() - 3] = s.pop() + output(n) + f.next()\n").toList

theorem Run.replay_events_step_takeFromAll :
    let before := Run.after (Program.read takeFromAll) {} 9 0
    (Program.read takeFromAll).isValid = true ∧
      before.step.events =
        [.take "q" 4, .arithmetic .subtract 4 3 1, .take "s" 7, .load 0 1, .output 1,
          .arithmetic .add 7 1 8, .halt (.feedExhausted "f")] ∧
      before.memory.replay before.step.events = before.step.memory ∧
      before.step.memory.objects =
        [⟨"q", .queue, [5]⟩, ⟨"s", .stack, [6]⟩, ⟨"f", .feed, []⟩] := by
  intro before
  have hrun : (Program.read takeFromAll).isValid = true ∧
      before.step.events =
        [.take "q" 4, .arithmetic .subtract 4 3 1, .take "s" 7, .load 0 1, .output 1,
          .arithmetic .add 7 1 8, .halt (.feedExhausted "f")] ∧
      before.step.memory.objects =
        [⟨"q", .queue, [5]⟩, ⟨"s", .stack, [6]⟩, ⟨"f", .feed, []⟩] := by
    decide +kernel
  exact ⟨hrun.1, hrun.2.1, (Run.replay_events_step takeFromAll hrun.1 {} 9 0).1, hrun.2.2⟩

end TapePuzzle
