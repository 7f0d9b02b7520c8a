import TapePuzzle.Proofs.Execution.Progress

/-!
# The limit on executed lines

Nothing but its limit keeps a program from looping for ever. Main statements: every run of a valid
program ends after at most one line more than its limit, and the number of executed lines tells
whether it did so by the limit; and a run that ends in another way is the same under every higher
limit.
-/

namespace TapePuzzle

/-! ## Lines do not stop by the limit -/

/-- A stop that a line can come to by what it does. -/
def Stop.IsOwn : Stop → Prop
  | .fault (.lineLimit _) => False
  | .fault _ | .halt _ => True

namespace Eval

variable {α β : Type}

/-- Whatever the computation stops by, it is not the limit. -/
def Own (x : Eval α) : Prop := Keeps (fun _ => True) Stop.IsOwn x fun _ => True

theorem own_pure (value : α) : Own (pure value) := keeps_pure trivial

theorem own_throw {stop : Stop} (h : stop.IsOwn) : Own (throw stop : Eval α) := keeps_throw h

theorem Own.bind {x : Eval α} {next : α → Eval β} (hx : Own x) (hnext : ∀ value, Own (next value)) :
    Own (x >>= next) :=
  Keeps.bind hx fun value _ => hnext value

theorem own_memory : Own memory := keeps_memory fun _ _ => trivial

theorem own_update (f : Memory → Memory) : Own (update f) := keeps_update fun _ _ => trivial

theorem own_record (event : Event) : Own (record event) := keeps_record fun _ _ => trivial

theorem own_record_pure (event : Event) (value : α) : Own (do record event; return value) :=
  (own_record event).bind fun _ => own_pure value

theorem own_locate (name : String) : Own (locate name) := by
  refine own_memory.bind fun memory => ?_
  split
  · exact own_pure _
  · exact own_throw trivial

theorem own_displace (base : Nat) (offset : Int) : Own (displace base offset) := by
  refine own_memory.bind fun memory => ?_
  dsimp only
  split
  · exact own_pure _
  · exact own_throw trivial

theorem own_loadSlot (index : Nat) : Own (loadSlot index) := by
  refine own_memory.bind fun memory => ?_
  split
  · exact own_record_pure _ _
  · exact own_memory.bind fun memory => own_throw trivial

theorem own_takeInput : Own takeInput := by
  refine own_memory.bind fun memory => ?_
  split
  · exact own_throw trivial
  · exact (own_update _).bind fun _ => own_record_pure _ _

theorem own_writeOutput (value : Int) : Own (writeOutput value) :=
  (own_update _).bind fun _ => own_record_pure _ _

theorem own_object (name : String) : Own (object name) := by
  refine own_memory.bind fun memory => ?_
  split
  · exact own_pure _
  · exact own_throw trivial

theorem own_pushValue (name : String) (value : Int) : Own (pushValue name value) := by
  refine (own_object name).bind fun object => ?_
  dsimp only
  split
  · exact own_throw trivial
  · exact (own_update _).bind fun _ => own_record_pure _ _

theorem own_takeFirst (name : String) {stop : Stop} (h : stop.IsOwn) :
    Own (takeFirst name stop) := by
  refine (own_object name).bind fun object => ?_
  split
  · exact own_throw h
  · exact (own_update _).bind fun _ => own_record_pure _ _

theorem own_takeLast (name : String) {stop : Stop} (h : stop.IsOwn) : Own (takeLast name stop) := by
  refine (own_object name).bind fun object => ?_
  dsimp only
  split
  · exact own_throw h
  · exact (own_update _).bind fun _ => own_record_pure _ _

theorem own_examine (name : String) : Own (examine name) :=
  (own_object name).bind fun _ => own_record_pure _ _

theorem own_callMethod (name : String) (verb : Method) : Own (callMethod name verb) := by
  cases verb with
  | pop => exact own_takeLast name trivial
  | dequeue => exact own_takeFirst name trivial
  | next => exact own_takeFirst name trivial
  | length => exact own_examine name
  | push | enqueue => exact own_throw trivial

theorem own_callMethodWith (name : String) (verb : Method) (argument : Int) :
    Own (callMethodWith name verb argument) := by
  cases verb with
  | push | enqueue => exact own_pushValue name argument
  | pop | dequeue | next | length => exact own_callMethod name _

theorem own_callFunction (function : Builtin) : Own (callFunction function) := by
  cases function with
  | input => exact own_takeInput
  | finish | output => exact own_throw trivial

theorem own_callFunctionWith (function : Builtin) (argument : Int) :
    Own (callFunctionWith function argument) := by
  cases function with
  | output => exact own_writeOutput argument
  | input => exact own_callFunction .input
  | finish => exact own_callFunction .finish

theorem own_combine (op : BinaryOp) (left right : Int) : Own (combine op left right) := by
  unfold combine
  split
  · rename_i reason happly
    rcases BinaryOp.reason_of_apply_eq_error happly with rfl | rfl
    · exact own_throw trivial
    · exact own_throw trivial
  · exact own_record_pure _ _

end Eval

open Eval

theorem Expr.own_eval (e : Expr) : Own e.eval := by
  induction e with
  | number value s => exact own_pure value
  | slot name reference s => exact (own_locate _).bind fun base => own_loadSlot base
  | slotAt name offset reference s ih =>
      refine (own_locate _).bind fun base => ih.bind fun shift => ?_
      exact (own_displace base shift).bind fun index => own_loadSlot index
  | call function s => exact own_callFunction function
  | callWith function argument s ih =>
      exact ih.bind fun value => own_callFunctionWith function value
  | method object verb s => exact own_callMethod _ verb
  | methodWith object verb argument s ih =>
      exact ih.bind fun value => own_callMethodWith _ verb value
  | unary op operand s ih => exact ih.bind fun value => own_record_pure _ _
  | binary left op right s ihLeft ihRight =>
      refine ihLeft.bind fun leftValue => ?_
      split
      · exact own_record_pure _ _
      · exact ihRight.bind fun rightValue => own_combine op leftValue rightValue

theorem SlotRef.own_resolve (slot : SlotRef) : Own slot.resolve := by
  refine (own_locate _).bind fun base => ?_
  split
  · exact own_pure base
  · exact (Expr.own_eval _).bind fun shift => own_displace base shift

theorem Run.own_perform (p : Program) (statement : Statement) : Own (perform p statement) := by
  unfold perform
  split
  · rename_i target value _
    have hassign : Own (assign target value) :=
      target.own_resolve.bind fun index => value.own_eval.bind fun result =>
        (own_update _).bind fun _ => own_record _
    exact hassign.bind fun _ => own_pure _
  · exact (Expr.own_eval _).bind fun _ => own_pure _
  · exact (Expr.own_eval _).bind fun _ => own_pure _
  · exact (Expr.own_eval _).bind fun _ => own_pure _
  · exact own_pure _
  · split
    · exact own_pure _
    · exact own_throw trivial

/-! ## Counting lines -/

/-- A stage that a line can lead to. -/
def Stage.IsOwn : Stage → Prop
  | .new => False
  | .ended (.error reason) => (Stop.fault reason).IsOwn
  | .running | .ended _ => True

theorem Stage.IsOwn.ne_new {stage : Stage} (h : stage.IsOwn) : stage ≠ .new := by
  rintro rfl
  exact h

theorem Stage.IsOwn.ne_lineLimit {stage : Stage} (h : stage.IsOwn) (limit : Nat) :
    stage ≠ .ended (.error (.lineLimit limit)) := by
  rintro rfl
  exact h

theorem Stage.status_eq_new_iff (stage : Stage) : stage.status = .new ↔ stage = .new := by
  cases stage with
  | new => exact ⟨fun _ => rfl, fun _ => rfl⟩
  | running => simp [Stage.status]
  | ended ending => cases ending <;> simp [Stage.status]

theorem Stage.status_eq_running_iff (stage : Stage) :
    stage.status = .running ↔ stage = .running := by
  cases stage with
  | new => simp [Stage.status]
  | running => exact ⟨fun _ => rfl, fun _ => rfl⟩
  | ended ending => cases ending <;> simp [Stage.status]

namespace Run

variable {r : Run}

theorem isOwn_settle (r : Run) {stop : Stop} (h : stop.IsOwn) : (r.settle stop).stage.IsOwn := by
  cases stop with
  | fault reason => exact h
  | halt reason =>
      unfold settle
      dsimp only
      split
      · trivial
      · trivial

/-- All that carrying out a line can change. -/
theorem exists_executeLine (r : Run) (index : Nat) :
    ∃ memory events stage onward, Stage.IsOwn stage ∧
      r.executeLine index =
        { r with memory, events, stage, control := { r.control with onward } } := by
  unfold executeLine
  split
  · have hdefect : (Stop.fault (.defect (.notAStatement index))).IsOwn := trivial
    rw [settle_eq]
    exact ⟨_, _, _, _, isOwn_settle r hdefect, rfl⟩
  · rename_i statement _
    obtain ⟨-, hstop⟩ := own_perform r.program statement ⟨r.memory, []⟩ trivial
    rcases hrun : (perform r.program statement).run ⟨r.memory, []⟩ with ⟨result, machine⟩
    rw [hrun] at hstop
    cases result with
    | ok onward => exact ⟨machine.memory, machine.events, .running, onward, trivial, rfl⟩
    | error stop =>
        dsimp only
        rw [settle_eq]
        exact ⟨_, _, _, _, isOwn_settle _ hstop, rfl⟩

theorem isOwn_checkOutput (h : r.stage.IsOwn) : r.checkOutput.stage.IsOwn := by
  unfold checkOutput
  split
  · trivial
  · exact h

/-- A step to a next line counts this line. It is the limit that ends the run if the line is one too
    many, and something else or nothing if it is not. -/
theorem step_within {index : Nat} {blocks : List OpenBlock} (hover : r.isOver = false)
    (hcode : r.program.hasCode = true)
    (hnext : r.control.next r.program.lines = .ok (index, blocks)) :
    r.step.executed = r.executed + 1 ∧ r.step.limit = r.limit ∧
      if r.limit < r.executed + 1 then
        r.step.stage = .ended (.error (.lineLimit r.limit)) ∧ r.step.memory = r.memory
      else r.step.stage.IsOwn := by
  have hplain := plainStep_eq hover hcode hnext
  by_cases hlimit : r.limit < r.executed + 1
  · rw [if_pos hlimit] at hplain ⊢
    rw [step, hplain, checkOutput_of_isOver rfl]
    exact ⟨rfl, rfl, rfl, rfl⟩
  · rw [if_neg hlimit] at hplain ⊢
    obtain ⟨memory, events, stage, onward, hstage, heq⟩ :=
      (r.moveTo index blocks).exists_executeLine index
    rw [step, hplain, heq, executed_checkOutput, limit_checkOutput]
    exact ⟨rfl, rfl, isOwn_checkOutput hstage⟩

/-- The number of executed lines agrees with the stage of the run. -/
structure Counted (r : Run) : Prop where
  new : r.stage = .new ↔ r.executed = 0
  live : r.isOver = false → r.executed ≤ r.limit
  most : r.executed ≤ r.limit + 1
  limit : r.executed = r.limit + 1 ↔ r.stage = .ended (.error (.lineLimit r.limit))

theorem counted_start {p : Program} (hvalid : p.isValid = true) (case : TestCase) (limit : Nat) :
    (start p case limit).Counted := by
  have hstage : (start p case limit).stage = .new := by simp [start, hvalid]
  have hexecuted : (start p case limit).executed = 0 := rfl
  refine ⟨by simp [hstage, hexecuted], ?_, ?_, by simp [hstage, hexecuted]⟩
  · exact fun _ => Nat.zero_le limit
  · exact Nat.zero_le (limit + 1)

theorem counted_step {index : Nat} {blocks : List OpenBlock} (h : r.Counted)
    (hover : r.isOver = false) (hcode : r.program.hasCode = true)
    (hnext : r.control.next r.program.lines = .ok (index, blocks)) : r.step.Counted := by
  obtain ⟨hexecuted, hlimit, hstage⟩ := step_within hover hcode hnext
  have hbound := h.live hover
  by_cases hmany : r.limit < r.executed + 1
  · rw [if_pos hmany] at hstage
    have hover' : r.step.isOver = true := by rw [isOver, hstage.1]; rfl
    refine ⟨?_, ?_, ?_, ?_⟩
    · rw [hstage.1, hexecuted]
      simp
    · intro hlive
      rw [hover'] at hlive
      cases hlive
    · omega
    · rw [hexecuted, hlimit, hstage.1]
      simp
      omega
  · rw [if_neg hmany] at hstage
    refine ⟨?_, ?_, ?_, ?_⟩
    · simp [hexecuted, hstage.ne_new]
    · omega
    · omega
    · simp only [hexecuted, hlimit, hstage.ne_lineLimit, iff_false]
      omega

end Run

/-! ## Valid programs -/

section Valid

variable {p : Program} {names : Names} (hp : p.Sound names) (hvalid : p.isValid = true)
  (hcode : p.hasCode = true) (case : TestCase) (limit : Nat)

include hp hvalid hcode

/-- A run of a valid program always has a next line. -/
theorem Run.exists_next_after (count : Nat) :
    let r := Run.after p case limit count
    r.program.hasCode = true ∧
      ∃ index blocks, r.control.next r.program.lines = .ok (index, blocks) := by
  intro r
  have hsound : r.Sound p fun _ => True := Run.sound_after_of_sound hp hvalid case limit count
  obtain ⟨index, blocks, hnext, -⟩ :=
    hsound.control.next hp.nested ((Program.hasCode_iff p).mp hcode)
  rw [hsound.program]
  exact ⟨hcode, index, blocks, hnext⟩

theorem Run.counted_after (count : Nat) : (Run.after p case limit count).Counted := by
  induction count with
  | zero => exact Run.counted_start hvalid case limit
  | succ count ih =>
      cases hover : (Run.after p case limit count).isOver with
      | true =>
          rw [Run.after, Run.step_of_isOver hover]
          exact ⟨ih.new, ih.live, ih.most, ih.limit⟩
      | false =>
          obtain ⟨hcode', index, blocks, hnext⟩ :=
            Run.exists_next_after hp hvalid hcode case limit count
          exact Run.counted_step ih hover hcode' hnext

/-- As long as the run goes on, every step executes a line. -/
theorem Run.executed_after_succ (count : Nat) :
    (Run.after p case limit (count + 1)).executed =
      (Run.after p case limit count).executed +
        if (Run.after p case limit count).isOver then 0 else 1 := by
  cases hover : (Run.after p case limit count).isOver with
  | true =>
      rw [Run.after, Run.step_of_isOver hover]
      rfl
  | false =>
      obtain ⟨hcode', index, blocks, hnext⟩ :=
        Run.exists_next_after hp hvalid hcode case limit count
      exact (Run.step_within hover hcode' hnext).1

theorem Run.executed_after (count : Nat) :
    (Run.after p case limit count).executed =
      ((List.range count).filter fun earlier =>
        !(Run.after p case limit earlier).isOver).length := by
  induction count with
  | zero => rfl
  | succ count ih =>
      rw [Run.executed_after_succ hp hvalid hcode, ih, List.range_succ, List.filter_append,
        List.length_append]
      cases hover : (Run.after p case limit count).isOver with
      | true => simp [hover]
      | false => simp [hover]

theorem Run.executed_of_live {count : Nat}
    (hlive : (Run.after p case limit count).isOver = false) :
    (Run.after p case limit count).executed = count := by
  have hall : (List.range count).filter (fun earlier =>
      !(Run.after p case limit earlier).isOver) = List.range count := by
    refine List.filter_eq_self.mpr fun earlier hearlier => ?_
    rw [Run.live_of_later (Nat.le_of_lt (List.mem_range.mp hearlier)) hlive]
    rfl
  rw [Run.executed_after hp hvalid hcode, hall, List.length_range]

/-- The line that is one too many leaves the memory as it was after the lines before it. -/
theorem Run.memory_of_lineLimit {count : Nat}
    (h : (Run.after p case limit count).executed = limit + 1) :
    (Run.after p case limit count).memory = (Run.after p case limit limit).memory := by
  induction count with
  | zero => cases h
  | succ count ih =>
      have hlimit : (Run.after p case limit count).limit = limit :=
        (Run.follows_after (Nat.zero_le count)).limit
      have hsucc := Run.executed_after_succ hp hvalid hcode case limit count
      cases hover : (Run.after p case limit count).isOver with
      | true =>
          rw [h, hover] at hsucc
          rw [Run.after, Run.step_of_isOver hover]
          exact ih (by simpa using hsucc.symm)
      | false =>
          have hcount := Run.executed_of_live hp hvalid hcode case limit hover
          rw [h, hover, hcount] at hsucc
          obtain rfl : count = limit := by simpa using hsucc.symm
          obtain ⟨hcode', index, blocks, hnext⟩ :=
            Run.exists_next_after hp hvalid hcode case count count
          obtain ⟨-, -, hstage⟩ := Run.step_within hover hcode' hnext
          rw [if_pos (by omega)] at hstage
          exact hstage.2

end Valid

/-! ## Where a run ends -/

/-- The run is over after `last` steps, and not before. -/
structure Run.EndsAfter (p : Program) (case : TestCase) (limit last : Nat) : Prop where
  ended : (Run.after p case limit last).isOver = true
  live : ∀ earlier < last, (Run.after p case limit earlier).isOver = false

namespace Run

variable {p : Program} {case : TestCase} {limit last count : Nat}

theorem exists_endsAfter (h : (after p case limit count).isOver = true) :
    ∃ last ≤ count, EndsAfter p case limit last := by
  induction count with
  | zero => exact ⟨0, Nat.le_refl 0, h, by simp⟩
  | succ count ih =>
      cases hover : (after p case limit count).isOver with
      | true =>
          obtain ⟨last, hlast, hends⟩ := ih hover
          exact ⟨last, Nat.le_succ_of_le hlast, hends⟩
      | false =>
          refine ⟨count + 1, Nat.le_refl _, h, fun earlier hearlier => ?_⟩
          exact live_of_later (Nat.le_of_lt_succ hearlier) hover

/-- Going on until the run is over leads to where it ends. -/
theorem EndsAfter.steps_eq (h : EndsAfter p case limit last) {start : Nat} (hstart : start ≤ last)
    (hcount : last ≤ start + count) :
    (after p case limit start).steps count = after p case limit last := by
  induction count generalizing start with
  | zero =>
      obtain rfl : start = last := Nat.le_antisymm hstart hcount
      rfl
  | succ count ih =>
      by_cases hlast : start = last
      · subst hlast
        exact steps_of_isOver h.ended _
      · have hlive := h.live start (by omega)
        rw [steps, if_neg (by simp [hlive])]
        have hrest : (after p case limit (start + 1)).steps count = after p case limit last :=
          ih (by omega) (by omega)
        exact hrest

end Run

/-- A run of a valid program that has a statement ends after at most one step more than its limit.
    In each of its states, `executed` is the number of steps taken before the run was over. It is
    never more than one beyond the limit, and then it was the limit that ended the run, with the
    memory as it was after the lines within the limit. A run is new as long as no line is executed,
    and between one line and the limit while it is running; it has a message exactly if it is over,
    and from then on a step only clears the events. -/
theorem Run.executed_within_limit (text : List Char)
    (hvalid : (Program.read text).isValid = true) (hcode : (Program.read text).hasCode = true)
    (case : TestCase) (limit : Nat) :
    let p := Program.read text
    (∃ last ≤ limit + 1, Run.EndsAfter p case limit last ∧
      (Run.start p case limit).complete = Run.after p case limit last) ∧
    ∀ count, let r := Run.after p case limit count
      r.executed = ((List.range count).filter fun earlier =>
        !(Run.after p case limit earlier).isOver).length ∧
      r.executed ≤ limit + 1 ∧
      (r.executed = limit + 1 ↔ r.stage = .ended (.error (.lineLimit limit))) ∧
      (r.executed = limit + 1 → r.memory = (Run.after p case limit limit).memory) ∧
      (r.status = .new ↔ r.executed = 0) ∧
      (r.status = .running → 1 ≤ r.executed ∧ r.executed ≤ limit) ∧
      (r.message?.isSome = true ↔ r.status.isTerminal = true) ∧
      (r.status.isTerminal = true → r.step = { r with events := [] }) := by
  intro p
  obtain ⟨names, hp⟩ := Program.exists_sound_read hvalid
  have hlimit : ∀ count, (Run.after p case limit count).limit = limit :=
    fun count => (Run.follows_after (Nat.zero_le count)).limit
  have hcounted := Run.counted_after hp hvalid hcode case limit
  refine ⟨?_, fun count => ?_⟩
  · have hover : (Run.after p case limit (limit + 1)).isOver = true := by
      cases hlive : (Run.after p case limit (limit + 1)).isOver with
      | true => rfl
      | false =>
          have hexecuted := Run.executed_of_live hp hvalid hcode case limit hlive
          have hbound := (hcounted (limit + 1)).live hlive
          rw [hlimit] at hbound
          omega
    obtain ⟨last, hlast, hends⟩ := Run.exists_endsAfter hover
    have hcount : last ≤ 0 + (limit + 1 - 0) := by omega
    exact ⟨last, hlast, hends, hends.steps_eq (Nat.zero_le last) hcount⟩
  · intro r
    obtain ⟨hnew, hlive, hmost, hhit⟩ := hcounted count
    rw [hlimit] at hlive hmost hhit
    have hterminal : r.status.isTerminal = r.isOver := Stage.isTerminal_status r.stage
    refine ⟨Run.executed_after hp hvalid hcode case limit count, hmost, hhit,
      Run.memory_of_lineLimit hp hvalid hcode case limit, ?_, ?_, ?_, ?_⟩
    · exact (Stage.status_eq_new_iff r.stage).trans hnew
    · intro hrunning
      have hstage := (Stage.status_eq_running_iff r.stage).mp hrunning
      have hsome : r.executed ≠ 0 := fun hnone => by
        rw [hnew.mpr hnone] at hstage
        cases hstage
      exact ⟨Nat.one_le_iff_ne_zero.mpr hsome, hlive (by rw [isOver, hstage]; rfl)⟩
    · rw [hterminal, isOver, message?, Stage.isSome_message?]
    · intro hover
      exact Run.step_of_isOver (hterminal ▸ hover)

/-- A loop of two lines, which a run goes through until its limit is reached. -/
def countUp : List Char :=
  "tally 1\n.data\ntapelength 1\n0 n\n.text\nn = n + 1\noutput(n)\n".toList

theorem Run.executed_within_limit_countUp :
    (Program.read countUp).isValid = true ∧ (Program.read countUp).hasCode = true ∧
      let r := Run.after (Program.read countUp) { expectedOutput := [1, 2, 3] } 3 9
      r.executed = 3 + 1 ∧ r.stage = .ended (.error (.lineLimit 3)) ∧
        r.memory = (Run.after (Program.read countUp) { expectedOutput := [1, 2, 3] } 3 3).memory ∧
        r.memory.slotValues = [2] ∧ r.memory.output = [1] := by
  have hvalid : (Program.read countUp).isValid = true := by decide +kernel
  have hcode : (Program.read countUp).hasCode = true := by decide +kernel
  have hstage : (Run.after (Program.read countUp) { expectedOutput := [1, 2, 3] } 3 9).stage =
      .ended (.error (.lineLimit 3)) := by decide +kernel
  obtain ⟨-, -, hhit, hmemory, -⟩ :=
    (Run.executed_within_limit countUp hvalid hcode { expectedOutput := [1, 2, 3] } 3).2 9
  have hexecuted := hhit.mpr hstage
  exact ⟨hvalid, hcode, hexecuted, hstage, hmemory hexecuted, by decide +kernel, by decide +kernel⟩

/-! ## Higher limits -/

namespace Run

variable {r : Run}

/-- The same run under another limit. -/
def withLimit (r : Run) (limit : Nat) : Run := { r with limit := limit }

theorem settle_withLimit (r : Run) (limit : Nat) (stop : Stop) :
    (r.withLimit limit).settle stop = (r.settle stop).withLimit limit :=
  settle_recast id (fun _ => limit) id r stop

theorem checkOutput_withLimit (r : Run) (limit : Nat) :
    (r.withLimit limit).checkOutput = r.checkOutput.withLimit limit :=
  checkOutput_recast id (fun _ => limit) id r

theorem executeLine_withLimit (r : Run) (limit index : Nat) :
    (r.withLimit limit).executeLine index = (r.executeLine index).withLimit limit := by
  unfold executeLine
  rw [show (r.withLimit limit).program = r.program from rfl,
    show (r.withLimit limit).memory = r.memory from rfl]
  split
  · exact settle_withLimit r limit _
  · rename_i statement _
    rcases (perform r.program statement).run ⟨r.memory, []⟩ with ⟨result, machine⟩
    cases result with
    | ok onward => rfl
    | error stop =>
        exact settle_withLimit { r with memory := machine.memory, events := machine.events } limit
          stop

/-- The run went beyond its limit, and was ended for it. -/
def HitsLimit (r : Run) : Prop :=
  r.limit < r.executed ∧ r.stage = .ended (.error (.lineLimit r.limit))

/-- Unless a step hits the limit, it does the same under a higher one. -/
theorem step_withLimit {higher : Nat} (hhigher : r.limit ≤ higher) (hstep : ¬r.step.HitsLimit) :
    (r.withLimit higher).step = r.step.withLimit higher := by
  suffices hplain : (r.withLimit higher).plainStep = r.plainStep.withLimit higher by
    rw [step, hplain, checkOutput_withLimit]
    rfl
  cases hover : r.isOver with
  | true =>
      rw [plainStep_of_isOver hover, plainStep_of_isOver (r := r.withLimit higher) hover]
      rfl
  | false =>
      cases hcode : r.program.hasCode with
      | false =>
          rw [plainStep_of_not_hasCode hover hcode,
            plainStep_of_not_hasCode (r := r.withLimit higher) hover hcode]
          rfl
      | true =>
          cases hnext : r.control.next r.program.lines with
          | error defect =>
              rw [plainStep_of_next_error hover hcode hnext,
                plainStep_of_next_error (r := r.withLimit higher) hover hcode hnext]
              rfl
          | ok next =>
              have hplain := plainStep_eq hover hcode hnext
              have hwithin : ¬r.limit < r.executed + 1 := by
                intro hlimit
                rw [if_pos hlimit] at hplain
                refine hstep ?_
                rw [step, hplain, checkOutput_of_isOver rfl]
                exact ⟨hlimit, rfl⟩
              have hwithin' : ¬(r.withLimit higher).limit < (r.withLimit higher).executed + 1 := by
                show ¬higher < r.executed + 1
                omega
              rw [hplain, if_neg hwithin, plainStep_eq (r := r.withLimit higher) hover hcode hnext,
                if_neg hwithin']
              exact executeLine_withLimit (r.moveTo next.1 next.2) higher next.1

section After

variable {p : Program} {case : TestCase} {limit higher count : Nat}

theorem hitsLimit_step (h : r.HitsLimit) : r.step.HitsLimit := by
  have hover : r.isOver = true := by rw [isOver, h.2]; rfl
  rw [step_of_isOver hover]
  exact h

/-- As long as a run does not hit its limit, it is the same under a higher one. -/
theorem after_withLimit (hhigher : limit ≤ higher) (h : ¬(after p case limit count).HitsLimit) :
    after p case higher count = (after p case limit count).withLimit higher := by
  induction count with
  | zero => rfl
  | succ count ih =>
      have hlimit : (after p case limit count).limit = limit :=
        (follows_after (Nat.zero_le count)).limit
      have hbefore : ¬(after p case limit count).HitsLimit := fun hhit => h (hitsLimit_step hhit)
      rw [after, ih hbefore]
      exact step_withLimit (by omega) h

theorem executed_step_le (r : Run) : r.step.executed ≤ r.executed + 1 := by
  rw [step, executed_checkOutput]
  unfold plainStep
  dsimp only
  split
  · exact Nat.le_succ _
  · split
    · exact Nat.le_succ _
    · unfold executeNext
      split
      · exact Nat.le_succ _
      · dsimp only
        split
        · exact Nat.le_refl _
        · obtain ⟨memory, events, stage, onward, -, heq⟩ := exists_executeLine _ _
          exact Nat.le_of_eq (congrArg Run.executed heq)

theorem executed_after_le (p : Program) (case : TestCase) (limit count : Nat) :
    (after p case limit count).executed ≤ count := by
  induction count with
  | zero => exact Nat.le_refl 0
  | succ count ih => exact Nat.le_trans (executed_step_le _) (Nat.succ_le_succ ih)

end After

end Run

/-- Under a higher limit a run shows the same after every step up to the lower limit. If it ends
    under the lower limit for another reason than that, it ends after the same number of steps under
    the higher one, and what it shows at the end is the same. -/
theorem Run.same_under_higher_limit (p : Program) (case : TestCase) {limit higher : Nat}
    (hhigher : limit ≤ higher) :
    (∀ count ≤ limit,
      (Run.after p case higher count).snapshot = (Run.after p case limit count).snapshot ∧
        (Run.after p case higher count).events = (Run.after p case limit count).events) ∧
    ∀ last, Run.EndsAfter p case limit last →
      (∀ most, (Run.after p case limit last).stage ≠ .ended (.error (.lineLimit most))) →
        Run.EndsAfter p case higher last ∧
          (Run.after p case higher last).snapshot = (Run.after p case limit last).snapshot ∧
          (Run.start p case higher).complete.snapshot =
            (Run.start p case limit).complete.snapshot := by
  refine ⟨fun count hcount => ?_, fun last hends hreason => ?_⟩
  · have hwithin : ¬(Run.after p case limit count).HitsLimit := by
      rintro ⟨hexecuted, -⟩
      have hlimit : (Run.after p case limit count).limit = limit :=
        (Run.follows_after (Nat.zero_le count)).limit
      have hmost := Run.executed_after_le p case limit count
      omega
    rw [Run.after_withLimit hhigher hwithin]
    exact ⟨rfl, rfl⟩
  · have hsame : ∀ count ≤ last,
        Run.after p case higher count = (Run.after p case limit count).withLimit higher := by
      intro count hcount
      refine Run.after_withLimit hhigher ?_
      rintro ⟨-, hstage⟩
      by_cases hlast : count = last
      · exact hreason _ (hlast ▸ hstage)
      · have hlive := hends.live count (by omega)
        rw [isOver, hstage] at hlive
        cases hlive
    have hends' : Run.EndsAfter p case higher last := by
      refine ⟨?_, fun earlier hearlier => ?_⟩
      · rw [hsame last (Nat.le_refl last)]
        exact hends.ended
      · rw [hsame earlier (Nat.le_of_lt hearlier)]
        exact hends.live earlier hearlier
    have hsnapshot : (Run.after p case higher last).snapshot =
        (Run.after p case limit last).snapshot := by
      rw [hsame last (Nat.le_refl last)]
      rfl
    refine ⟨hends', hsnapshot, ?_⟩
    rw [Run.snapshot_complete hends'.ended, hsnapshot, Run.snapshot_complete hends.ended]

/-- A program that halts with the last line that the limit allows. -/
def haltInTime : List Char :=
  "tally 1\n.data\ntapelength 1\n.text\noutput(input())\n".toList

theorem Run.same_under_higher_limit_haltInTime :
    let p := Program.read haltInTime
    let case : TestCase := { input := [4, 5], expectedOutput := [4, 5] }
    3 ≤ 1000 ∧ Run.EndsAfter p case 3 3 ∧
      (Run.after p case 3 3).stage = .ended (.success .inputExhausted) ∧
      Run.EndsAfter p case 1000 3 ∧
      (Run.after p case 1000 3).snapshot = (Run.after p case 3 3).snapshot := by
  intro p case
  have hends : Run.EndsAfter p case 3 3 := ⟨by decide +kernel, by decide +kernel⟩
  have hstage : (Run.after p case 3 3).stage = .ended (.success .inputExhausted) := by
    decide +kernel
  obtain ⟨-, hsame⟩ := Run.same_under_higher_limit p case (show 3 ≤ 1000 by decide)
  obtain ⟨hends', hsnapshot, -⟩ := hsame 3 hends (by simp [hstage])
  exact ⟨by decide, hends, hstage, hends', hsnapshot⟩

end TapePuzzle
