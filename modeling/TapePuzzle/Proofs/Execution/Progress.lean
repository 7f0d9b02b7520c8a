import TapePuzzle.Proofs.Execution.Journal
import TapePuzzle.Proofs.Execution.Runs

/-!
# How a run goes on and how it ends

A run keeps its program and its test case, and its output only grows. A step of a run that is not
over either goes on within the limit or ends the run, by a halt, by a fault, or because there is
nothing to execute. Main statement: every run ends, whether or not the output is checked on the way.
-/

namespace TapePuzzle

namespace Run

variable {r r' r'' : Run}

/-! ## Ending a run -/

theorem checkOutput_of_isOver (h : r.isOver = true) : r.checkOutput = r := by
  unfold checkOutput
  split
  · rename_i hstage _
    rw [isOver, hstage] at h
    cases h
  · rfl

@[simp] theorem isOver_settle (r : Run) (stop : Stop) : (r.settle stop).isOver = true := by
  cases stop with
  | fault fault => rfl
  | halt halt =>
      unfold settle
      dsimp only
      split <;> rfl

/-- Looking at the output changes nothing but the stage and the events. -/
theorem checkOutput_eq (r : Run) :
    r.checkOutput = { r with stage := r.checkOutput.stage, events := r.checkOutput.events } := by
  unfold checkOutput
  split <;> rfl

@[simp] theorem program_checkOutput (r : Run) : r.checkOutput.program = r.program := by
  rw [checkOutput_eq]

@[simp] theorem limit_checkOutput (r : Run) : r.checkOutput.limit = r.limit := by
  rw [checkOutput_eq]

@[simp] theorem control_checkOutput (r : Run) : r.checkOutput.control = r.control := by
  rw [checkOutput_eq]

@[simp] theorem executed_checkOutput (r : Run) : r.checkOutput.executed = r.executed := by
  rw [checkOutput_eq]

/-- Ending a run changes nothing but the stage and the events. -/
theorem settle_eq (r : Run) (stop : Stop) :
    r.settle stop =
      { r with stage := (r.settle stop).stage, events := (r.settle stop).events } := by
  cases stop with
  | fault fault => rfl
  | halt halt =>
      unfold settle
      dsimp only
      split <;> rfl

@[simp] theorem program_settle (r : Run) (stop : Stop) : (r.settle stop).program = r.program := by
  rw [settle_eq]

@[simp] theorem limit_settle (r : Run) (stop : Stop) : (r.settle stop).limit = r.limit := by
  rw [settle_eq]

@[simp] theorem control_settle (r : Run) (stop : Stop) : (r.settle stop).control = r.control := by
  rw [settle_eq]

@[simp] theorem executed_settle (r : Run) (stop : Stop) :
    (r.settle stop).executed = r.executed := by
  rw [settle_eq]

/-- The run with another program, another limit and at another point. -/
def recast (program : Program → Program) (limit : Nat → Nat) (control : Control → Control)
    (r : Run) : Run :=
  { r with
    program := program r.program, limit := limit r.limit, control := control r.control }

section Recast

variable (program : Program → Program) (limit : Nat → Nat) (control : Control → Control) (r : Run)

/-- A line ends in the same way, whatever the program, the limit and the position are. -/
theorem settle_recast (stop : Stop) :
    (r.recast program limit control).settle stop =
      (r.settle stop).recast program limit control := by
  cases stop with
  | fault reason => rfl
  | halt reason =>
      have hmismatch : mismatch? { r.recast program limit control with
          events := r.events ++ [Event.halt reason] } =
          mismatch? { r with events := r.events ++ [Event.halt reason] } := rfl
      unfold settle
      dsimp only
      rw [show (r.recast program limit control).events = r.events from rfl, hmismatch]
      split <;> rfl

theorem checkOutput_recast :
    (r.recast program limit control).checkOutput =
      r.checkOutput.recast program limit control := by
  have hmismatch : (r.recast program limit control).earlyMismatch? = r.earlyMismatch? := rfl
  unfold checkOutput
  rw [show (r.recast program limit control).stage = r.stage from rfl, hmismatch]
  split <;> rfl

end Recast

/-! ## What stays and what grows -/

/-- The second state belongs to the same program on the same test case, and its output goes on
    where the output of the first one ends. -/
structure Follows (r r' : Run) : Prop where
  program : r'.program = r.program
  limit : r'.limit = r.limit
  expectedOutput : r'.expectedOutput = r.expectedOutput
  expectedSlots : r'.expectedSlots = r.expectedSlots
  output : r.memory.output <+: r'.memory.output

namespace Follows

theorem refl (r : Run) : r.Follows r := ⟨rfl, rfl, rfl, rfl, List.prefix_rfl⟩

theorem trans (h : r.Follows r') (h' : r'.Follows r'') : r.Follows r'' where
  program := h'.program.trans h.program
  limit := h'.limit.trans h.limit
  expectedOutput := h'.expectedOutput.trans h.expectedOutput
  expectedSlots := h'.expectedSlots.trans h.expectedSlots
  output := h.output.trans h'.output

theorem settle (h : r.Follows r') (stop : Stop) : r.Follows (r'.settle stop) := by
  rw [settle_eq]
  exact ⟨h.program, h.limit, h.expectedOutput, h.expectedSlots, h.output⟩

theorem checkOutput (h : r.Follows r') : r.Follows r'.checkOutput := by
  rw [checkOutput_eq]
  exact ⟨h.program, h.limit, h.expectedOutput, h.expectedSlots, h.output⟩

theorem executeLine (h : r.Follows r') (index : Nat) : r.Follows (r'.executeLine index) := by
  unfold Run.executeLine
  split
  · exact h.settle _
  · rename_i statement _
    have hwrites := journals_perform r'.program statement ⟨r'.memory, []⟩
    rcases hrun : (perform r'.program statement).run ⟨r'.memory, []⟩ with ⟨result, machine⟩
    rw [hrun] at hwrites
    have hdone : r.Follows { r' with memory := machine.memory, events := machine.events } :=
      ⟨h.program, h.limit, h.expectedOutput, h.expectedSlots, h.output.trans hwrites.prefix_output⟩
    cases result with
    | ok onward =>
        exact ⟨hdone.program, hdone.limit, hdone.expectedOutput, hdone.expectedSlots, hdone.output⟩
    | error stop => exact hdone.settle stop

theorem executeNext (h : r.Follows r') : r.Follows r'.executeNext := by
  unfold Run.executeNext
  split
  · exact h.settle _
  · rename_i index blocks _
    have hmoved : r.Follows { r' with
        control := { position := some index, blocks := blocks }
        executed := r'.executed + 1 } :=
      ⟨h.program, h.limit, h.expectedOutput, h.expectedSlots, h.output⟩
    dsimp only
    split
    · exact hmoved.settle _
    · exact hmoved.executeLine index

end Follows

theorem follows_plainStep (r : Run) : r.Follows r.plainStep := by
  have hclear : r.Follows { r with events := [] } := ⟨rfl, rfl, rfl, rfl, List.prefix_rfl⟩
  unfold plainStep
  dsimp only
  split
  · exact hclear
  · split
    · exact ⟨rfl, rfl, rfl, rfl, List.prefix_rfl⟩
    · exact hclear.executeNext

theorem follows_step (r : Run) : r.Follows r.step := r.follows_plainStep.checkOutput

/-! ## Steps -/

/-- The halt that the latest step came to, whatever the verdict on it is. -/
def halt? (r : Run) : Option Halt :=
  match r.events.getLast? with
  | some (.halt reason) => some reason
  | _ => none

theorem halt?_eq_none (h : ∀ event ∈ r.events, event.isHalt = false) : r.halt? = none := by
  unfold halt?
  split
  · rename_i reason hlast
    have hhalt := h _ (List.mem_of_getLast? hlast)
    cases hhalt
  · rfl

/-- The verdict on a run that halts as it is. -/
def judge (r : Run) (reason : Halt) : Ending :=
  match r.mismatch? with
  | some mismatch => .fail mismatch
  | none => .success reason

/-- What becomes of `r` in one step, if it is not over and the output is not checked. -/
inductive Outcome (r r' : Run) : Prop where
  | goesOn (hstage : r'.stage = .running) (hhalt : r'.halt? = none)
      (hexecuted : r'.executed = r.executed + 1) (hlimit : r'.executed ≤ r.limit)
  | halts {reason : Halt} (hstage : r'.stage = .ended (r'.judge reason))
      (hhalt : r'.halt? = some reason) (hexecuted : r'.executed = r.executed + 1)
      (hlimit : r'.executed ≤ r.limit)
  | faults {fault : Fault} (hstage : r'.stage = .ended (.error fault)) (hhalt : r'.halt? = none)
  | hasNoCode (hstage : r'.stage = .ended (.fail .emptyProgram)) (hhalt : r'.halt? = none)

theorem stage_settle_halt (r : Run) (reason : Halt) :
    (r.settle (.halt reason)).stage = .ended ((r.settle (.halt reason)).judge reason) := by
  have hjudge : (r.settle (.halt reason)).mismatch? = r.mismatch? := by
    rw [settle_eq]
    rfl
  have hmismatch : mismatch? { r with events := r.events ++ [Event.halt reason] } = r.mismatch? :=
    rfl
  rw [judge, hjudge]
  simp only [settle, hmismatch]
  cases r.mismatch? <;> rfl

theorem halt?_settle_halt (r : Run) (reason : Halt) :
    (r.settle (.halt reason)).halt? = some reason := by
  have hevents : (r.settle (.halt reason)).events = r.events ++ [Event.halt reason] := by
    unfold settle
    dsimp only
    split <;> rfl
  simp [halt?, hevents]

/-- The line that a run is at is within the limit if the run gets to execute it. -/
theorem outcome_executeLine (hexecuted : r'.executed = r.executed + 1)
    (hlimit : r'.executed ≤ r.limit) (hevents : r'.events = []) (index : Nat) :
    Outcome r (r'.executeLine index) := by
  unfold executeLine
  split
  · exact .faults rfl (halt?_eq_none (by simp [settle, finish, hevents]))
  · rename_i statement _
    have hwrites := journals_perform r'.program statement ⟨r'.memory, []⟩
    rcases hrun : (perform r'.program statement).run ⟨r'.memory, []⟩ with ⟨result, machine⟩
    rw [hrun] at hwrites
    have hjournal : ∀ event ∈ machine.events, event.isHalt = false := hwrites.isHalt_eq (by simp)
    cases result with
    | ok onward => exact .goesOn rfl (halt?_eq_none hjournal) hexecuted hlimit
    | error stop =>
        cases stop with
        | fault fault => exact .faults rfl (halt?_eq_none hjournal)
        | halt reason =>
            refine .halts (stage_settle_halt _ reason) (halt?_settle_halt _ reason) ?_ ?_
            · rw [executed_settle]
              exact hexecuted
            · rw [executed_settle]
              exact hlimit

theorem outcome_plainStep (hover : r.isOver = false) : Outcome r r.plainStep := by
  have hclear : isOver { r with events := [] } = false := hover
  unfold plainStep
  dsimp only
  rw [hclear, if_neg Bool.false_ne_true]
  split
  · exact .hasNoCode rfl rfl
  · unfold executeNext
    split
    · exact .faults rfl rfl
    · dsimp only
      split
      · exact .faults rfl rfl
      · rename_i hlimit
        exact outcome_executeLine rfl (Nat.le_of_not_lt hlimit) rfl _

/-- The run at the line at `index`, which counts but is not carried out yet. -/
def moveTo (r : Run) (index : Nat) (blocks : List OpenBlock) : Run :=
  { r with
    control := { position := some index, blocks := blocks }, executed := r.executed + 1,
    events := [] }

@[simp] theorem memory_moveTo (r : Run) (index : Nat) (blocks : List OpenBlock) :
    (r.moveTo index blocks).memory = r.memory := rfl

theorem plainStep_of_not_hasCode (hover : r.isOver = false) (hcode : r.program.hasCode = false) :
    r.plainStep = { r with events := [] }.finish (.fail .emptyProgram) := by
  have hclear : isOver { r with events := [] } = false := hover
  simp only [plainStep, hclear, hcode, Bool.not_false, Bool.false_eq_true, if_false, if_true]

theorem plainStep_of_next_error {defect : Defect} (hover : r.isOver = false)
    (hcode : r.program.hasCode = true) (hnext : r.control.next r.program.lines = .error defect) :
    r.plainStep = { r with events := [] }.finish (.error (.defect defect)) := by
  have hclear : isOver { r with events := [] } = false := hover
  simp only [plainStep, hclear, hcode, executeNext, hnext, Bool.not_true, Bool.false_eq_true,
    if_false]
  rfl

/-- Where there is a next line, a step moves there and carries it out, unless it is one line too
    many. -/
theorem plainStep_eq {index : Nat} {blocks : List OpenBlock} (hover : r.isOver = false)
    (hcode : r.program.hasCode = true)
    (hnext : r.control.next r.program.lines = .ok (index, blocks)) :
    r.plainStep =
      if r.limit < r.executed + 1 then
        (r.moveTo index blocks).finish (.error (.lineLimit r.limit))
      else (r.moveTo index blocks).executeLine index := by
  have hclear : isOver { r with events := [] } = false := hover
  simp only [plainStep, hclear, hcode, executeNext, hnext, Bool.not_true, Bool.false_eq_true,
    if_false]
  rfl

/-- Checking the output leaves a run as it is or makes it fail. -/
theorem step_eq_or (r : Run) :
    r.step = r.plainStep ∨ ∃ mismatch, r.step = r.plainStep.finish (.fail mismatch) := by
  unfold step checkOutput
  split
  · rename_i mismatch _ _
    exact .inr ⟨mismatch, rfl⟩
  · exact .inl rfl

/-- A step that does not end the run is not touched by the check of the output. -/
theorem step_eq_plainStep (h : r.step.isOver = false) : r.step = r.plainStep := by
  rcases r.step_eq_or with heq | ⟨mismatch, heq⟩
  · exact heq
  · rw [heq] at h
    cases h

/-! ## Runs that are over -/

theorem plainStep_of_isOver (h : r.isOver = true) : r.plainStep = { r with events := [] } := by
  have hclear : isOver { r with events := [] } = true := h
  simp only [plainStep, hclear, if_true]

theorem step_of_isOver (h : r.isOver = true) : r.step = { r with events := [] } := by
  rw [step, plainStep_of_isOver h]
  exact checkOutput_of_isOver h

section After

variable {program : Program} {case : TestCase} {limit earlier later : Nat}

theorem follows_after (h : earlier ≤ later) :
    (after program case limit earlier).Follows (after program case limit later) := by
  induction h with
  | refl => exact .refl _
  | step _ ih => exact ih.trans (follows_step _)

theorem isOver_after (h : earlier ≤ later)
    (hover : (after program case limit earlier).isOver = true) :
    (after program case limit later).isOver = true := by
  induction h with
  | refl => exact hover
  | step _ ih =>
      rw [after, step_of_isOver ih]
      exact ih

theorem live_of_later (h : earlier ≤ later)
    (hlive : (after program case limit later).isOver = false) :
    (after program case limit earlier).isOver = false := by
  cases hover : (after program case limit earlier).isOver with
  | false => rfl
  | true =>
      rw [isOver_after h hover] at hlive
      cases hlive

end After

/-! ## Runs until they are over -/

/-- Goes on by `advance` at most `count` times, until the run is over. -/
def untilOver (advance : Run → Run) : (count : Nat) → Run → Run
  | 0, r => r
  | count + 1, r => if r.isOver then r else untilOver advance count (advance r)

/-- The states that `untilOver` comes to. -/
def statesUntilOver (advance : Run → Run) : (count : Nat) → Run → List Run
  | 0, _ => []
  | count + 1, r =>
      if r.isOver then [] else advance r :: statesUntilOver advance count (advance r)

theorem steps_eq_untilOver (count : Nat) (r : Run) : r.steps count = untilOver step count r := by
  induction count generalizing r with
  | zero => rfl
  | succ count ih => rw [steps, untilOver, ih]

theorem trace_eq_statesUntilOver (count : Nat) (r : Run) :
    r.trace count = statesUntilOver step count r := by
  induction count generalizing r with
  | zero => rfl
  | succ count ih => rw [trace, statesUntilOver, ih]

/-- Whatever does not end the run executes one more line, and stays within the limit. -/
def Counts (advance : Run → Run) : Prop :=
  ∀ r, r.isOver = false → (advance r).isOver = false →
    (advance r).executed = r.executed + 1 ∧ (advance r).executed ≤ r.limit ∧
      (advance r).limit = r.limit

theorem counts_plainStep : Counts plainStep := by
  intro r hover hlive
  cases outcome_plainStep hover with
  | goesOn _ _ hexecuted hlimit => exact ⟨hexecuted, hlimit, r.follows_plainStep.limit⟩
  | halts hstage | faults hstage | hasNoCode hstage =>
      rw [isOver, hstage] at hlive
      cases hlive

theorem counts_step : Counts step := by
  intro r hover hlive
  have hplain := step_eq_plainStep hlive
  rw [hplain] at hlive ⊢
  exact counts_plainStep r hover hlive

section UntilOver

variable {advance : Run → Run}

theorem untilOver_of_isOver (h : r.isOver = true) (count : Nat) :
    untilOver advance count r = r := by
  cases count with
  | zero => rfl
  | succ count => rw [untilOver, if_pos h]

/-- Going on ends the run once more steps are allowed than lines are left. -/
theorem isOver_untilOver (hadvance : Counts advance) {count : Nat}
    (hcount : r.limit < r.executed + count) (hlive : r.isOver = false → r.executed ≤ r.limit) :
    (untilOver advance count r).isOver = true := by
  induction count generalizing r with
  | zero =>
      cases hover : r.isOver with
      | true => exact hover
      | false =>
          have hbound := hlive hover
          omega
  | succ count ih =>
      rw [untilOver]
      split
      · assumption
      · rename_i hover
        have hover : r.isOver = false := by simpa using hover
        cases hnext : (advance r).isOver with
        | true => rw [untilOver_of_isOver hnext, hnext]
        | false =>
            obtain ⟨hexecuted, hbound, hlimit⟩ := hadvance r hover hnext
            exact ih (by omega) fun _ => by omega

end UntilOver

theorem isOver_complete (hlive : r.isOver = false → r.executed ≤ r.limit) :
    r.complete.isOver = true := by
  rw [complete, steps_eq_untilOver]
  exact isOver_untilOver counts_step (by omega) hlive

/-! ## Steps from the start -/

section FromStart

variable {program : Program} {case : TestCase} {limit : Nat}

/-- Going on until the run is over is taking as many steps as there are states on the way. -/
theorem steps_after (program : Program) (case : TestCase) (limit start count : Nat) :
    (after program case limit start).steps count =
      after program case limit (start + ((after program case limit start).trace count).length) := by
  induction count generalizing start with
  | zero => rfl
  | succ count ih =>
      rw [steps, trace]
      split
      · rfl
      · have hnext : (after program case limit start).step = after program case limit (start + 1) :=
          rfl
        rw [hnext, ih, List.length_cons, Nat.add_assoc, Nat.add_comm 1]

/-- A run that is not over is within its limit. -/
theorem executed_le_of_live {count : Nat}
    (hlive : (after program case limit count).isOver = false) :
    (after program case limit count).executed ≤ (after program case limit count).limit := by
  cases count with
  | zero => exact Nat.zero_le limit
  | succ count =>
      have hbefore := live_of_later (Nat.le_succ count) hlive
      obtain ⟨-, hbound, hlimit⟩ := counts_step _ hbefore hlive
      exact hlimit ▸ hbound

/-- Once a run is over, all that is shown of it stays. -/
theorem snapshot_after {earlier later : Nat} (h : earlier ≤ later)
    (hover : (after program case limit earlier).isOver = true) :
    (after program case limit later).snapshot = (after program case limit earlier).snapshot := by
  induction h with
  | refl => rfl
  | step hle ih =>
      rw [after, step_of_isOver (isOver_after hle hover)]
      exact ih

/-- However many steps it took to end a run, the end shows the same. -/
theorem snapshot_complete {count : Nat} (hover : (after program case limit count).isOver = true) :
    (start program case limit).complete.snapshot = (after program case limit count).snapshot := by
  have hend : (start program case limit).complete.isOver = true :=
    isOver_complete fun _ => Nat.zero_le limit
  obtain ⟨last, hlast⟩ : ∃ last,
      (start program case limit).complete = after program case limit last :=
    ⟨_, steps_after program case limit 0 (limit + 1)⟩
  rw [hlast] at hend ⊢
  rcases Nat.le_total last count with hle | hle
  · exact (snapshot_after hle hend).symm
  · exact snapshot_after hle hover

end FromStart

end Run

end TapePuzzle
