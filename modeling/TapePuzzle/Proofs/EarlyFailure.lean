import TapePuzzle.Proofs.Execution.Progress

/-!
# Failing early

After each line a run looks at its last output, and fails if this is not what the test case expects.
A plain run leaves this check out and is judged only when it halts. Main statements: both pass
exactly the same test cases, and then go through the same states; and the output of a run that goes
on can differ from what is expected only where one line wrote several values.
-/

namespace TapePuzzle

namespace Run

variable {r : Run}

/-! ## What passing means -/

/-- Output and tape are what the test case expects. -/
structure Meets (r : Run) : Prop where
  output : r.memory.output = r.expectedOutput
  slots : ∀ slots ∈ r.expectedSlots, r.memory.slotValues = slots

theorem firstDifference?_eq_none_iff {expected actual : List Int}
    (h : expected.length = actual.length) (index : Nat) :
    firstDifference? index expected actual = none ↔ actual = expected := by
  induction expected generalizing actual index with
  | nil =>
      cases actual with
      | nil => simp [firstDifference?]
      | cons b actual => cases h
  | cons a expected ih =>
      cases actual with
      | nil => cases h
      | cons b actual =>
          by_cases hhead : a = b
          · simp [firstDifference?, hhead, ih (Nat.succ.inj h)]
          · simp [firstDifference?, hhead, Ne.symm hhead]

theorem outputMismatch?_eq_none_iff :
    r.outputMismatch? = none ↔ r.memory.output = r.expectedOutput := by
  unfold outputMismatch?
  by_cases hlength : r.memory.output.length = r.expectedOutput.length
  · rw [← firstDifference?_eq_none_iff hlength.symm 0]
    split
    · rename_i hsome
      simp [hsome]
    · rename_i hnone
      simp [hnone, hlength]
  · have hne : r.memory.output ≠ r.expectedOutput := fun heq => hlength (by rw [heq])
    split
    · simp [hne]
    · simp [hne, hlength]

theorem slotMismatch?_eq_none_iff :
    r.slotMismatch? = none ↔ ∀ slots ∈ r.expectedSlots, r.memory.slotValues = slots := by
  unfold slotMismatch?
  cases r.expectedSlots with
  | none => simp
  | some slots =>
      by_cases hlength : slots.length = r.memory.slotValues.length
      · simp [hlength, firstDifference?_eq_none_iff hlength 0]
      · have hne : r.memory.slotValues ≠ slots := fun heq => hlength (by rw [heq])
        simp [hlength, hne]

theorem mismatch?_eq_none_iff : r.mismatch? = none ↔ r.Meets := by
  have hboth : r.mismatch? = none ↔ r.outputMismatch? = none ∧ r.slotMismatch? = none := by
    unfold mismatch?
    cases r.outputMismatch? <;> simp
  rw [hboth, outputMismatch?_eq_none_iff, slotMismatch?_eq_none_iff]
  exact ⟨fun h => ⟨h.1, h.2⟩, fun h => ⟨h.output, h.slots⟩⟩

theorem status_of_judge {reason : Halt} (hstage : r.stage = .ended (r.judge reason)) :
    r.status = .success ↔ r.Meets := by
  rw [← mismatch?_eq_none_iff, status, hstage, judge]
  cases r.mismatch? with
  | none => simp [Stage.status]
  | some mismatch => simp [Stage.status]

/-- A step passes exactly if it halts within the limit and the run meets what is expected. -/
theorem status_plainStep_iff (hover : r.isOver = false) :
    r.plainStep.status = .success ↔
      r.plainStep.halt?.isSome = true ∧ r.plainStep.executed ≤ r.limit ∧ r.plainStep.Meets := by
  cases outcome_plainStep hover with
  | halts hstage hhalt _ hlimit => simp [status_of_judge hstage, hhalt, hlimit]
  | goesOn hstage hhalt | faults hstage hhalt | hasNoCode hstage hhalt =>
      simp [status, hstage, hhalt, Stage.status]

/-! ## Plain runs -/

/-- The end of the run if its output is not checked before it halts. -/
def plainComplete (r : Run) : Run := untilOver plainStep (r.limit + 1 - r.executed) r

/-- The states that the run comes to if its output is not checked before it halts. -/
def plainTrace (count : Nat) (r : Run) : List Run := statesUntilOver plainStep count r

section UntilOver

variable {advance : Run → Run} {count : Nat}

theorem follows_untilOver (hadvance : ∀ r : Run, r.Follows (advance r)) (count : Nat) (r : Run) :
    r.Follows (untilOver advance count r) := by
  induction count generalizing r with
  | zero => exact .refl r
  | succ count ih =>
      rw [untilOver]
      split
      · exact .refl r
      · exact (hadvance r).trans (ih (advance r))

/-- A run that is over and was not over before has taken a last step. -/
theorem exists_last_of_untilOver (hover : r.isOver = false)
    (hend : (untilOver advance count r).isOver = true) :
    ∃ last, last.isOver = false ∧ untilOver advance count r = advance last := by
  induction count generalizing r with
  | zero => exact absurd hend (by simp [untilOver, hover])
  | succ count ih =>
      rw [untilOver, if_neg (by simp [hover])] at hend ⊢
      cases hnext : (advance r).isOver with
      | true => exact ⟨r, hover, untilOver_of_isOver hnext count⟩
      | false => exact ih hnext hend

end UntilOver

theorem isOver_plainComplete (hlive : r.isOver = false → r.executed ≤ r.limit) :
    r.plainComplete.isOver = true :=
  isOver_untilOver counts_plainStep (by omega) hlive

/-- A plain run passes exactly if it halts within the limit and meets what is expected. -/
theorem status_plainComplete_iff (hover : r.isOver = false) (hlimit : r.executed ≤ r.limit) :
    r.plainComplete.status = .success ↔ r.plainComplete.halt?.isSome = true ∧
      r.plainComplete.executed ≤ r.limit ∧ r.plainComplete.Meets := by
  have hend := isOver_plainComplete fun _ => hlimit
  obtain ⟨last, hlast, heq⟩ := exists_last_of_untilOver hover hend
  have hlater : r.plainComplete.limit = r.limit :=
    (follows_untilOver follows_plainStep _ r).limit
  have hsame : last.limit = r.limit := by
    rw [← hlater, plainComplete, heq, last.follows_plainStep.limit]
  rw [plainComplete, heq, status_plainStep_iff hlast, hsame]

/-! ## The check of the output -/

/-- The check has nothing to say exactly if the last output, if any, is the expected one. -/
theorem earlyMismatch?_eq_none_iff :
    r.earlyMismatch? = none ↔ ∀ index, index + 1 = r.memory.output.length →
      r.expectedOutput[index]? = r.memory.output[index]? := by
  unfold earlyMismatch?
  rw [List.getLast?_eq_getElem?]
  generalize r.memory.output = output
  cases hlength : output.length with
  | zero =>
      have hnil : output = [] := List.length_eq_zero_iff.mp hlength
      simp [hnil]
  | succ index =>
      have hindex : index < output.length := by omega
      have honly : (∀ i, i + 1 = index + 1 → r.expectedOutput[i]? = output[i]?) ↔
          r.expectedOutput[index]? = output[index]? :=
        ⟨fun h => h index rfl, fun h i hi => by rwa [Nat.succ.inj hi]⟩
      rw [honly, Nat.add_sub_cancel, List.getElem?_eq_getElem hindex]
      dsimp only
      split
      · rename_i hnone
        simp [hnone]
      · rename_i expected hsome
        simp [hsome]

theorem checkOutput_of_isPrefix (h : r.memory.output <+: r.expectedOutput) : r.checkOutput = r := by
  have hnone : r.earlyMismatch? = none := by
    rw [earlyMismatch?_eq_none_iff]
    intro index hindex
    obtain ⟨rest, hrest⟩ := h
    rw [← hrest, List.getElem?_append_left (by omega)]
  unfold checkOutput
  rw [hnone]
  split
  · rename_i hsome
    cases hsome
  · rfl

/-- The check does not interfere with a run that ends with an initial part of the expected output:
    what it looks at on the way is an initial part of that. -/
theorem untilOver_eq_of_isPrefix {count : Nat}
    (h : (untilOver plainStep count r).memory.output <+: r.expectedOutput) :
    untilOver step count r = untilOver plainStep count r ∧
      statesUntilOver step count r = statesUntilOver plainStep count r := by
  induction count generalizing r with
  | zero => exact ⟨rfl, rfl⟩
  | succ count ih =>
      simp only [untilOver, statesUntilOver] at h ⊢
      split at h
      · rename_i hover
        simp [hover]
      · rename_i hover
        have hlater := follows_untilOver follows_plainStep count r.plainStep
        have hexpected := r.follows_plainStep.expectedOutput
        have hstep : r.step = r.plainStep :=
          checkOutput_of_isPrefix (hexpected ▸ hlater.output.trans h)
        obtain ⟨hend, hstates⟩ := ih (hexpected ▸ h)
        simp [hover, hstep, hend, hstates]

/-- The check does not interfere with a run that passes: where it does, the run fails. -/
theorem untilOver_eq_of_success {count : Nat}
    (h : (untilOver step count r).status = .success) :
    untilOver step count r = untilOver plainStep count r ∧
      statesUntilOver step count r = statesUntilOver plainStep count r := by
  induction count generalizing r with
  | zero => exact ⟨rfl, rfl⟩
  | succ count ih =>
      simp only [untilOver, statesUntilOver] at h ⊢
      split at h
      · rename_i hover
        simp [hover]
      · rename_i hover
        rcases r.step_eq_or with hstep | ⟨mismatch, hstep⟩
        · obtain ⟨hend, hstates⟩ := ih h
          rw [hstep] at hend hstates
          simp [hover, hstep, hend, hstates]
        · rw [hstep, untilOver_of_isOver rfl] at h
          cases h

theorem trace_eq_plainTrace_of_success (h : r.complete.status = .success) :
    r.complete = r.plainComplete ∧
      r.trace (r.limit + 1 - r.executed) = r.plainTrace (r.limit + 1 - r.executed) := by
  rw [complete, steps_eq_untilOver] at h ⊢
  rw [trace_eq_statesUntilOver]
  exact untilOver_eq_of_success h

/-- The check of the output changes nothing about whether a run passes. -/
theorem status_complete_iff (hover : r.isOver = false) (hlimit : r.executed ≤ r.limit) :
    r.complete.status = .success ↔ r.plainComplete.status = .success := by
  constructor
  · intro h
    rw [← (trace_eq_plainTrace_of_success h).1]
    exact h
  · intro h
    obtain ⟨-, -, hmeets⟩ := (status_plainComplete_iff hover hlimit).mp h
    have hexpected : r.plainComplete.expectedOutput = r.expectedOutput :=
      (follows_untilOver follows_plainStep _ r).expectedOutput
    have houtput : r.plainComplete.memory.output = r.expectedOutput :=
      hmeets.output.trans hexpected
    have hinitial : r.plainComplete.memory.output <+: r.expectedOutput :=
      houtput ▸ List.prefix_rfl
    rw [complete, steps_eq_untilOver, (untilOver_eq_of_isPrefix hinitial).1]
    exact h

end Run

/-- A run passes exactly if the plain run of the same program on the same test case halts within the
    limit with the expected output and, where the test case says so, with the expected tape. Both
    runs end. The check of the output makes no difference to whether a run passes, and a run that
    passes goes through the same states as the plain run. -/
theorem Run.passes_iff_plain_run_halts (program : Program) (case : TestCase) (limit : Nat) :
    let r := Run.start program case limit
    let plain := r.plainComplete
    r.complete.isOver = true ∧ plain.isOver = true ∧
      (r.complete.status = .success ↔
        plain.halt?.isSome = true ∧ plain.executed ≤ limit ∧
          plain.memory.output = case.expectedOutput ∧
          ∀ slots ∈ case.expectedSlots, plain.memory.slotValues = slots) ∧
      (r.complete.status = .success ↔ plain.status = .success) ∧
      (r.complete.status = .success →
        r.complete = plain ∧ r.trace (limit + 1) = r.plainTrace (limit + 1)) := by
  intro r plain
  have hlimit : r.executed ≤ r.limit := Nat.zero_le limit
  have hlater : r.Follows plain := follows_untilOver follows_plainStep _ r
  have hmeets : plain.Meets ↔ plain.memory.output = case.expectedOutput ∧
      ∀ slots ∈ case.expectedSlots, plain.memory.slotValues = slots := by
    have houtput : plain.expectedOutput = case.expectedOutput := hlater.expectedOutput
    have hslots : plain.expectedSlots = case.expectedSlots := hlater.expectedSlots
    exact ⟨fun h => ⟨houtput ▸ h.output, hslots ▸ h.slots⟩,
      fun h => ⟨houtput ▸ h.1, hslots ▸ h.2⟩⟩
  have hpasses : (r.complete.status = .success ↔ plain.status = .success) ∧
      (plain.status = .success ↔
        plain.halt?.isSome = true ∧ plain.executed ≤ limit ∧ plain.Meets) := by
    by_cases hvalid : program.isValid = true
    · have hover : r.isOver = false := by simp [r, start, isOver, hvalid, Stage.isOver]
      exact ⟨status_complete_iff hover hlimit, status_plainComplete_iff hover hlimit⟩
    · -- the run is over before it starts
      have hstage : r.stage = .ended (.invalid program.diagnostics.length) := by
        simp [r, start, hvalid]
      have hover : r.isOver = true := by rw [isOver, hstage]; rfl
      have hcomplete : r.complete = r := steps_of_isOver hover _
      have hplain : plain = r := untilOver_of_isOver hover _
      have hstatus : r.status = .invalid := by rw [status, hstage]; rfl
      have hhalt : r.halt? = none := rfl
      simp [hcomplete, hplain, hstatus, hhalt]
  refine ⟨isOver_complete fun _ => hlimit, isOver_plainComplete fun _ => hlimit, ?_, hpasses.1,
    trace_eq_plainTrace_of_success⟩
  rw [hpasses.1, hpasses.2, hmeets]

/-- A run that passes when its input is used up, in the last of the lines that it may execute. With
    one line less it does not pass. -/
example :
    let program := Program.read ("tally 1\n.data\ntapelength 1\n0 sum\n.text\n" ++
      "while (1):\n sum = sum + input()\n output(sum)\n").toList
    let case : TestCase :=
      { input := [4, -6], expectedOutput := [4, -2], expectedSlots := some [-2] }
    let r := Run.start program case 8
    r.complete.status = .success ∧ r.plainComplete.halt? = some .inputExhausted ∧
      r.plainComplete.executed = 8 ∧ r.trace 9 = r.plainTrace 9 ∧
      (Run.start program case 7).complete.status = .error := by
  decide +kernel

/-! ## Runs that go on -/

namespace Run

variable {program : Program} {case : TestCase} {limit : Nat}

/-- After a line that does not end the run, the last output is the expected one. -/
theorem last_output_of_live {r : Run} (h : r.isOver = false) (hlive : r.step.isOver = false)
    {index : Nat} (hindex : index + 1 = r.step.memory.output.length) :
    r.step.expectedOutput[index]? = r.step.memory.output[index]? := by
  have hstep := step_eq_plainStep hlive
  have hrunning : r.plainStep.stage = .running := by
    rw [hstep, isOver] at hlive
    cases outcome_plainStep h with
    | goesOn hstage => exact hstage
    | halts hstage | faults hstage | hasNoCode hstage =>
        rw [hstage] at hlive
        cases hlive
  have hnone : r.plainStep.earlyMismatch? = none := by
    cases hmismatch : r.plainStep.earlyMismatch? with
    | none => rfl
    | some mismatch =>
        rw [step, checkOutput, hrunning, hmismatch] at hlive
        cases hlive
  rw [hstep] at hindex ⊢
  exact earlyMismatch?_eq_none_iff.mp hnone index hindex

/-- Every output was written by some line. -/
theorem exists_line_of_output {count index : Nat}
    (h : index < (after program case limit count).memory.output.length) :
    ∃ line < count, (after program case limit line).memory.output.length ≤ index ∧
      index < (after program case limit (line + 1)).memory.output.length := by
  induction count with
  | zero => cases h
  | succ count ih =>
      by_cases hearlier : index < (after program case limit count).memory.output.length
      · obtain ⟨line, hline, hfound⟩ := ih hearlier
        exact ⟨line, Nat.lt_succ_of_lt hline, hfound⟩
      · exact ⟨count, Nat.lt_succ_self count, Nat.le_of_not_lt hearlier, h⟩

section Live

variable {count line index : Nat} (hlive : (after program case limit count).isOver = false)
  (hline : line < count)

include hlive hline

/-- What was written last by some line of a run that goes on is as expected. -/
theorem output_of_last
    (hindex : index + 1 = (after program case limit (line + 1)).memory.output.length) :
    case.expectedOutput[index]? = (after program case limit (line + 1)).memory.output[index]? := by
  have hbefore := live_of_later (Nat.le_of_lt hline) hlive
  have hafter := live_of_later hline hlive
  have hexpected : (after program case limit (line + 1)).expectedOutput = case.expectedOutput :=
    (follows_after (Nat.zero_le (line + 1))).expectedOutput
  rw [← hexpected]
  exact last_output_of_live hbefore hafter hindex

omit hlive in
/-- What was written by some line stays where it is. -/
theorem output_of_earlier
    (hindex : index < (after program case limit (line + 1)).memory.output.length) :
    (after program case limit count).memory.output[index]? =
      (after program case limit (line + 1)).memory.output[index]? := by
  obtain ⟨rest, hrest⟩ := (follows_after hline).output
  rw [← hrest, List.getElem?_append_left hindex]

end Live

end Run

/-- As long as a run goes on, it has written no more values than expected. Its output is an initial
    part of what is expected exactly if every value is right that another value of the same line
    comes after; so it is one if no line has written more than one value. -/
theorem Run.output_prefix_iff_of_running (program : Program) (case : TestCase) (limit count : Nat)
    (hrunning : (Run.after program case limit count).status = .running) :
    let output (line : Nat) : List Int := (Run.after program case limit line).memory.output
    (output count).length ≤ case.expectedOutput.length ∧
      (output count <+: case.expectedOutput ↔
        ∀ line < count, ∀ index, (output line).length ≤ index →
          index + 1 < (output (line + 1)).length →
          case.expectedOutput[index]? = (output (line + 1))[index]?) ∧
      ((∀ line < count, (output (line + 1)).length ≤ (output line).length + 1) →
        output count <+: case.expectedOutput) := by
  intro output
  have hlive : (Run.after program case limit count).isOver = false := by
    rw [isOver, ← Stage.isTerminal_status]
    exact congrArg Status.isTerminal hrunning
  have hgrows : ∀ line < count, (output (line + 1)).length ≤ (output count).length :=
    fun line hline => (follows_after hline).output.length_le
  have hiff : output count <+: case.expectedOutput ↔
      ∀ line < count, ∀ index, (output line).length ≤ index →
        index + 1 < (output (line + 1)).length →
        case.expectedOutput[index]? = (output (line + 1))[index]? := by
    constructor
    · rintro ⟨rest, hrest⟩ line hline index - hindex
      have hindex' : index < (output (line + 1)).length := by omega
      rw [← hrest, List.getElem?_append_left (Nat.lt_of_lt_of_le hindex' (hgrows line hline))]
      exact output_of_earlier hline hindex'
    · intro hright
      rw [List.prefix_iff_getElem?]
      intro index hindex
      obtain ⟨line, hline, hstart, hend⟩ : ∃ line < count, (output line).length ≤ index ∧
          index < (output (line + 1)).length := exists_line_of_output hindex
      rw [← List.getElem?_eq_getElem hindex, output_of_earlier hline hend]
      by_cases hlast : index + 1 = (output (line + 1)).length
      · exact output_of_last hlive hline hlast
      · exact hright line hline index hstart (by omega)
  refine ⟨?_, hiff, ?_⟩
  · refine Nat.le_of_not_lt fun hmore => ?_
    have hindex : (output count).length - 1 < (output count).length := by omega
    obtain ⟨line, hline, -, hend⟩ : ∃ line < count, _ ∧
        (output count).length - 1 < (output (line + 1)).length := exists_line_of_output hindex
    have hlonger := hgrows line hline
    have hlast : (output count).length - 1 + 1 = (output (line + 1)).length := by omega
    have hright := output_of_last hlive hline hlast
    rw [List.getElem?_eq_getElem hend, List.getElem?_eq_none (by omega)] at hright
    cases hright
  · intro hsingle
    rw [hiff]
    intro line hline index hstart hindex
    have hone := hsingle line hline
    omega

/-- A text whose first line writes two values. -/
def twoOutputs : List Char :=
  "tally 1\n.data\ntapelength 1\n.text\noutput(1) + output(2)\nend()\n".toList

theorem Run.output_prefix_iff_of_running_twoOutputs :
    (Run.after (Program.read twoOutputs) { expectedOutput := [1, 2, 3] } 10 1).status = .running ∧
      (Run.after (Program.read twoOutputs) { expectedOutput := [1, 2, 3] } 10 1).memory.output <+:
        [1, 2, 3] := by
  have hrunning : (Run.after (Program.read twoOutputs) { expectedOutput := [1, 2, 3] } 10
      1).status = .running := by decide +kernel
  refine ⟨hrunning, (Run.output_prefix_iff_of_running _ _ _ _ hrunning).2.1.mpr ?_⟩
  intro line hline index _ hindex
  obtain rfl : line = 0 := by omega
  have hwritten : (Run.after (Program.read twoOutputs) { expectedOutput := [1, 2, 3] } 10
      1).memory.output = [1, 2] := by decide +kernel
  simp only [Nat.zero_add, hwritten] at hindex ⊢
  obtain rfl : index = 0 := by
    simp only [List.length_cons, List.length_nil] at hindex
    omega
  rfl

/-- The value that the second one of its line hides may be wrong. -/
theorem Run.running_after_wrong_output :
    (Program.read twoOutputs).isValid = true ∧
      (Run.after (Program.read twoOutputs) { expectedOutput := [9, 2] } 10 1).status = .running ∧
      ¬(Run.after (Program.read twoOutputs) { expectedOutput := [9, 2] } 10 1).memory.output <+:
        [9, 2] := by
  decide +kernel

end TapePuzzle
