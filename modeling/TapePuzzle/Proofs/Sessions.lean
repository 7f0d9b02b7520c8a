import TapePuzzle.Proofs.Execution.Progress
import TapePuzzle.Session

/-!
# The verdict of a session

A session steps through one test case, and looks at the others only when that one passes. All test
cases can also be run at once. Main statement: whatever steps and runs a session is asked for, it
shows what a run on its own would show after as many steps, and once that run is over, the verdict
is the one that the results of all test cases give.
-/

namespace TapePuzzle

/-- What a session can be asked for. -/
inductive Command where
  | step
  | run
  deriving DecidableEq, Repr

namespace Session

def obey (s : Session) : Command → Session
  | .step => s.step
  | .run => s.run

/-- Obeys commands one after the other. -/
def play (s : Session) (commands : List Command) : Session := commands.foldl obey s

/-- The number of steps that a command makes: as many as are left until the run shown is over, if
    it is to run. -/
def stepsFor (s : Session) : Command → Nat
  | .step => 1
  | .run =>
      match s.attempt with
      | none => 0
      | some a => (a.run.trace (a.run.limit + 1 - a.run.executed)).length

/-- The number of steps that commands make one after the other. -/
def stepsForAll : Session → List Command → Nat
  | _, [] => 0
  | s, command :: commands => s.stepsFor command + (s.obey command).stepsForAll commands

end Session

/-- A verdict on a run at test case `shown` that is over agrees with the results of all test cases:
    it is a success if all of them pass, it names the first one that does not if the one shown does,
    and otherwise it is the result of the one shown. -/
structure Verdict.AgreesWith (verdict : Verdict) (results : List CaseResult) (shown : Nat)
    (message : Option String) : Prop where
  success : verdict = .status .success ↔ ∀ result ∈ results, result.passed = true
  dubious : ∀ failing, verdict = .dubious failing ↔
    (∃ result, results[shown]? = some result ∧ result.passed = true) ∧
      (∃ result, results[failing]? = some result ∧ result.passed = false) ∧
      ∀ index < failing, ∀ result, results[index]? = some result → result.passed = true
  status : ∀ status, verdict = .status status →
    results[shown]? = some ⟨shown, status, message⟩

namespace Verdict

variable {results : List CaseResult} {shown failing : Nat} {status : Status}
  {message : Option String}

theorem agreesWith_success (hshown : results[shown]? = some ⟨shown, .success, message⟩)
    (hall : ∀ result ∈ results, result.passed = true) :
    (Verdict.status .success).AgreesWith results shown message where
  success := ⟨fun _ => hall, fun _ => rfl⟩
  dubious failing := by
    refine ⟨nofun, ?_⟩
    rintro ⟨-, ⟨result, hresult, hfails⟩, -⟩
    exact absurd (hall result (List.mem_of_getElem? hresult)) (by simp [hfails])
  status _ h := Verdict.status.inj h ▸ hshown

theorem agreesWith_dubious (hshown : results[shown]? = some ⟨shown, .success, message⟩)
    (hfails : ∃ result, results[failing]? = some result ∧ result.passed = false)
    (hbefore : ∀ index < failing, ∀ result, results[index]? = some result →
      result.passed = true) :
    (Verdict.dubious failing).AgreesWith results shown message where
  success := by
    obtain ⟨result, hresult, hfails⟩ := hfails
    refine ⟨nofun, fun hall => ?_⟩
    exact absurd (hall result (List.mem_of_getElem? hresult)) (by simp [hfails])
  dubious index := by
    constructor
    · intro h
      obtain rfl := Verdict.dubious.inj h
      exact ⟨⟨_, hshown, rfl⟩, hfails, hbefore⟩
    · rintro ⟨-, ⟨result, hresult, hresultFails⟩, hfirst⟩
      obtain ⟨other, hother, hotherFails⟩ := hfails
      -- neither of two first failing test cases comes before the other
      rcases Nat.lt_trichotomy failing index with hless | rfl | hless
      · exact absurd (hfirst _ hless _ hother) (by simp [hotherFails])
      · rfl
      · exact absurd (hbefore _ hless _ hresult) (by simp [hresultFails])
  status := nofun

theorem agreesWith_status (hshown : results[shown]? = some ⟨shown, status, message⟩)
    (hstatus : status ≠ .success) :
    (Verdict.status status).AgreesWith results shown message where
  success := by
    refine ⟨fun h => absurd (Verdict.status.inj h) hstatus, fun h => ?_⟩
    exact absurd (of_decide_eq_true (h _ (List.mem_of_getElem? hshown))) hstatus
  dubious failing := by
    refine ⟨nofun, ?_⟩
    rintro ⟨⟨result, hresult, hpassed⟩, -⟩
    obtain rfl := Option.some.inj (hshown.symm.trans hresult)
    exact absurd (of_decide_eq_true hpassed) hstatus
  status _ h := Verdict.status.inj h ▸ hshown

end Verdict

/-! ## Attempts -/

section Attempts

variable (puzzle : Puzzle) (limit : Nat) (submission : Submission) (caseIndex : Nat)
  (case : TestCase)

/-- The program that a submission gives for a test case. -/
def programFor : Program := Program.read (Assembly.build puzzle case submission).source

/-- A run of the submission on its own, after some steps. -/
def runFor (count : Nat) : Run := Run.after (programFor puzzle submission case) case limit count

/-- The attempt after some steps: its run is that of the submission on its own, and the other test
    cases were looked at if the run passes. -/
def Attempt.after (count : Nat) : Attempt :=
  { Attempt.start puzzle limit submission caseIndex case with
    run := runFor puzzle limit submission case count
    failing :=
      if (runFor puzzle limit submission case count).status = .success then
        firstFailing? puzzle limit submission caseIndex
      else none }

theorem Run.status_of_live {r : Run} (h : r.isOver = false) :
    r.status = .new ∨ r.status = .running := by
  rw [isOver] at h
  rw [status]
  cases hstage : r.stage with
  | new => exact .inl rfl
  | running => exact .inr rfl
  | ended ending =>
      rw [hstage] at h
      cases h

theorem Run.status_ne_success_of_live {r : Run} (h : r.isOver = false) : r.status ≠ .success := by
  rcases status_of_live h with hstatus | hstatus <;> simp [hstatus]

theorem Run.status_start_ne_success (program : Program) (case : TestCase) (limit : Nat) :
    (Run.start program case limit).status ≠ .success := by
  unfold Run.start Run.status
  dsimp only
  split <;> simp [Stage.status]

theorem Attempt.start_eq :
    Attempt.start puzzle limit submission caseIndex case =
      { submission := submission
        caseIndex := caseIndex
        assembly := Assembly.build puzzle case submission
        program := programFor puzzle submission case
        run := Run.start (programFor puzzle submission case) case limit } := rfl

theorem Attempt.after_zero :
    Attempt.after puzzle limit submission caseIndex case 0 =
      Attempt.start puzzle limit submission caseIndex case := by
  have hstart : runFor puzzle limit submission case 0 =
      Run.start (programFor puzzle submission case) case limit := rfl
  simp only [Attempt.after, Attempt.start_eq, hstart, Run.status_start_ne_success, if_false]

/-- A step looks at the other test cases exactly when it makes the run pass. -/
theorem Attempt.step_after (count : Nat) :
    (Attempt.after puzzle limit submission caseIndex case count).step puzzle limit =
      Attempt.after puzzle limit submission caseIndex case (count + 1) := by
  have hnext : (runFor puzzle limit submission case count).step =
      runFor puzzle limit submission case (count + 1) := rfl
  simp only [Attempt.step, Attempt.after, hnext]
  cases hover : (runFor puzzle limit submission case count).isOver with
  | true =>
      have hstatus : (runFor puzzle limit submission case (count + 1)).status =
          (runFor puzzle limit submission case count).status := by
        rw [← hnext, Run.step_of_isOver hover]
        rfl
      simp [hstatus]
  | false =>
      have hlive := Run.status_ne_success_of_live hover
      simp only [hlive, if_false, Bool.not_false, Bool.true_and, decide_eq_true_eq]
      split <;> rfl

@[simp] theorem Attempt.run_after (count : Nat) :
    (Attempt.after puzzle limit submission caseIndex case count).run =
      runFor puzzle limit submission case count := rfl

theorem Attempt.steps_after (start count : Nat) :
    (Attempt.after puzzle limit submission caseIndex case start).steps puzzle limit count =
      Attempt.after puzzle limit submission caseIndex case
        (start + ((runFor puzzle limit submission case start).trace count).length) := by
  induction count generalizing start with
  | zero => rfl
  | succ count ih =>
      have hnext : (runFor puzzle limit submission case start).step =
          runFor puzzle limit submission case (start + 1) := rfl
      rw [Attempt.steps, Run.trace, Attempt.run_after]
      split
      · rfl
      · rw [Attempt.step_after, ih, hnext, List.length_cons, Nat.add_assoc, Nat.add_comm 1]

end Attempts

/-! ## Results -/

section Results

variable {puzzle : Puzzle} {limit : Nat} {submission : Submission} {shown index failing : Nat}
  {case : TestCase} {result : CaseResult}

theorem getElem?_runCases (puzzle : Puzzle) (limit : Nat) (submission : Submission) (index : Nat) :
    (runCases puzzle limit submission)[index]? =
      puzzle.testCases[index]?.map (runCase puzzle limit submission index) := by
  rw [runCases, List.getElem?_map, List.getElem?_zipIdx, Option.map_map, Nat.zero_add]
  rfl

theorem caseIndex_of_getElem? (h : (runCases puzzle limit submission)[index]? = some result) :
    result.caseIndex = index := by
  rw [getElem?_runCases] at h
  obtain ⟨case, -, rfl⟩ := Option.map_eq_some_iff.mp h
  rfl

theorem Run.status_complete {program : Program} {count : Nat}
    (hover : (Run.after program case limit count).isOver = true) :
    (Run.start program case limit).complete.status = (Run.after program case limit count).status ∧
      (Run.start program case limit).complete.message? =
        (Run.after program case limit count).message? :=
  have hsnapshot := Run.snapshot_complete hover
  ⟨congrArg Snapshot.status hsnapshot, congrArg Snapshot.message hsnapshot⟩

/-- The result of a test case is what its run shows, however many steps it took to end it. -/
theorem getElem?_runCases_of_isOver {count : Nat} (hcase : puzzle.testCases[shown]? = some case)
    (hover : (runFor puzzle limit submission case count).isOver = true) :
    (runCases puzzle limit submission)[shown]? =
      some ⟨shown, (runFor puzzle limit submission case count).status,
        (runFor puzzle limit submission case count).message?⟩ := by
  unfold runFor at hover ⊢
  obtain ⟨hstatus, hmessage⟩ := Run.status_complete hover
  rw [getElem?_runCases, hcase, Option.map_some, runCase]
  simp only [Attempt.start_eq, hstatus, hmessage]

/-- Looking for the first other test case that does not pass is looking among the results. -/
theorem firstFailing?_eq (puzzle : Puzzle) (limit : Nat) (submission : Submission) (shown : Nat) :
    firstFailing? puzzle limit submission shown =
      ((runCases puzzle limit submission).find? fun result =>
        decide (result.caseIndex ≠ shown ∧ result.passed = false)).map CaseResult.caseIndex := by
  rw [firstFailing?, List.find?_filter, runCases, List.find?_map, Option.map_map]
  simp only [decide_eq_true_eq, Bool.not_eq_true', Function.comp_def]
  rfl

theorem firstFailing?_eq_none_iff :
    firstFailing? puzzle limit submission shown = none ↔
      ∀ result ∈ runCases puzzle limit submission, result.caseIndex ≠ shown →
        result.passed = true := by
  rw [firstFailing?_eq, Option.map_eq_none_iff, List.find?_eq_none]
  simp

theorem firstFailing?_eq_some_iff :
    firstFailing? puzzle limit submission shown = some failing ↔
      failing ≠ shown ∧
        (∃ result, (runCases puzzle limit submission)[failing]? = some result ∧
          result.passed = false) ∧
        ∀ index < failing, index ≠ shown → ∀ result,
          (runCases puzzle limit submission)[index]? = some result → result.passed = true := by
  rw [firstFailing?_eq, Option.map_eq_some_iff]
  simp only [List.find?_eq_some_iff_getElem, decide_eq_true_eq, Bool.not_eq_true',
    decide_eq_false_iff_not, not_and, Bool.not_eq_false]
  constructor
  · rintro ⟨result, ⟨⟨hshown, hfails⟩, index, hlength, hresult, hbefore⟩, rfl⟩
    have hget := List.getElem?_eq_some_iff.mpr ⟨hlength, hresult⟩
    obtain rfl := caseIndex_of_getElem? hget
    refine ⟨hshown, ⟨result, hget, hfails⟩, ?_⟩
    intro index hindex hother earlier hearlier
    obtain ⟨_, hsame⟩ := List.getElem?_eq_some_iff.mp hearlier
    rw [← hsame]
    exact hbefore index hindex (by rwa [hsame, caseIndex_of_getElem? hearlier])
  · rintro ⟨hshown, ⟨result, hresult, hfails⟩, hbefore⟩
    obtain rfl := caseIndex_of_getElem? hresult
    obtain ⟨hlength, hget⟩ := List.getElem?_eq_some_iff.mp hresult
    refine ⟨result, ⟨⟨hshown, hfails⟩, _, hlength, hget, ?_⟩, rfl⟩
    intro index hindex hother
    have hearlier := List.getElem?_eq_getElem (Nat.lt_trans hindex hlength)
    exact hbefore index hindex (by rwa [caseIndex_of_getElem? hearlier] at hother) _ hearlier

/-- The other test cases all pass if no one is found that does not. -/
theorem passed_of_firstFailing?_eq_none {message : Option String}
    (hshown : (runCases puzzle limit submission)[shown]? = some ⟨shown, .success, message⟩)
    (hnone : firstFailing? puzzle limit submission shown = none) :
    ∀ result ∈ runCases puzzle limit submission, result.passed = true := by
  intro result hmem
  obtain ⟨index, hresult⟩ := List.mem_iff_getElem?.mp hmem
  by_cases hindex : index = shown
  · obtain rfl := Option.some.inj (hshown.symm.trans (hindex ▸ hresult))
    rfl
  · refine firstFailing?_eq_none_iff.mp hnone result hmem ?_
    rwa [caseIndex_of_getElem? hresult]

/-- The verdict on an attempt that is over agrees with the results of all test cases. -/
theorem Attempt.verdict_after {count : Nat} (hcase : puzzle.testCases[shown]? = some case)
    (hover : (runFor puzzle limit submission case count).isOver = true) :
    (Attempt.after puzzle limit submission shown case count).verdict.AgreesWith
      (runCases puzzle limit submission) shown
      (runFor puzzle limit submission case count).message? := by
  have hshown := getElem?_runCases_of_isOver hcase hover
  unfold Attempt.verdict Attempt.after
  by_cases hsuccess : (runFor puzzle limit submission case count).status = .success
  · rw [hsuccess] at hshown
    simp only [hsuccess, if_true]
    cases hfirst : firstFailing? puzzle limit submission shown with
    | none =>
        exact Verdict.agreesWith_success hshown (passed_of_firstFailing?_eq_none hshown hfirst)
    | some failing =>
        obtain ⟨-, hfails, hbefore⟩ := firstFailing?_eq_some_iff.mp hfirst
        refine Verdict.agreesWith_dubious hshown hfails fun index hindex result hresult => ?_
        by_cases heq : index = shown
        · obtain rfl := Option.some.inj (hshown.symm.trans (heq ▸ hresult))
          rfl
        · exact hbefore index hindex heq result hresult
  · simp only [hsuccess, if_false]
    exact Verdict.agreesWith_status hshown hsuccess

end Results

/-! ## Sessions -/

section Sessions

variable (s : Session) (submission : Submission) (caseIndex : Nat) (case : TestCase) (count : Nat)

/-- The session after some steps of an attempt. -/
def Session.after : Session :=
  { s with attempt := some (Attempt.after s.puzzle s.lineLimit submission caseIndex case count) }

variable {case} in
theorem Session.begin_eq (hcase : s.puzzle.testCases[caseIndex]? = some case) :
    s.begin submission caseIndex = .ok (s.after submission caseIndex case 0) := by
  rw [Session.begin, hcase, Session.after, Attempt.after_zero]

theorem Session.stepsFor_run :
    (s.after submission caseIndex case count).stepsFor .run =
      let r := runFor s.puzzle s.lineLimit submission case count
      (r.trace (r.limit + 1 - r.executed)).length := rfl

theorem Session.obey_after (command : Command) :
    (s.after submission caseIndex case count).obey command =
      s.after submission caseIndex case
        (count + (s.after submission caseIndex case count).stepsFor command) := by
  cases command with
  | step =>
      simp only [obey, Session.step, Session.after, Option.map_some, Attempt.step_after, stepsFor]
  | run =>
      rw [stepsFor_run]
      simp only [obey, Session.run, Session.after, Option.map_some, Attempt.steps_after,
        Attempt.run_after]

theorem Session.play_after (commands : List Command) :
    (s.after submission caseIndex case count).play commands =
      s.after submission caseIndex case
        (count + (s.after submission caseIndex case count).stepsForAll commands) := by
  induction commands generalizing count with
  | nil => rfl
  | cons command commands ih =>
      rw [play, List.foldl_cons, ← play, stepsForAll, obey_after, ih, Nat.add_assoc]

/-- Running goes on to the end of the run. -/
theorem Session.isOver_stepsFor_run :
    (runFor s.puzzle s.lineLimit submission case
      (count + (s.after submission caseIndex case count).stepsFor .run)).isOver = true := by
  have hend : (runFor s.puzzle s.lineLimit submission case count).complete.isOver = true :=
    Run.isOver_complete Run.executed_le_of_live
  rw [Run.complete, runFor, Run.steps_after] at hend
  rw [stepsFor_run]
  exact hend

theorem Session.isOver_of_run_mem {commands : List Command} (h : Command.run ∈ commands) :
    (runFor s.puzzle s.lineLimit submission case
      (count + (s.after submission caseIndex case count).stepsForAll commands)).isOver = true := by
  induction commands generalizing count with
  | nil => cases h
  | cons command commands ih =>
      rw [stepsForAll, obey_after, ← Nat.add_assoc]
      rcases List.mem_cons.mp h with rfl | hmem
      · exact Run.isOver_after (Nat.le_add_right _ _)
          (s.isOver_stepsFor_run submission caseIndex case count)
      · exact ih _ hmem

theorem Session.state_after :
    (s.after submission caseIndex case count).state =
      ⟨(Attempt.after s.puzzle s.lineLimit submission caseIndex case count).verdict,
        some caseIndex, some (runFor s.puzzle s.lineLimit submission case count).snapshot⟩ := rfl

variable {s submission case} in
/-- Once the run shown is over, no step changes what is shown. -/
theorem Session.state_after_of_isOver {earlier later : Nat} (h : earlier ≤ later)
    (hover : (runFor s.puzzle s.lineLimit submission case earlier).isOver = true) :
    (s.after submission caseIndex case later).state =
      (s.after submission caseIndex case earlier).state := by
  have hsnapshot := Run.snapshot_after h hover
  have hstatus := congrArg Snapshot.status hsnapshot
  change (runFor s.puzzle s.lineLimit submission case later).status =
    (runFor s.puzzle s.lineLimit submission case earlier).status at hstatus
  rw [state_after, state_after, runFor, hsnapshot, runFor]
  simp only [Attempt.verdict, Attempt.after, hstatus]

variable {submission case count} in
theorem Attempt.verdict_of_live {puzzle : Puzzle} {limit : Nat}
    (hlive : (runFor puzzle limit submission case count).isOver = false) :
    (Attempt.after puzzle limit submission caseIndex case count).verdict = .status .new ∨
      (Attempt.after puzzle limit submission caseIndex case count).verdict = .status .running := by
  have hsuccess := Run.status_ne_success_of_live hlive
  simp only [Attempt.verdict, Attempt.after, hsuccess, if_false, Verdict.status.injEq]
  exact Run.status_of_live hlive

end Sessions

/-- A session shows what a run of the submission on its own shows after the same number of steps.
    As long as that is not over, the verdict leaves everything open. Running ends it, and then the
    verdict agrees with the results of all test cases and stays. -/
theorem Session.verdict_agrees_with_checkAll (s : Session) (submission : Submission)
    (caseIndex : Nat) (case : TestCase)
    (hcase : s.puzzle.testCases[caseIndex]? = some case) :
    ∃ begun, s.begin submission caseIndex = .ok begun ∧ ∀ commands : List Command,
      let t := begun.play commands
      let r := runFor s.puzzle s.lineLimit submission case (begun.stepsForAll commands)
      t.state.caseIndex = some caseIndex ∧ t.state.snapshot = some r.snapshot ∧
        t.events = r.events ∧
        (r.isOver = false → t.state.verdict = .status .new ∨ t.state.verdict = .status .running) ∧
        (.run ∈ commands → r.isOver = true) ∧
        (r.isOver = true →
          t.state.verdict.AgreesWith t.checkAll caseIndex r.snapshot.message ∧
            ∀ more : List Command, (t.play more).state = t.state) := by
  refine ⟨s.after submission caseIndex case 0, begin_eq s submission caseIndex hcase, ?_⟩
  intro commands t r
  have ht : t = s.after submission caseIndex case
      ((s.after submission caseIndex case 0).stepsForAll commands) := by
    have hplay := s.play_after submission caseIndex case 0 commands
    rwa [Nat.zero_add] at hplay
  rw [ht]
  refine ⟨rfl, rfl, rfl, Attempt.verdict_of_live caseIndex, fun hrun => ?_, fun hover => ⟨?_, ?_⟩⟩
  · have hend := s.isOver_of_run_mem submission caseIndex case 0 hrun
    rwa [Nat.zero_add] at hend
  · exact Attempt.verdict_after hcase hover
  · intro more
    rw [play_after]
    exact state_after_of_isOver caseIndex (Nat.le_add_right _ _) hover

/-- A puzzle whose second test case expects something else than the others. -/
def oneOrTwo : Puzzle where
  slotCount := 1
  testCases := [{ expectedOutput := [1] }, { expectedOutput := [2] }, { expectedOutput := [1] }]

/-- Writes a one, whatever the test case. -/
def alwaysOne : Submission := ⟨"output(1)\nend()".toList, []⟩

theorem Session.verdict_agrees_with_checkAll_oneOrTwo :
    oneOrTwo.testCases[2]? = some { expectedOutput := [1] } ∧
      ∃ begun, Session.begin ⟨oneOrTwo, 10, none⟩ alwaysOne 2 = .ok begun ∧
        (begun.play [.step, .run]).checkAll =
          [⟨0, .success, some "end() called"⟩, ⟨1, .fail, some "output 0 should be 2 but was 1"⟩,
            ⟨2, .success, some "end() called"⟩] ∧
        (begun.play [.step, .run]).state.verdict = .dubious 1 := by
  have hcase : oneOrTwo.testCases[2]? = some { expectedOutput := [1] } := rfl
  obtain ⟨begun, hbegun, hplay⟩ :=
    Session.verdict_agrees_with_checkAll ⟨oneOrTwo, 10, none⟩ alwaysOne 2 _ hcase
  obtain ⟨-, -, -, -, hrun, hover⟩ := hplay [.step, .run]
  have hagrees := (hover (hrun (by decide))).1
  have hresults : (begun.play [.step, .run]).checkAll =
      [⟨0, .success, some "end() called"⟩, ⟨1, .fail, some "output 0 should be 2 but was 1"⟩,
        ⟨2, .success, some "end() called"⟩] := by
    rw [← Except.ok.inj hbegun]
    decide +kernel
  rw [hresults] at hagrees
  refine ⟨hcase, begun, hbegun, hresults, ?_⟩
  refine (hagrees.dubious 1).mpr ⟨⟨_, rfl, rfl⟩, ⟨_, rfl, rfl⟩, ?_⟩
  intro index hindex result hresult
  obtain rfl : index = 0 := by omega
  cases hresult
  rfl

end TapePuzzle
