import TapePuzzle.Proofs.Execution.Progress
import TapePuzzle.Proofs.Structure.Walk

/-!
# Runs and walks, line by line

A run that keeps its open blocks and a walk along a tree of blocks are at the same point if they
agree in all but the blocks, and if closing blocks leads the run to where the walk goes on. Main
statement: from there, both execute the same line with the same effect.
-/

namespace TapePuzzle

/-! ## Closing blocks -/

namespace Control

section Close

variable {lines : List Line} {above behind : List CodeLine} {next : CodeLine} {header : Nat}
  {blocks : List OpenBlock} (hsplit : codeFrom 0 lines = above ++ next :: behind)

include hsplit

/-- A line that is deep enough closes nothing. -/
theorem close_of_inside (hdepth : blocks.length ≤ next.depth) :
    close lines next.index blocks = .ok (next.index, blocks) := by
  cases blocks with
  | nil => rfl
  | cons block outer =>
      rw [List.length_cons] at hdepth
      simp only [close, depthAt_of_split hsplit, bind, Except.bind]
      rw [if_pos (by omega)]

/-- Leaving a loop leads back to its header. -/
theorem close_while (hdepth : next.depth ≤ blocks.length) :
    close lines next.index (⟨header, .whileBlock⟩ :: blocks) = .ok (header, blocks) := by
  simp only [close, depthAt_of_split hsplit, bind, Except.bind]
  rw [if_neg (by omega)]

theorem close_else (hdepth : next.depth ≤ blocks.length) :
    close lines next.index (⟨header, .elseBlock⟩ :: blocks) = close lines next.index blocks := by
  simp only [close, depthAt_of_split hsplit, bind, Except.bind]
  rw [if_neg (by omega)]

theorem close_if (hdepth : next.depth < blocks.length ∨
    next.depth = blocks.length ∧ next.isElse = false) :
    close lines next.index (⟨header, .ifBlock⟩ :: blocks) = close lines next.index blocks := by
  simp only [close, depthAt_of_split hsplit, isElseAt_of_split hsplit, bind, Except.bind]
  rw [if_neg (by omega), if_neg]
  rintro ⟨hlength, helse⟩
  rcases hdepth with hless | ⟨-, hnot⟩
  · omega
  · rw [hnot] at helse
    cases helse

/-- Leaving an `if` leads past its `else`. -/
theorem close_if_of_isElse {target : Nat} (hdepth : next.depth = blocks.length)
    (helse : next.isElse = true) (hlanding : landing lines next.index = .ok target) :
    close lines next.index (⟨header, .ifBlock⟩ :: blocks) = close lines target blocks := by
  simp only [close, depthAt_of_split hsplit, isElseAt_of_split hsplit, bind, Except.bind]
  rw [if_neg (by omega), if_pos ⟨hdepth.symm, helse⟩, hlanding]

end Close

end Control

/-! ## Steps of a run -/

namespace Run

theorem bare_checkOutput (r : Run) : r.checkOutput.bare = r.bare.checkOutput :=
  (checkOutput_recast id id (fun control => { position := control.position }) r).symm

theorem bare_settle (r : Run) (stop : Stop) : (r.settle stop).bare = r.bare.settle stop :=
  (settle_recast id id (fun control => { position := control.position }) r stop).symm

variable {r : Run}

theorem executeLine_eq {α : Type} {index depth : Nat} {statement : Statement} {work : Eval α}
    {onward : α → Onward} (hline : r.program.lines[index]? = some (.code depth statement))
    (hperform : perform r.program statement = work >>= fun value => pure (onward value)) :
    r.executeLine index =
      match work.run ⟨r.memory, []⟩ with
      | (.ok value, machine) =>
          { r with
            memory := machine.memory, events := machine.events, stage := .running,
            control := { r.control with onward := onward value } }
      | (.error stop, machine) =>
          settle { r with memory := machine.memory, events := machine.events } stop := by
  simp only [executeLine, hline, Option.bind_some, Line.statement?, hperform, Eval.run_bind]
  rcases work.run ⟨r.memory, []⟩ with ⟨result, machine⟩
  cases result <;> rfl

section Step

variable {α : Type} {index depth : Nat} {blocks : List OpenBlock} {statement : Statement}
  {work : Eval α} {onward : α → Onward} (hover : r.isOver = false)
  (hnext : r.control.next r.program.lines = .ok (index, blocks))
  (hline : r.program.lines[index]? = some (.code depth statement))
  (hperform : perform r.program statement = work >>= fun value => pure (onward value))

include hover hnext hline hperform

/-- A step to the line at `index`, which does `work` and goes on as its value says. -/
theorem step_eq : r.step =
    if r.limit < r.executed + 1 then
      (r.moveTo index blocks).finish (.error (.lineLimit r.limit))
    else
      match work.run ⟨r.memory, []⟩ with
      | (.ok value, machine) =>
          checkOutput { r.moveTo index blocks with
            memory := machine.memory, events := machine.events, stage := .running,
            control := ⟨some index, onward value, blocks⟩ }
      | (.error stop, machine) =>
          settle { r.moveTo index blocks with
            memory := machine.memory, events := machine.events } stop := by
  have hcode : r.program.hasCode = true := by
    rw [Program.hasCode, List.any_eq_true]
    exact ⟨_, List.mem_of_getElem? hline, rfl⟩
  rw [step, plainStep_eq hover hcode hnext]
  by_cases hlimit : r.limit < r.executed + 1
  · rw [if_pos hlimit, if_pos hlimit]
    exact checkOutput_of_isOver rfl
  · rw [if_neg hlimit, if_neg hlimit, executeLine_eq (r := r.moveTo index blocks) hline hperform,
      memory_moveTo]
    rcases work.run ⟨r.memory, []⟩ with ⟨result, machine⟩
    cases result with
    | ok value => rfl
    | error stop => exact checkOutput_of_isOver (isOver_settle _ stop)

/-- The step counts the line, and does not go beyond the limit. -/
theorem step_counts : r.step.program = r.program ∧ r.step.limit = r.limit ∧
    r.step.executed = r.executed + 1 ∧ r.step.control.position = some index ∧
    (r.step.isOver = false → r.executed + 1 ≤ r.limit) := by
  rw [step_eq hover hnext hline hperform]
  by_cases hlimit : r.limit < r.executed + 1
  · rw [if_pos hlimit]
    refine ⟨rfl, rfl, rfl, rfl, ?_⟩
    intro hlive
    cases hlive
  · have hbound : r.executed + 1 ≤ r.limit := Nat.le_of_not_lt hlimit
    rw [if_neg hlimit]
    rcases work.run ⟨r.memory, []⟩ with ⟨result, machine⟩
    cases result with
    | ok value => simp [moveTo, hbound]
    | error stop => simp [moveTo]

/-- A walk does the same at the line, and the value that it finds is how the run goes on. -/
theorem visit_bare (visited : List Nat) : ∃ value?,
    (Walk.mk r.bare visited).visit index work = (value?, ⟨r.step.bare, visited ++ [index]⟩) ∧
      (r.step.isOver = false → ∃ value, value? = some value ∧
        r.step.control = ⟨some index, onward value, blocks⟩) := by
  have hwalk : (Walk.mk r.bare visited).isOver = false := hover
  unfold Walk.visit
  rw [hwalk, if_neg Bool.false_ne_true, step_eq hover hnext hline hperform]
  by_cases hlimit : r.limit < r.executed + 1
  · rw [if_pos hlimit]
    refine ⟨none, if_pos hlimit, ?_⟩
    intro hlive
    cases hlive
  · rw [if_neg hlimit]
    simp only [memory_bare]
    rcases work.run ⟨r.memory, []⟩ with ⟨result, machine⟩
    cases result with
    | ok value =>
        refine ⟨some value, (if_neg hlimit).trans ?_, fun _ => ⟨value, rfl, ?_⟩⟩
        · rw [bare_checkOutput]
          rfl
        · exact control_checkOutput _
    | error stop =>
        refine ⟨none, (if_neg hlimit).trans ?_, by simp⟩
        rw [bare_settle]
        rfl

end Step

end Run

/-! ## Points -/

/-- A run of `p` and a walk agree. The lines met are counted, and a run that is not over is within
    its limit. -/
structure Agrees (p : Program) (limit : Nat) (r : Run) (w : Walk) : Prop where
  program : r.program = p
  runLimit : r.limit = limit
  run : w.run = r.bare
  count : w.visited.length = r.executed
  bound : r.executed ≤ limit + 1
  live : r.isOver = false → r.executed ≤ limit

/-- A run of `p` is where a walk is. If it is not over, it goes on by closing those of the `blocks`
    that the line `ahead` is outside of. -/
structure SamePoint (p : Program) (limit : Nat) (ahead : CodeLine) (blocks : List OpenBlock)
    (r : Run) (w : Walk) : Prop extends Agrees p limit r w where
  next : r.isOver = false →
    r.control.next p.lines = Control.close p.lines ahead.index blocks

theorem Agrees.isOver_eq {p : Program} {limit : Nat} {r : Run} {w : Walk}
    (h : Agrees p limit r w) : w.isOver = r.isOver := by
  rw [Walk.isOver, h.run, Run.isOver_bare]

namespace SamePoint

variable {p : Program} {limit : Nat} {ahead ahead' : CodeLine} {blocks blocks' : List OpenBlock}
  {r : Run} {w : Walk}

/-- Where a run that is over would go on does not matter. -/
theorem of_isOver (h : SamePoint p limit ahead blocks r w) (hover : r.isOver = true) :
    SamePoint p limit ahead' blocks' r w :=
  ⟨h.toAgrees, fun hlive => absurd hover (by simp [hlive])⟩

theorem of_close (h : SamePoint p limit ahead blocks r w)
    (hclose : Control.close p.lines ahead.index blocks =
      Control.close p.lines ahead'.index blocks') :
    SamePoint p limit ahead' blocks' r w :=
  ⟨h.toAgrees, fun hlive => (h.next hlive).trans hclose⟩

/-- Executing a line takes a run and a walk from the same point to states that agree, and the run
    goes on as the value of the line says. -/
theorem step {α : Type} {line : CodeLine} {above behind : List CodeLine} {work : Eval α}
    {onward : α → Onward} (h : SamePoint p limit line blocks r w) (hover : r.isOver = false)
    (hsplit : p.code = above ++ line :: behind) (hdepth : line.depth = blocks.length)
    (hperform : Run.perform p line.statement = work >>= fun value => pure (onward value)) :
    ∃ value?, w.visit line.index work = (value?, ⟨r.step.bare, w.visited ++ [line.index]⟩) ∧
      Agrees p limit r.step ⟨r.step.bare, w.visited ++ [line.index]⟩ ∧
      r.step.control.position = some line.index ∧
      (r.step.isOver = false → ∃ value, value? = some value ∧
        r.step.control = ⟨some line.index, onward value, blocks⟩) := by
  obtain ⟨⟨hprogram, hlimit, hrun, hcount, -, hlive⟩, hnext⟩ := h
  obtain ⟨run, visited⟩ := w
  subst hprogram hlimit
  obtain rfl : run = r.bare := hrun
  have hnext' := (hnext hover).trans
    (Control.close_of_inside hsplit (Nat.le_of_eq hdepth.symm))
  have hline := getElem?_of_split hsplit
  obtain ⟨hprogram, hlimit, hexecuted, hposition, hbound⟩ :=
    Run.step_counts hover hnext' hline hperform
  have hagrees : Agrees r.program r.limit r.step ⟨r.step.bare, visited ++ [line.index]⟩ := by
    refine ⟨hprogram, hlimit, rfl, ?_, ?_, ?_⟩
    · rw [List.length_append, show visited.length = _ from hcount, hexecuted]
      rfl
    · rw [hexecuted]
      exact Nat.succ_le_succ (hlive hover)
    · rw [hexecuted]
      exact hbound
  obtain ⟨value?, hvisit, hgoing⟩ := Run.visit_bare hover hnext' hline hperform visited
  exact ⟨value?, hvisit, hagrees, hposition, hgoing⟩

end SamePoint

end TapePuzzle
