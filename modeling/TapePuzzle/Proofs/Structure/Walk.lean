import TapePuzzle.Execution.Run
import TapePuzzle.Proofs.Structure.Tree

/-!
# Running a tree of blocks

What a program without jumps means when it is taken as a tree: the statements of a block are carried
out in order, an `if` chooses a block, a `while` repeats one. No line has to be looked for here, so
there are no open blocks to keep. Lines count against the limit of the run as they are met.
-/

namespace TapePuzzle

/-- A run along a tree. -/
structure Walk where
  /-- The state of the run. Of its control, only the position is in use. -/
  run : Run
  /-- The lines met, first to last. -/
  visited : List Nat := []
  deriving DecidableEq, Repr

def Plain.carryOut : Plain → Eval Unit
  | assign target value => TapePuzzle.assign target value
  | evaluate equation => do
      let _ ← equation.eval

namespace Walk

def isOver (w : Walk) : Bool := w.run.isOver

/-- Executes the line at `index`, which does `work`, and checks the output, unless it is one line
    too many. Nothing happens once the run is over. -/
def visit {α : Type} (index : Nat) (work : Eval α) (w : Walk) : Option α × Walk :=
  if w.isOver then (none, w)
  else
    let visited := w.visited ++ [index]
    let r : Run := { w.run with
      control := { position := some index }, executed := w.run.executed + 1, events := [] }
    if r.limit < r.executed then (none, ⟨r.finish (.error (.lineLimit r.limit)), visited⟩)
    else
      match work.run ⟨r.memory, []⟩ with
      | (.ok value, machine) =>
          let r := { r with memory := machine.memory, events := machine.events, stage := .running }
          (some value, ⟨r.checkOutput, visited⟩)
      | (.error stop, machine) =>
          let r := { r with memory := machine.memory, events := machine.events }
          (none, ⟨r.settle stop, visited⟩)

/-- Executes a header, and says whether its condition holds. -/
def test (index : Nat) (condition : Expr) (w : Walk) : Bool × Walk :=
  let (value?, w) := w.visit index condition.eval
  (value?.any (· ≠ 0), w)

/-- Repeats `body` as long as `test` holds before, but not more than `passes` times. -/
def loop (test : Walk → Bool × Walk) (body : Walk → Walk) : (passes : Nat) → Walk → Walk
  | 0, w => w
  | passes + 1, w =>
      match test w with
      | (true, w) => loop test body passes (body w)
      | (false, w) => w

end Walk

namespace Block

/-- Carries out a block. No loop is repeated more than `passes` times. -/
def exec (passes : Nat) : Block → Walk → Walk
  | done, w => w
  | plain index statement rest, w => rest.exec passes (w.visit index statement.carryOut).2
  | branch index condition body rest, w =>
      match w.test index condition with
      | (true, w) => rest.exec passes (body.exec passes w)
      | (false, w) => rest.exec passes w
  | branchElse index condition body elseIndex elseBody rest, w =>
      match w.test index condition with
      | (true, w) => rest.exec passes (body.exec passes w)
      | (false, w) => rest.exec passes (elseBody.exec passes (w.visit elseIndex (pure ())).2)
  | loop index condition body rest, w =>
      rest.exec passes (Walk.loop (Walk.test index condition) (body.exec passes) passes w)

/-- Carries out a whole program again and again until the run is over. An empty program fails. -/
def run (passes : Nat) (tree : Block) (r : Run) : Walk :=
  if tree = done then { run := r.finish (.fail .emptyProgram) }
  else Walk.loop (fun w => (!w.isOver, w)) (tree.exec passes) passes { run := r }

end Block

/-- The run with nothing left of its control but the position. -/
def Run.bare (r : Run) : Run := { r with control := { position := r.control.position } }

namespace Run

@[simp] theorem isOver_bare (r : Run) : r.bare.isOver = r.isOver := rfl

@[simp] theorem memory_bare (r : Run) : r.bare.memory = r.memory := rfl

@[simp] theorem snapshot_bare (r : Run) : r.bare.snapshot = r.snapshot := rfl

end Run

/-! ## Lines met -/

namespace Walk

/-- Every line met by a walk that is not over is noted. -/
theorem visited_visit {α : Type} (index : Nat) (work : Eval α) (w : Walk) :
    (w.visit index work).2.visited = if w.isOver then w.visited else w.visited ++ [index] := by
  unfold visit
  split
  · rfl
  · dsimp only
    split
    · rfl
    · split <;> rfl

theorem visited_prefix_visit {α : Type} (index : Nat) (work : Eval α) (w : Walk) :
    w.visited <+: (w.visit index work).2.visited := by
  rw [visited_visit]
  split
  · exact List.prefix_rfl
  · exact List.prefix_append _ _

theorem visited_prefix_test (index : Nat) (condition : Expr) (w : Walk) :
    w.visited <+: (w.test index condition).2.visited :=
  visited_prefix_visit index condition.eval w

section Loop

variable {test : Walk → Bool × Walk} {body : Walk → Walk}
  (htest : ∀ w, w.visited <+: (test w).2.visited) (hbody : ∀ w, w.visited <+: (body w).visited)

include hbody

/-- With a pass left, a loop begins with its test. -/
theorem test_prefix_loop {passes : Nat}
    (hloop : ∀ w : Walk, w.visited <+: (loop test body passes w).visited) (w : Walk) :
    (test w).2.visited <+: (loop test body (passes + 1) w).visited := by
  unfold loop
  split
  · rename_i w' hw
    rw [hw]
    exact (hbody w').trans (hloop _)
  · rename_i w' hw
    simp [hw]

include htest

theorem visited_prefix_loop (passes : Nat) (w : Walk) :
    w.visited <+: (loop test body passes w).visited := by
  induction passes generalizing w with
  | zero => exact List.prefix_rfl
  | succ passes ih => exact (htest w).trans (test_prefix_loop hbody ih w)

end Loop

end Walk

namespace Block

theorem visited_prefix_exec (passes : Nat) (b : Block) (w : Walk) :
    w.visited <+: (b.exec passes w).visited := by
  induction b generalizing w with
  | done => exact List.prefix_rfl
  | plain index statement rest ih =>
      exact (Walk.visited_prefix_visit index statement.carryOut w).trans (ih _)
  | branch index condition body rest ihBody ihRest =>
      have htest := Walk.visited_prefix_test index condition w
      unfold exec
      split
      · rename_i w' hw
        rw [hw] at htest
        exact htest.trans ((ihBody w').trans (ihRest _))
      · rename_i w' hw
        rw [hw] at htest
        exact htest.trans (ihRest _)
  | branchElse index condition body elseIndex elseBody rest ihBody ihElse ihRest =>
      have htest := Walk.visited_prefix_test index condition w
      unfold exec
      split
      · rename_i w' hw
        rw [hw] at htest
        exact htest.trans ((ihBody w').trans (ihRest _))
      · rename_i w' hw
        rw [hw] at htest
        have helse := Walk.visited_prefix_visit elseIndex (pure () : Eval Unit) w'
        exact htest.trans (helse.trans ((ihElse _).trans (ihRest _)))
  | loop index condition body rest ihBody ihRest =>
      have hloop := Walk.visited_prefix_loop (Walk.visited_prefix_test index condition) ihBody
        passes w
      exact hloop.trans (ihRest _)

/-- A block that is not empty meets a line. -/
theorem length_visited_lt_exec {passes : Nat} (hpasses : 0 < passes) {b : Block} (hb : b ≠ done)
    {w : Walk} (hover : w.isOver = false) :
    w.visited.length < (b.exec passes w).visited.length := by
  have hvisit : ∀ {α : Type} (index : Nat) (work : Eval α),
      w.visited.length < (w.visit index work).2.visited.length := by
    intro α index work
    rw [Walk.visited_visit, if_neg (by simp [hover])]
    simp
  have hlater : ∀ (b : Block) (w' : Walk), w.visited.length < w'.visited.length →
      w.visited.length < (b.exec passes w').visited.length := by
    intro b w' hlength
    exact Nat.lt_of_lt_of_le hlength (visited_prefix_exec passes b w').length_le
  cases b with
  | done => exact absurd rfl hb
  | plain index statement rest => exact hlater rest _ (hvisit index statement.carryOut)
  | branch index condition body rest =>
      have htest : w.visited.length < (w.test index condition).2.visited.length :=
        hvisit index condition.eval
      unfold exec
      split
      · rename_i w' hw
        rw [hw] at htest
        exact hlater rest _ (hlater body w' htest)
      · rename_i w' hw
        rw [hw] at htest
        exact hlater rest w' htest
  | branchElse index condition body elseIndex elseBody rest =>
      have htest : w.visited.length < (w.test index condition).2.visited.length :=
        hvisit index condition.eval
      unfold exec
      split
      · rename_i w' hw
        rw [hw] at htest
        exact hlater rest _ (hlater body w' htest)
      · rename_i w' hw
        rw [hw] at htest
        have helse := (Walk.visited_prefix_visit elseIndex (pure () : Eval Unit) w').length_le
        exact hlater rest _ (hlater elseBody _ (Nat.lt_of_lt_of_le htest helse))
  | loop index condition body rest =>
      have htest : w.visited.length < (w.test index condition).2.visited.length :=
        hvisit index condition.eval
      have hloop := Walk.visited_prefix_loop (Walk.visited_prefix_test index condition)
        (visited_prefix_exec passes body) (passes - 1)
      have hfirst := Walk.test_prefix_loop (visited_prefix_exec passes body) hloop w
      rw [Nat.sub_add_cancel hpasses] at hfirst
      exact hlater rest _ (Nat.lt_of_lt_of_le htest hfirst.length_le)

end Block

end TapePuzzle
