import TapePuzzle.Proofs.Structure.Simulation

/-!
# Programs without jumps are structured programs

A run finds its next line from the depth of the lines and from the blocks that it keeps open. Main
statement: for a valid program without jumps this is the same as reading the lines as a tree of
blocks and carrying out the tree, over and over, until the run is over.
-/

namespace TapePuzzle

def Action.isJump : Action → Bool
  | jump _ => true
  | assign _ _ | evaluate _ | ifTrue _ | otherwise | whileTrue _ => false

/-! ## What several steps show -/

theorem Run.trace_of_isOver {r : Run} (h : r.isOver = true) (count : Nat) : r.trace count = [] := by
  cases count with
  | zero => rfl
  | succ count => rw [trace, if_pos h]

namespace Run.Comes

variable {r r' : Run} {lines : List Nat} {count : Nat}

theorem steps_eq (h : r.Comes lines r') (hover : r'.isOver = true) (hcount : lines.length ≤ count) :
    r.steps count = r' := by
  induction h generalizing count with
  | refl r => exact steps_of_isOver hover count
  | @step r r' index more hlive _ _ ih =>
      cases count with
      | zero => cases hcount
      | succ count =>
          rw [steps, if_neg (by simp [hlive])]
          exact ih hover (Nat.le_of_succ_le_succ hcount)

theorem positions_trace (h : r.Comes lines r') (hover : r'.isOver = true)
    (hcount : lines.length ≤ count) :
    (r.trace count).filterMap (·.control.position) = lines := by
  induction h generalizing count with
  | refl r =>
      rw [trace_of_isOver hover]
      rfl
  | @step r r' index more hlive hposition _ ih =>
      cases count with
      | zero => cases hcount
      | succ count =>
          rw [trace, if_neg (by simp [hlive]), List.filterMap_cons, hposition]
          exact congrArg _ (ih hover (Nat.le_of_succ_le_succ hcount))

end Run.Comes

/-! ## Whole programs -/

section Whole

variable {p : Program} (case : TestCase) {limit passes : Nat}

/-- A run starts where the walk from the first line starts. -/
theorem samePoint_start {first : CodeLine} (hfirst : p.code.head? = some first) :
    SamePoint p limit first [] (Run.start p case limit) ⟨Run.start p case limit, []⟩ := by
  refine ⟨⟨rfl, rfl, rfl, rfl, Nat.zero_le _, fun _ => Nat.zero_le _⟩, fun _ => ?_⟩
  change (do let index ← Control.firstCodeLine p.lines; Except.ok (index, [])) = _
  rw [Control.firstCodeLine_of_head? hfirst]
  rfl

/-- A run of a program that is not empty repeats the tree of the program until it is over. -/
theorem Block.run_reaches (hnested : Nested [] none p.code) (hpasses : limit < passes)
    {tree : Block} (hcovers : tree.Covers 0 p.code) (htree : tree ≠ .done) :
    Reaches (fun r w => Agrees p limit r w ∧ r.isOver = true) (Run.start p case limit)
      ⟨Run.start p case limit, []⟩ (tree.run passes (Run.start p case limit)) := by
  cases hcode : p.code with
  | nil =>
      rw [hcode] at hcovers
      obtain ⟨first, more, hentries, -, -⟩ := Block.exists_head_entries htree 0
      cases hcovers.trans hentries
  | cons first rest =>
      have hfirst : p.code.head? = some first := by rw [hcode]; rfl
      have hresumes : Resumes p.code 0 [] first := ⟨hfirst, .inr (hcode ▸ hcovers).head⟩
      have hwhole : p.code ++ [] <:+ p.code := by simp
      have hhere : (p.code ++ [] ++ p.code).head? = some first := by rw [hcode]; rfl
      rw [Block.run, if_neg htree]
      refine SamePoint.loop (fun r w h hover => ⟨h.toAgrees, hover⟩) (fun r w h => ?_)
        (samePoint_start case hfirst) (by simpa using hpasses)
      cases hover : r.isOver with
      | true =>
          refine .inr ⟨w, by simp [h.isOver_eq, hover], .refl ⟨h.toAgrees, hover⟩⟩
      | false =>
          have hlive : w.isOver = false := h.isOver_eq.trans hover
          refine .inl ⟨w, by simp [hlive], ?_, ?_⟩
          · exact Block.length_visited_lt_exec (by omega) htree hlive
          · exact tree.followed hnested hpasses h hwhole hcovers hhere hresumes

/-- A run from `r` and a walk end alike: with the same lines behind them, and showing the same. -/
structure EndAlike (r : Run) (w : Walk) : Prop where
  isOver : r.complete.isOver = true
  visited : w.visited = (r.trace (r.limit + 1)).filterMap (·.control.position)
  snapshot : w.run.snapshot = r.complete.snapshot

theorem Block.endAlike_run (hnested : Nested [] none p.code) (hpasses : limit < passes)
    {tree : Block} (hcovers : tree.Covers 0 p.code) (htree : tree ≠ .done) :
    EndAlike (Run.start p case limit) (tree.run passes (Run.start p case limit)) := by
  obtain ⟨r', lines, hcomes, hvisited, hagrees, hover⟩ :=
    Block.run_reaches case hnested hpasses hcovers htree
  rw [List.nil_append] at hvisited
  have hcount : lines.length ≤ limit + 1 := by
    rw [← hvisited, hagrees.count]
    exact hagrees.bound
  have hcomplete : (Run.start p case limit).complete = r' := hcomes.steps_eq hover hcount
  refine ⟨?_, ?_, ?_⟩
  · rw [hcomplete]
    exact hover
  · rw [hvisited]
    exact (hcomes.positions_trace hover hcount).symm
  · rw [hcomplete, hagrees.run, Run.snapshot_bare]

/-- An empty program fails at once. -/
theorem Block.endAlike_run_done (hvalid : p.isValid = true) (hempty : p.code = []) :
    EndAlike (Run.start p case limit) (done.run passes (Run.start p case limit)) := by
  have hcode : p.hasCode = false := by
    have hnone : ¬p.hasCode = true := by
      rw [Program.hasCode_iff, hempty]
      simp
    simpa using hnone
  have hlive : (Run.start p case limit).isOver = false := by
    simp [Run.start, Run.isOver, hvalid, Stage.isOver]
  have hstep : (Run.start p case limit).step =
      (Run.start p case limit).finish (.fail .emptyProgram) := by
    have hplain : (Run.start p case limit).plainStep =
        (Run.start p case limit).finish (.fail .emptyProgram) := by
      rw [Run.plainStep, if_neg, if_pos]
      · rfl
      · simpa [Run.start] using hcode
      · simpa [Run.start, Run.isOver, Stage.isOver] using hlive
    rw [Run.step, hplain]
    exact Run.checkOutput_of_isOver rfl
  have hnot : ¬(Run.start p case limit).isOver = true := by simp [hlive]
  have hcomplete : (Run.start p case limit).complete =
      (Run.start p case limit).finish (.fail .emptyProgram) := by
    change (Run.start p case limit).steps (limit + 1) = _
    rw [Run.steps, if_neg hnot, hstep]
    exact Run.steps_of_isOver rfl limit
  have htrace : (Run.start p case limit).trace (limit + 1) =
      [(Run.start p case limit).finish (.fail .emptyProgram)] := by
    rw [Run.trace, if_neg hnot, hstep, Run.trace_of_isOver rfl]
  refine ⟨?_, ?_, ?_⟩
  · rw [hcomplete]
    rfl
  · change _ = ((Run.start p case limit).trace (limit + 1)).filterMap _
    rw [htrace]
    rfl
  · rw [hcomplete]
    rfl

end Whole

/-- For every valid program without jumps there is exactly one tree of blocks that has its lines.
    Whatever the test case and the limit, the run of the program ends. It has then executed the
    lines that carrying out the tree meets, in the same order, and it shows the same status and
    message, line count, tape, objects, input left and output. How often a loop or the whole tree
    may be repeated does not matter, if it is more often than the limit of the run. -/
theorem Run.complete_eq_run_tree (text : List Char) (hvalid : (Program.read text).isValid = true)
    (hjump : ∀ line ∈ (Program.read text).code, line.statement.action.isJump = false) :
    ∃ tree : Block,
      (∀ b : Block, b.entries 0 = (Program.read text).code.map CodeLine.entry ↔ b = tree) ∧
      ∀ (case : TestCase) (limit passes : Nat), limit < passes →
        let r := Run.start (Program.read text) case limit
        r.complete.isOver = true ∧
          (tree.run passes r).visited = (r.trace (limit + 1)).filterMap (·.control.position) ∧
          (tree.run passes r).run.snapshot = r.complete.snapshot := by
  obtain ⟨names, hp⟩ := Program.exists_sound_read hvalid
  have hlabels : ∀ line ∈ (Program.read text).code, ∀ label,
      line.statement.action ≠ .jump label := by
    intro line hline label haction
    have hnone := hjump line hline
    rw [haction] at hnone
    cases hnone
  obtain ⟨tree, htree⟩ := hp.nested.exists_block hlabels
  have hcovers : tree.Covers 0 (Program.read text).code := (htree tree).mpr rfl
  refine ⟨tree, fun b => eq_comm.trans (htree b), fun case limit passes hpasses => ?_⟩
  intro r
  have hend : EndAlike r (tree.run passes r) := by
    by_cases hdone : tree = .done
    · subst hdone
      exact Block.endAlike_run_done case hvalid (Block.covers_done_iff.mp hcovers)
    · exact Block.endAlike_run case hp.nested hpasses hcovers hdone
  exact ⟨hend.isOver, hend.visited, hend.snapshot⟩

/-- A text in which one line leaves two blocks and passes over two `else`. -/
def nestedElse : List Char :=
  ("tally 1\n.data\ntapelength 1\n0 n 2\n.text\nwhile (n):\n if (n):\n  if (n - 1):\n" ++
    "   n = n - 1\n  else:\n   n = 0\n else:\n  n = 1\nend()\n").toList

theorem Run.complete_eq_run_tree_nestedElse :
    (Program.read nestedElse).isValid = true ∧
      (∀ line ∈ (Program.read nestedElse).code, line.statement.action.isJump = false) ∧
      ∃ tree : Block, tree.entries 0 = (Program.read nestedElse).code.map CodeLine.entry ∧
        ∀ limit,
          (tree.run (limit + 1) (Run.start (Program.read nestedElse) {} limit)).run.snapshot =
            (Run.start (Program.read nestedElse) {} limit).complete.snapshot := by
  have hvalid : (Program.read nestedElse).isValid = true := by decide +kernel
  have hjump : ∀ line ∈ (Program.read nestedElse).code, line.statement.action.isJump = false := by
    decide +kernel
  obtain ⟨tree, htree, hruns⟩ := Run.complete_eq_run_tree nestedElse hvalid hjump
  refine ⟨hvalid, hjump, tree, (htree tree).mpr rfl, fun limit => ?_⟩
  exact (hruns {} limit (limit + 1) (Nat.lt_succ_self limit)).2.2

end TapePuzzle
