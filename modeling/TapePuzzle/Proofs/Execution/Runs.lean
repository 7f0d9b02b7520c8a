import TapePuzzle.Proofs.Execution.Control
import TapePuzzle.Proofs.Execution.Evaluation

/-!
# What every step of a run preserves

`Run.Sound` puts together what the steps of a run keep: memory and journal fit the program, the open
blocks are those that the position stands in, and the run has not ended in a defect. Main statement:
it holds at the start and after any number of steps.
-/

namespace TapePuzzle

/-- The state after `count` steps, whether or not the run is over before. -/
def Run.after (program : Program) (case : TestCase) (limit : Nat) : (count : Nat) → Run
  | 0 => Run.start program case limit
  | count + 1 => (Run.after program case limit count).step

/-- An ending that a sound program can come to. -/
def Stage.Fits (p : Program) : Stage → Prop
  | .ended (.error reason) => (Stop.fault reason).Fits p
  | .ended (.success _) | .ended (.fail _) | .ended (.invalid _) | .new | .running => True

/-- A state that a run of the program can be in, with values of the class `good`. -/
structure Run.Sound (p : Program) (good : Int → Prop) (r : Run) : Prop where
  program : r.program = p
  machine : (Machine.mk r.memory r.events).Fits p good
  control : r.control.Sound p.lines
  stage : r.stage.Fits p

theorem Program.hasCode_iff (p : Program) : p.hasCode = true ↔ p.code ≠ [] := by
  unfold Program.hasCode Program.code
  generalize 0 = start
  induction p.lines generalizing start with
  | nil => simp
  | cons line lines ih =>
      cases line with
      | silent => simpa [Line.isCode] using ih (start + 1)
      | code depth statement => simp [Line.isCode]

namespace Run.Sound

variable {p : Program} {good : Int → Prop} {r : Run}

theorem finish (h : r.Sound p good) {ending : Ending} (hending : (Stage.ended ending).Fits p) :
    (r.finish ending).Sound p good :=
  ⟨h.program, h.machine, h.control, hending⟩

theorem settle (h : r.Sound p good) {stop : Stop} (hstop : stop.Fits p) :
    (r.settle stop).Sound p good := by
  cases stop with
  | fault fault => exact h.finish hstop
  | halt halt =>
      have hhalt : Run.Sound p good { r with events := r.events ++ [Event.halt halt] } :=
        ⟨h.program, h.machine.record (by simp [Event.values]) trivial, h.control, h.stage⟩
      unfold Run.settle
      dsimp only
      split
      · exact hhalt.finish trivial
      · exact hhalt.finish trivial

theorem checkOutput (h : r.Sound p good) : r.checkOutput.Sound p good := by
  unfold Run.checkOutput
  split
  · exact h.finish trivial
  · exact h

theorem clear (h : r.Sound p good) : Run.Sound p good { r with events := [] } :=
  ⟨h.program, ⟨h.machine.memory, by simp, by simp⟩, h.control, h.stage⟩

/-- The run comes to another line. -/
theorem advance (h : r.Sound p good) {index : Nat} {blocks : List OpenBlock}
    (hstanding : Standing p.lines index blocks) :
    Run.Sound p good
      { r with
        control := { position := some index, blocks := blocks }
        executed := r.executed + 1 } := by
  refine ⟨h.program, h.machine, ⟨?_, ?_, ?_⟩, h.stage⟩
  · intro hposition
    cases hposition
  · intro index' hposition
    cases hposition
    exact hstanding
  · intro index' _ honward
    cases honward

section Step

variable {names : Names} (hp : p.Sound names) (hgood : ValueClass good)

include hp hgood

theorem executeLine (h : r.Sound p good) {index : Nat} (hposition : r.control.position = some index)
    (hevents : r.events = []) : (r.executeLine index).Sound p good := by
  obtain rfl := h.program
  obtain ⟨⟨statement, hline⟩, -⟩ := h.control.standing index hposition
  have hmem : ⟨index, r.control.blocks.length, statement⟩ ∈ r.program.code := by
    unfold Program.code
    rw [exists_split_of_getElem? hline]
    simp
  have hmachine : (Machine.mk r.memory []).Fits r.program good := hevents ▸ h.machine
  obtain ⟨hfits, hresult⟩ := safe_perform hp hgood (hp.statements _ hmem) _ hmachine
  unfold Run.executeLine
  rw [hline]
  simp only [Option.bind_some, Line.statement?]
  rcases hrun : (Run.perform r.program statement).run ⟨r.memory, []⟩ with ⟨result, machine⟩
  rw [hrun] at hfits hresult
  cases result with
  | error stop =>
      have hsound : Run.Sound r.program good
          { r with memory := machine.memory, events := machine.events } :=
        ⟨rfl, hfits, h.control, h.stage⟩
      exact hsound.settle hresult
  | ok onward =>
      refine ⟨rfl, hfits, ⟨h.control.start, h.control.standing, ?_⟩, trivial⟩
      intro index' hposition' honward
      obtain rfl : index = index' := Option.some.inj (hposition.symm.trans hposition')
      obtain ⟨kind, hkind⟩ := Option.isSome_iff_exists.mp (hresult honward)
      exact ⟨_, statement, kind, hline, hkind⟩

theorem executeNext (h : r.Sound p good) (hcode : p.code ≠ []) (hevents : r.events = []) :
    r.executeNext.Sound p good := by
  obtain ⟨index, blocks, hnext, hstanding⟩ := h.control.next hp.nested hcode
  rw [← h.program] at hnext
  have hmoved := h.advance hstanding
  unfold Run.executeNext
  rw [hnext]
  dsimp only
  split
  · have hlimit : (Stop.fault (.lineLimit r.limit)).Fits p := trivial
    exact hmoved.settle hlimit
  · exact hmoved.executeLine hp hgood rfl hevents

/-- One step keeps the state sound. -/
theorem step (h : r.Sound p good) : r.step.Sound p good := by
  have hclear := h.clear
  apply checkOutput
  unfold Run.plainStep
  dsimp only
  split
  · exact hclear
  · split
    · exact hclear.finish trivial
    · rename_i hcode
      refine hclear.executeNext hp hgood ?_ rfl
      rw [← Program.hasCode_iff, ← h.program]
      simpa using hcode

end Step

end Run.Sound

/-- The start of a run is sound if the input is. -/
theorem Run.sound_start {p : Program} {names : Names} {good : Int → Prop} (hp : p.Sound names)
    (hgood : ValueClass good) (hvalid : p.isValid = true) {case : TestCase}
    (hinput : ∀ value ∈ case.input, good value) (limit : Nat) :
    (Run.start p case limit).Sound p good := by
  refine ⟨rfl, ⟨⟨rfl, rfl, hp.objectLengths, ?_, ?_, hinput, ?_⟩, ?_, ?_⟩, ⟨?_, ?_, ?_⟩, ?_⟩
  · exact fun slot hslot => hgood.ofInRange _ (hp.tapeValues slot hslot)
  · exact fun object hobject value hvalue =>
      hgood.ofInRange _ (hp.objectValues object hobject value hvalue)
  · intro value hvalue
    cases hvalue
  · intro event hevent
    cases hevent
  · intro event hevent
    cases hevent
  · exact fun _ => rfl
  · intro index hposition
    cases hposition
  · intro index hposition
    cases hposition
  · simp [Run.start, hvalid, Stage.Fits]

/-- Every state that a run comes to is sound. -/
theorem Run.sound_after {p : Program} {names : Names} {good : Int → Prop} (hp : p.Sound names)
    (hgood : ValueClass good) (hvalid : p.isValid = true) {case : TestCase}
    (hinput : ∀ value ∈ case.input, good value) (limit count : Nat) :
    (Run.after p case limit count).Sound p good := by
  induction count with
  | zero => exact Run.sound_start hp hgood hvalid hinput limit
  | succ count ih => exact ih.step hp hgood

/-- All integers are a class of values. -/
theorem valueClass_true : ValueClass fun _ => True :=
  ⟨fun _ _ => trivial, fun _ _ _ _ _ => trivial, fun _ _ _ _ _ => trivial⟩

/-- Where values do not matter, every state that a run comes to is sound on any input. -/
theorem Run.sound_after_of_sound {p : Program} {names : Names} (hp : p.Sound names)
    (hvalid : p.isValid = true) (case : TestCase) (limit count : Nat) :
    (Run.after p case limit count).Sound p fun _ => True :=
  Run.sound_after hp valueClass_true hvalid (fun _ _ => trivial) limit count

end TapePuzzle
