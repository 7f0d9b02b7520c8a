import TapePuzzle.Proofs.Execution.Runs

/-!
# Valid programs do not go wrong

A run can end in a defect: a name that is not there, a call without its argument, a block without a
header, a line without a successor. Main statement: a program text with nothing wrong never comes to
that, on any test case and after any number of steps.
-/

namespace TapePuzzle

theorem Standing.exists_line {lines : List Line} {index : Nat} {blocks : List OpenBlock}
    (h : Standing lines index blocks) :
    ∃ depth statement, lines[index]? = some (.code depth statement) := by
  obtain ⟨⟨statement, hline⟩, -⟩ := h
  exact ⟨_, statement, hline⟩

/-- Whatever the test case and the limit, and after any number of steps: the run of a valid program
    has not ended in a defect, its position is a line that has a statement, as long as it goes on
    there is a next such line, events are about slots that are on the tape, and the run leaves the
    tape only by an index that is off it. -/
theorem Run.no_defect_after (text : List Char) (hvalid : (Program.read text).isValid = true)
    (case : TestCase) (limit count : Nat) :
    let p := Program.read text
    let r := Run.after p case limit count
    (∀ defect, r.stage ≠ .ended (.error (.defect defect))) ∧
      (∀ index, r.control.position = some index →
        ∃ depth statement, p.lines[index]? = some (.code depth statement)) ∧
      (p.hasCode = true → ∃ index blocks, r.control.next p.lines = .ok (index, blocks) ∧
        ∃ depth statement, p.lines[index]? = some (.code depth statement)) ∧
      (∀ slot value, .load slot value ∈ r.events ∨ .store slot value ∈ r.events →
        slot < p.tape.length) ∧
      ∀ index length, r.stage = .ended (.error (.slotOutOfRange index length)) →
        length = p.tape.length ∧ ¬(0 ≤ index ∧ index < length) := by
  intro p r
  obtain ⟨names, hp⟩ := Program.exists_sound_read hvalid
  have hr : r.Sound p fun _ => True := Run.sound_after_of_sound hp hvalid case limit count
  refine ⟨?_, ?_, ?_, ?_, ?_⟩
  · intro defect hstage
    have hfits := hr.stage
    rw [hstage] at hfits
    exact hfits
  · intro index hposition
    exact (hr.control.standing index hposition).exists_line
  · intro hcode
    obtain ⟨index, blocks, hnext, hstanding⟩ :=
      hr.control.next hp.nested ((Program.hasCode_iff _).mp hcode)
    exact ⟨index, blocks, hnext, hstanding.exists_line⟩
  · intro slot value hevent
    rcases hevent with hevent | hevent
    · exact hr.machine.accurate _ hevent
    · exact hr.machine.accurate _ hevent
  · intro index length hstage
    have hfits := hr.stage
    rw [hstage] at hfits
    exact hfits

/-- A text that jumps into the `else` of a loop body. -/
def jumpIntoElse : List Char :=
  ("tally 1\n.data\ntapelength 1\n0 n 2\nqueue q 7\n.text\n" ++
    "jump inside\nwhile (n):\n if (q.length()):\n  q.dequeue()\n else:\n  inside:\n  n = n - 1\n" ++
    "end()\n").toList

theorem Run.no_defect_after_jumpIntoElse :
    (Program.read jumpIntoElse).isValid = true ∧
      ∀ limit count defect,
        (Run.after (Program.read jumpIntoElse) {} limit count).stage ≠
          .ended (.error (.defect defect)) := by
  have hvalid : (Program.read jumpIntoElse).isValid = true := by decide +kernel
  exact ⟨hvalid, fun limit count => (Run.no_defect_after _ hvalid {} limit count).1⟩

end TapePuzzle
