import TapePuzzle.Proofs.Reading.Equations
import TapePuzzle.Reading.Program

/-!
# What reading a statement guarantees

A statement that is read makes sense over the names of its program, and it is the header of a block
exactly if its first word says so.
-/

namespace TapePuzzle

/-- What a statement does makes sense over the given names. -/
def Action.WellFormed (names : Names) : Action → Prop
  | .assign target value => target.WellFormed names ∧ value.WellFormed names
  | .evaluate equation => equation.WellFormed names
  | .ifTrue condition | .whileTrue condition => condition.WellFormed names
  | .otherwise => True
  | .jump label => names.HasLabel label.name

/-- The kind of block that an action opens. -/
def Action.opens? (action : Action) : Option BlockKind := (Statement.mk action ⟨0, 0, 0⟩).opens?

theorem wellFormed_of_readCondition {names : Names} {kind : BlockKind} {c past : Cursor} {e : Expr}
    (h : readCondition names kind c = .ok (e, past)) : e.WellFormed names := by
  simp only [readCondition] at h
  split at h
  · cases h
  · obtain ⟨⟨condition, last⟩, hcondition, h⟩ := bind_eq_ok_iff.mp h
    obtain ⟨closed, -, h⟩ := bind_eq_ok_iff.mp h
    obtain ⟨done, -, h⟩ := bind_eq_ok_iff.mp h
    cases h
    exact equationSound_readEquation names _ _ _ _ hcondition

theorem hasLabel_of_readJump {names : Names} {c past : Cursor} {action : Action}
    (h : readJump names c = .ok (action, past)) :
    ∃ label, action = .jump label ∧ names.HasLabel label.name := by
  simp only [readJump] at h
  split at h
  · cases h
  · split at h
    · rename_i line hrole
      cases h
      exact ⟨_, rfl, line, hrole⟩
    · cases h

theorem wellFormed_of_readTarget? {names : Names} {c sign : Cursor} {target : SlotRef}
    (h : readTarget? names c = .ok (some (target, sign))) : target.WellFormed names := by
  unfold readTarget? at h
  split at h
  · cases h
  · dsimp only at h
    split at h
    · rename_i index hrole
      obtain ⟨⟨slot, behind⟩, hslot, h⟩ := bind_eq_ok_iff.mp h
      have hwell := wellFormed_of_readSlotRef (equationSound_readEquation names)
        ⟨index, hrole⟩ hslot
      dsimp only at h
      split at h
      · cases h
        exact hwell
      · cases h
    · split at h
      · cases h
      · cases h

theorem wellFormed_of_readPlain {names : Names} {c past : Cursor} {action : Action}
    (h : readPlain names c = .ok (action, past)) :
    action.WellFormed names ∧ action.opens? = none := by
  obtain ⟨target?, htarget, h⟩ := bind_eq_ok_iff.mp h
  cases target? with
  | none =>
      obtain ⟨⟨equation, last⟩, hequation, h⟩ := bind_eq_ok_iff.mp h
      cases h
      exact ⟨equationSound_readEquation names _ _ _ _ hequation, rfl⟩
  | some found =>
      obtain ⟨target, sign⟩ := found
      obtain ⟨assigned, -, h⟩ := bind_eq_ok_iff.mp h
      obtain ⟨⟨value, last⟩, hvalue, h⟩ := bind_eq_ok_iff.mp h
      cases h
      exact ⟨⟨wellFormed_of_readTarget? htarget,
        equationSound_readEquation names _ _ _ _ hvalue⟩, rfl⟩

/-- The first word of a line decides which block it opens. -/
theorem Cursor.opener?_eq (c : Cursor) :
    c.opener? =
      if (c.eat? (.word BlockKind.ifBlock.keyword)).isSome then some .ifBlock
      else if (c.eat? (.word BlockKind.whileBlock.keyword)).isSome then some .whileBlock
      else if (c.eat? (.word BlockKind.elseBlock.keyword)).isSome then some .elseBlock
      else none := by
  have hsees : ∀ p : Pattern, (c.eat? p).isSome = c.sees p := by
    intro p
    simp [sees, eat?]
  simp only [hsees, opener?, BlockKind.all, List.find?_cons, List.find?_nil]
  repeat' split
  all_goals simp_all

theorem wellFormed_of_readAction {names : Names} {c past : Cursor} {action : Action}
    (h : readAction names c = .ok (action, past)) :
    action.WellFormed names ∧ action.opens? = c.opener? := by
  have hopener := c.opener?_eq
  unfold readAction at h
  split at h
  · rename_i hif
    obtain ⟨⟨condition, last⟩, hcondition, h⟩ := bind_eq_ok_iff.mp h
    cases h
    rw [hif] at hopener
    exact ⟨wellFormed_of_readCondition hcondition, hopener.symm⟩
  · rename_i hif
    rw [hif] at hopener
    split at h
    · rename_i hwhile
      obtain ⟨⟨condition, last⟩, hcondition, h⟩ := bind_eq_ok_iff.mp h
      cases h
      rw [hwhile] at hopener
      exact ⟨wellFormed_of_readCondition hcondition, hopener.symm⟩
    · rename_i hwhile
      rw [hwhile] at hopener
      split at h
      · rename_i helse
        obtain ⟨done, -, h⟩ := bind_eq_ok_iff.mp h
        cases h
        rw [helse] at hopener
        exact ⟨trivial, hopener.symm⟩
      · rename_i helse
        rw [helse] at hopener
        have hnone : c.opener? = none := hopener
        rw [hnone]
        split at h
        · obtain ⟨label, rfl, hlabel⟩ := hasLabel_of_readJump h
          exact ⟨hlabel, rfl⟩
        · exact wellFormed_of_readPlain h

/-- What a statement that is read does makes sense, and its first word says which block it opens. -/
theorem wellFormed_of_readStatement {names : Names} {c : Cursor} {statement : Statement}
    (h : readStatement names c = .ok statement) :
    statement.action.WellFormed names ∧ statement.opens? = c.opener? := by
  obtain ⟨⟨action, last⟩, haction, h⟩ := bind_eq_ok_iff.mp h
  have hwell := wellFormed_of_readAction haction
  dsimp only at h
  split at h
  · cases h
    exact hwell
  · cases h

end TapePuzzle
