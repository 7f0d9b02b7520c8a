import TapePuzzle.Proofs.Execution.Runs

/-!
# Values stay in range

All values that a run of a valid program handles are from -999 to 999, if its input is. Operators
that compute with larger numbers in between stay within signed words of 32 bits: `checked` and the
operations built on it have no result when a word overflows. Main statement: in every state of a run
all values are in range, tape and objects are those that the program declares, and no operator
overflows.
-/

namespace TapePuzzle

/-! ## Division within the range -/

theorem inRange_fdiv {left : Int} (right : Int) (hleft : inRange left = true) :
    inRange (left.fdiv right) = true := by
  rw [inRange_iff] at *
  have hsize := Int.natAbs_fdiv_le_natAbs left right
  omega

theorem inRange_tmod {left : Int} (right : Int) (hleft : inRange left = true) :
    inRange (left.tmod right) = true := by
  rw [inRange_iff] at *
  have hsize : (left.tmod right).natAbs ≤ left.natAbs := by
    rw [Int.natAbs_tmod]
    exact Nat.mod_le _ _
  omega

theorem valueClass_inRange : ValueClass fun value => inRange value = true where
  ofInRange _ hvalue := hvalue
  divide _ right hleft _ _ := inRange_fdiv right hleft
  remainder _ right hleft _ _ := inRange_tmod right hleft

/-! ## Arithmetic on words -/

/-- Whether a signed word of 32 bits holds an integer. -/
def fitsWord (v : Int) : Bool := decide (-2147483648 ≤ v ∧ v ≤ 2147483647)

/-- A result, if a word holds it. -/
def checked (v : Int) : Option Int := if fitsWord v then some v else none

/-- Wraps a word into the range of values. -/
def checkedWrap (v : Int) : Option Int := do
  let distance ← checked (v - minValue)
  let rest ← checked (distance % valueCount)
  checked (rest + minValue)

/-- The remainder of two words. It overflows together with their quotient. -/
def checkedRemainder (left right : Int) : Option Int := do
  let _ ← checked (left.tdiv right)
  checked (left.tmod right)

/-- Division of words goes toward zero, so that a quotient may have to be lowered to the floor. -/
def checkedDivide (left right : Int) : Option Int := do
  let quotient ← checked (left.tdiv right)
  let rest ← checkedRemainder left right
  if rest ≠ 0 ∧ decide (left < 0) ≠ decide (right < 0) then checked (quotient - 1)
  else some quotient

/-- What an operator makes of two words. There is no result if a word overflows on the way, nor for
    a zero divisor. -/
def BinaryOp.checked? (op : BinaryOp) (left right : Int) : Option Int :=
  match op with
  | .add => checked (left + right) >>= checkedWrap
  | .subtract => checked (left - right) >>= checkedWrap
  | .multiply => checked (left * right) >>= checkedWrap
  | .divide => if right = 0 then none else checkedDivide left right
  | .remainder => if right = 0 then none else checkedRemainder left right
  | .equal => some (truth (left = right))
  | .notEqual => some (truth (left ≠ right))
  | .less => some (truth (left < right))
  | .greater => some (truth (left > right))
  | .lessEqual => some (truth (left ≤ right))
  | .greaterEqual => some (truth (left ≥ right))
  | .and => some (truth (left ≠ 0 ∧ right ≠ 0))
  | .or => some (truth (left ≠ 0 ∨ right ≠ 0))

/-- What an operator makes of one word. -/
def UnaryOp.checked? (op : UnaryOp) (operand : Int) : Option Int :=
  match op with
  | .negate => checked (-operand) >>= checkedWrap
  | .not => some (truth (operand = 0))

theorem checked_of_bounds {v : Int} (hlow : -2147483648 ≤ v) (hhigh : v ≤ 2147483647) :
    checked v = some v := by
  unfold checked fitsWord
  rw [if_pos]
  exact decide_eq_true ⟨hlow, hhigh⟩

/-- Wrapping overflows only if the distance from the smallest value does. -/
theorem checkedWrap_of_fitsWord {v : Int} (h : fitsWord (v - minValue) = true) :
    checkedWrap v = some (wrap v) := by
  have hbounds := of_decide_eq_true h
  unfold minValue at hbounds
  unfold checkedWrap wrap valueCount minValue
  rw [checked_of_bounds (by omega) (by omega), Option.bind_eq_bind, Option.bind_some,
    checked_of_bounds (by omega) (by omega), Option.bind_some,
    checked_of_bounds (by omega) (by omega)]

/-- Wrapping only overflows close to the largest word. -/
theorem checkedWrap_eq {v : Int} (hlow : -2147483648 ≤ v) (hhigh : v ≤ 2147482648) :
    checkedWrap v = some (wrap v) := by
  apply checkedWrap_of_fitsWord
  unfold fitsWord minValue
  exact decide_eq_true ⟨by omega, by omega⟩

theorem checked_bind_checkedWrap {v : Int} (hlow : -2147483648 ≤ v) (hhigh : v ≤ 2147482648) :
    checked v >>= checkedWrap = some (wrap v) := by
  rw [checked_of_bounds hlow (by omega), Option.bind_eq_bind, Option.bind_some,
    checkedWrap_eq hlow hhigh]

theorem checked_of_inRange {v : Int} (h : inRange v = true) : checked v = some v := by
  rw [inRange_iff] at h
  exact checked_of_bounds (by omega) (by omega)

section Operators

variable {left right : Int} (hleft : inRange left = true)

include hleft

theorem inRange_tdiv (right : Int) : inRange (left.tdiv right) = true := by
  rw [inRange_iff] at *
  have hsize := Int.natAbs_tdiv_le_natAbs left right
  omega

theorem checkedRemainder_eq (right : Int) :
    checkedRemainder left right = some (left.tmod right) := by
  unfold checkedRemainder
  rw [checked_of_inRange (inRange_tdiv hleft right), checked_of_inRange (inRange_tmod right hleft)]
  rfl

/-- A lowered quotient of words is the quotient toward the floor. -/
theorem checkedDivide_eq (hright : right ≠ 0) :
    checkedDivide left right = some (left.fdiv right) := by
  have hquotient := inRange_tdiv hleft right
  have hlowered : checked (left.tdiv right - 1) = some (left.tdiv right - 1) := by
    rw [inRange_iff] at hquotient
    exact checked_of_bounds (by omega) (by omega)
  have hrest : left.tmod right = 0 ↔ right ∣ left := Int.dvd_iff_tmod_eq_zero.symm
  unfold checkedDivide
  rw [checked_of_inRange hquotient, checkedRemainder_eq hleft, Option.bind_eq_bind,
    Option.bind_some, Option.bind_some, hlowered, Int.fdiv_eq_tdiv]
  by_cases hdvd : right ∣ left
  · simp [hrest, hdvd]
  · rcases Int.lt_or_gt_of_ne hright with hnegative | hpositive
    · have hsign := Int.sign_eq_neg_one_of_neg hnegative
      have hnot : ¬0 ≤ right := Int.not_le.mpr hnegative
      by_cases hdividend : 0 ≤ left
      · simp [hrest, hdvd, hnegative, hnot, hdividend]
      · simp [hrest, hdvd, hsign, hnegative, hnot, hdividend, Int.not_le.mp hdividend]
    · have hsign := Int.sign_eq_one_of_pos hpositive
      have hnonneg : 0 ≤ right := Int.le_of_lt hpositive
      by_cases hdividend : 0 ≤ left
      · simp [hrest, hdvd, hnonneg, hdividend, Int.not_lt.mpr hdividend, Int.not_lt.mpr hnonneg]
      · simp [hrest, hdvd, hsign, hnonneg, hdividend, Int.not_le.mp hdividend]

/-- No operator overflows on values in range. -/
theorem BinaryOp.checked?_eq {op : BinaryOp} {result : Int} (hright : inRange right = true)
    (happly : op.apply left right = .ok result) : op.checked? left right = some result := by
  have hleft' := inRange_iff.mp hleft
  have hright' := inRange_iff.mp hright
  cases op with
  | add =>
      cases happly
      exact checked_bind_checkedWrap (by omega) (by omega)
  | subtract =>
      cases happly
      exact checked_bind_checkedWrap (by omega) (by omega)
  | multiply =>
      cases happly
      have hproduct : (left * right).natAbs ≤ 999 * 999 := by
        rw [Int.natAbs_mul]
        exact Nat.mul_le_mul (by omega) (by omega)
      exact checked_bind_checkedWrap (by omega) (by omega)
  | divide =>
      obtain ⟨hzero, rfl⟩ := BinaryOp.apply_divide_eq_ok_iff.mp happly
      rw [BinaryOp.checked?, if_neg hzero, checkedDivide_eq hleft hzero]
  | remainder =>
      obtain ⟨hzero, rfl⟩ := BinaryOp.apply_remainder_eq_ok_iff.mp happly
      rw [BinaryOp.checked?, if_neg hzero, checkedRemainder_eq hleft]
  | or | and | equal | notEqual | less | greater | lessEqual | greaterEqual =>
      cases happly
      rfl

theorem UnaryOp.checked?_eq (op : UnaryOp) : op.checked? left = some (op.apply left) := by
  have hleft' := inRange_iff.mp hleft
  cases op with
  | negate => exact checked_bind_checkedWrap (by omega) (by omega)
  | not => rfl

end Operators

/-- The operator that an event is about, if any, does not overflow on the words it was applied to,
    and a length is a word. Every application of an operator leaves such an event. -/
def Event.FitsWord : Event → Prop
  | arithmetic op left right result => op.checked? left right = some result
  | unary op operand result => op.checked? operand = some result
  | examine _ value => checked value = some value
  | load _ _ | store _ _ | shortCircuit _ _ _ | push _ _ | take _ _ | input _ | output _
  | halt _ => True

theorem Event.fitsWord_of_accurate {p : Program} {event : Event} (haccurate : event.Accurate p)
    (hvalues : ∀ value ∈ event.values, inRange value = true) : event.FitsWord := by
  cases event with
  | arithmetic op left right result =>
      exact BinaryOp.checked?_eq (hvalues left (by simp [values]))
        (hvalues right (by simp [values])) haccurate
  | unary op operand result =>
      cases haccurate
      exact UnaryOp.checked?_eq (hvalues operand (by simp [values])) op
  | examine object value => exact checked_of_inRange (hvalues value (by simp [values]))
  | load | store | shortCircuit | push | take | input | output | halt => trivial

/-- If the input of a valid program is in range, then after any number of steps so are the values on
    the tape and in objects, the input left, the output, and operands and results of all that the
    last line did. No operator overflowed a word there. Objects hold at most 999 values. The tape
    has the slots that the program declares, and the objects are those that it declares. -/
theorem Run.values_in_range (text : List Char) (hvalid : (Program.read text).isValid = true)
    (case : TestCase) (hinput : ∀ value ∈ case.input, inRange value = true) (limit count : Nat) :
    let p := Program.read text
    let r := Run.after p case limit count
    (∀ slot ∈ r.memory.tape, inRange slot.value = true) ∧
      (∀ object ∈ r.memory.objects, ∀ value ∈ object.values, inRange value = true) ∧
      (∀ value ∈ r.memory.input, inRange value = true) ∧
      (∀ value ∈ r.memory.output, inRange value = true) ∧
      (∀ event ∈ r.events, (∀ value ∈ event.values, inRange value = true) ∧ event.FitsWord) ∧
      (∀ object ∈ r.memory.objects, object.values.length ≤ maxObjectLength) ∧
      r.memory.tape.length = p.tape.length ∧
      r.memory.tape.map Slot.name = p.tape.map Slot.name ∧
      r.memory.objects.map (fun object => (object.name, object.kind)) =
        p.objects.map fun object => (object.name, object.kind) := by
  intro p r
  obtain ⟨names, hp⟩ := Program.exists_sound_read hvalid
  have hr : r.Sound p fun value => inRange value = true :=
    Run.sound_after hp valueClass_inRange hvalid hinput limit count
  have hmemory : r.memory.Fits p _ := hr.machine.memory
  refine ⟨hmemory.tape, hmemory.objects, hmemory.input, hmemory.output, ?_, hmemory.objectLengths,
    hmemory.length_tape, hmemory.slotNames, hmemory.objectNames⟩
  intro event hevent
  have hvalues := hr.machine.values event hevent
  exact ⟨hvalues, Event.fitsWord_of_accurate (hr.machine.accurate event hevent) hvalues⟩

/-- A text that squares the smallest value, and divides what comes out by -1. -/
def squareSmallest : List Char :=
  ("tally 1\n.data\ntapelength 1\n0 n -999\nstack s\n.text\n" ++
    "s.push(n * input())\nn = s.pop() / -1\n").toList

theorem Run.values_in_range_squareSmallest :
    (Program.read squareSmallest).isValid = true ∧ inRange (-999) = true ∧
      ∀ limit count,
        ∀ event ∈ (Run.after (Program.read squareSmallest) { input := [-999] } limit count).events,
          (∀ value ∈ event.values, inRange value = true) ∧ event.FitsWord := by
  have hvalid : (Program.read squareSmallest).isValid = true := by decide +kernel
  have hinput : ∀ value ∈ ({ input := [-999] } : TestCase).input, inRange value = true := by decide
  refine ⟨hvalid, by decide, ?_⟩
  intro limit count
  exact (Run.values_in_range squareSmallest hvalid { input := [-999] } hinput limit count).2.2.2.2.1

end TapePuzzle
