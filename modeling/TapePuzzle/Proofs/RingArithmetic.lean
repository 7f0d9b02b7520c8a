import TapePuzzle.Proofs.ValueRange

/-!
# Arithmetic around the range of values

The values are the integers modulo `valueCount`, each class by its member in the range. A sum, a
difference, a product or a negation wraps as soon as it is computed, however deep it stands in an
equation. Main statement: wrapping comes to repeated subtraction or addition of `valueCount`, and an
equation of such operators has the value that wrapping its exact value once would give.
-/

namespace TapePuzzle

/-! ## Wrapping -/

/-- The integer, lowered by `valueCount` for as long as it is above the range. -/
def lowerBySteps (v : Int) : Int :=
  if maxValue < v then lowerBySteps (v - valueCount) else v
termination_by (v - maxValue).toNat
decreasing_by
  unfold maxValue valueCount at *
  omega

/-- The integer, raised by `valueCount` for as long as it is below the range. -/
def raiseBySteps (v : Int) : Int :=
  if v < minValue then raiseBySteps (v + valueCount) else v
termination_by (minValue - v).toNat
decreasing_by
  unfold minValue valueCount at *
  omega

/-- Wrapping by one `valueCount` at a time. -/
def wrapBySteps (v : Int) : Int := raiseBySteps (lowerBySteps v)

/-- Two integers wrap to the same value exactly if they are congruent. -/
theorem wrap_eq_wrap_iff {v w : Int} : wrap v = wrap w ↔ valueCount ∣ v - w := by
  unfold wrap valueCount minValue
  omega

theorem dvd_sub_wrap (v : Int) : valueCount ∣ v - wrap v := by
  unfold wrap valueCount minValue
  omega

/-- Wrapping finds the only value that is congruent to an integer. -/
theorem eq_wrap_iff {v w : Int} : w = wrap v ↔ inRange w = true ∧ valueCount ∣ v - w := by
  constructor
  · rintro rfl
    exact ⟨inRange_wrap v, dvd_sub_wrap v⟩
  · rintro ⟨hrange, hdvd⟩
    rw [wrap_eq_wrap_iff.mpr hdvd, wrap_of_inRange hrange]

theorem wrap_lowerBySteps (v : Int) : wrap (lowerBySteps v) = wrap v := by
  induction v using lowerBySteps.induct with
  | case1 v habove ih =>
      rw [lowerBySteps, if_pos habove, ih, wrap_eq_wrap_iff]
      exact ⟨-1, by omega⟩
  | case2 v hnot => rw [lowerBySteps, if_neg hnot]

theorem lowerBySteps_le (v : Int) : lowerBySteps v ≤ maxValue := by
  induction v using lowerBySteps.induct with
  | case1 v habove ih =>
      rw [lowerBySteps, if_pos habove]
      exact ih
  | case2 v hnot =>
      rw [lowerBySteps, if_neg hnot]
      exact Int.not_lt.mp hnot

theorem wrap_raiseBySteps (v : Int) : wrap (raiseBySteps v) = wrap v := by
  induction v using raiseBySteps.induct with
  | case1 v hbelow ih =>
      rw [raiseBySteps, if_pos hbelow, ih, wrap_eq_wrap_iff]
      exact ⟨1, by omega⟩
  | case2 v hnot => rw [raiseBySteps, if_neg hnot]

/-- One step from below the range does not lead past it. -/
theorem inRange_raiseBySteps {v : Int} (h : v ≤ maxValue) : inRange (raiseBySteps v) = true := by
  induction v using raiseBySteps.induct with
  | case1 v hbelow ih =>
      rw [raiseBySteps, if_pos hbelow]
      apply ih
      unfold minValue at hbelow
      unfold valueCount maxValue
      omega
  | case2 v hnot =>
      rw [raiseBySteps, if_neg hnot]
      exact decide_eq_true ⟨Int.not_lt.mp hnot, h⟩

theorem wrapBySteps_eq (v : Int) : wrapBySteps v = wrap v := by
  have hrange : inRange (wrapBySteps v) = true := inRange_raiseBySteps (lowerBySteps_le v)
  calc
    wrapBySteps v = wrap (wrapBySteps v) := (wrap_of_inRange hrange).symm
    _ = wrap (lowerBySteps v) := wrap_raiseBySteps _
    _ = wrap v := wrap_lowerBySteps v

/-! ## Operators -/

/-- What an operator that wraps makes of two integers before it wraps. -/
def BinaryOp.exact (op : BinaryOp) (left right : Int) : Int :=
  match op with
  | .add => left + right
  | .subtract => left - right
  | .multiply => left * right
  | _ => 0

theorem BinaryOp.apply_of_wraps {op : BinaryOp} (hop : op.wraps = true) (left right : Int) :
    op.apply left right = .ok (wrap (op.exact left right)) := by
  cases op with
  | add | subtract | multiply => rfl
  | or | and | equal | notEqual | less | greater | lessEqual | greaterEqual | divide | remainder =>
      cases hop

theorem BinaryOp.decided?_of_wraps {op : BinaryOp} (hop : op.wraps = true) (left : Int) :
    op.decided? left = none := by
  cases op with
  | or | and => cases hop
  | equal | notEqual | less | greater | lessEqual | greaterEqual | add | subtract | multiply
  | divide | remainder => rfl

theorem dvd_mul_sub_mul {a b c d : Int} (hleft : valueCount ∣ a - c) (hright : valueCount ∣ b - d) :
    valueCount ∣ a * b - c * d := by
  have hsplit : a * b - c * d = a * (b - d) + (a - c) * d := by
    rw [Int.mul_sub, Int.sub_mul]
    omega
  rw [hsplit]
  exact Int.dvd_add (Int.dvd_mul_of_dvd_right hright) (Int.dvd_mul_of_dvd_left hleft)

/-- Operands may wrap first. -/
theorem wrap_exact_wrap {op : BinaryOp} (hop : op.wraps = true) (left right : Int) :
    wrap (op.exact (wrap left) (wrap right)) = wrap (op.exact left right) := by
  have hleft := dvd_sub_wrap left
  have hright := dvd_sub_wrap right
  symm
  rw [wrap_eq_wrap_iff]
  cases op with
  | add =>
      have hsum : left + right - (wrap left + wrap right) =
          (left - wrap left) + (right - wrap right) := by omega
      exact hsum ▸ Int.dvd_add hleft hright
  | subtract =>
      have hdifference : left - right - (wrap left - wrap right) =
          (left - wrap left) - (right - wrap right) := by omega
      exact hdifference ▸ Int.dvd_sub hleft hright
  | multiply => exact dvd_mul_sub_mul hleft hright
  | or | and | equal | notEqual | less | greater | lessEqual | greaterEqual | divide | remainder =>
      cases hop

theorem wrap_neg_wrap (v : Int) : wrap (-wrap v) = wrap (-v) := by
  unfold wrap valueCount minValue
  omega

/-! ## Equations -/

/-- Equations of numbers in range, slots of the tape without an offset, sums, differences, products
    and negations. -/
inductive Expr.IsRing (tape : List Slot) : Expr → Prop where
  | number {value : Int} (s : Span) (hvalue : inRange value = true) : IsRing tape (.number value s)
  | slot {name : Ident} (r s : Span) (hname : (slotIndex? tape name.name).isSome = true) :
      IsRing tape (.slot name r s)
  | binary {left right : Expr} {op : BinaryOp} (s : Span) (hop : op.wraps = true)
      (hleft : IsRing tape left) (hright : IsRing tape right) :
      IsRing tape (.binary left op right s)
  | negate {operand : Expr} (s : Span) (hoperand : IsRing tape operand) :
      IsRing tape (.unary .negate operand s)

/-- The value on the tape under a name. -/
def slotValue? (tape : List Slot) (name : String) : Option Int :=
  (slotIndex? tape name).bind fun index => tape[index]?.map Slot.value

/-- The value over all integers of an equation that `Expr.IsRing` admits. -/
def Expr.exactValue (tape : List Slot) : Expr → Int
  | number value _ => value
  | slot name _ _ => (slotValue? tape name.name).getD 0
  | binary left op right _ => op.exact (left.exactValue tape) (right.exactValue tape)
  | unary .negate operand _ => -operand.exactValue tape
  | _ => 0

namespace Eval

/-- The computation returns the value, leaves the memory as it is, and applies no operator that
    overflows a word. -/
def Yields (x : Eval Int) (m : Machine) (value : Int) : Prop :=
  ∃ journal, x.run m = (.ok value, ⟨m.memory, m.events ++ journal⟩) ∧
    ∀ event ∈ journal, event.FitsWord

variable {m : Machine}

theorem yields_pure (value : Int) : Yields (pure value) m value := by
  refine ⟨[], ?_, by simp⟩
  rw [List.append_nil]
  rfl

/-- Writing down an operation is the last thing that is done for its value. -/
theorem yields_record {event : Event} (hevent : event.FitsWord) (value : Int) :
    Yields (do record event; return value) m value :=
  ⟨[event], rfl, by simpa using hevent⟩

theorem Yields.bind {x : Eval Int} {next : Int → Eval Int} {value result : Int}
    (hx : x.Yields m value)
    (hnext : ∀ events, (next value).Yields ⟨m.memory, events⟩ result) :
    (x >>= next).Yields m result := by
  obtain ⟨journal, hrun, hjournal⟩ := hx
  obtain ⟨more, hmore, hfits⟩ := hnext (m.events ++ journal)
  refine ⟨journal ++ more, ?_, ?_⟩
  · rw [run_bind, hrun, ← List.append_assoc]
    exact hmore
  · intro event hevent
    exact (List.mem_append.mp hevent).elim (hjournal event) (hfits event)

theorem yields_slot {name : String} {index : Nat} {slot : Slot}
    (hindex : slotIndex? m.memory.tape name = some index)
    (hslot : m.memory.tape[index]? = some slot) :
    Yields (do let base ← locate name; loadSlot base) m slot.value := by
  have hmemory : ∀ m : Machine, memory.run m = (.ok m.memory, m) := fun _ => rfl
  have hlocate : (locate name).run m = (.ok index, m) := by
    rw [locate, run_bind, hmemory]
    simp only [hindex]
    rfl
  refine ⟨[.load index slot.value], ?_, by simp [Event.FitsWord]⟩
  simp only [run_bind, hlocate, loadSlot, hmemory, hslot]
  rfl

end Eval

open Eval

/-- However an equation is nested, wrapping it at every operator is wrapping it once. -/
theorem Expr.IsRing.yields {tape : List Slot} {e : Expr} (h : e.IsRing tape)
    (htape : ∀ slot ∈ tape, inRange slot.value = true) {m : Machine} (hm : m.memory.tape = tape) :
    e.eval.Yields m (wrap (e.exactValue tape)) := by
  induction h generalizing m with
  | number s hvalue =>
      rw [exactValue, wrap_of_inRange hvalue]
      exact yields_pure _
  | @slot name r s hname =>
      obtain ⟨index, hindex⟩ := Option.isSome_iff_exists.mp hname
      obtain ⟨hlength, hfound, -⟩ := List.findIdx?_eq_some_iff_getElem.mp hindex
      have hslot : tape[index]? = some tape[index] := List.getElem?_eq_getElem hlength
      have hvalue : (Expr.slot name r s).exactValue tape = tape[index].value := by
        simp [exactValue, slotValue?, hindex, hslot]
      rw [hvalue, wrap_of_inRange (htape _ (List.getElem_mem hlength))]
      exact yields_slot (hm ▸ hindex) (hm ▸ hslot)
  | @binary left right op s hop hleft hright ihLeft ihRight =>
      have happly := BinaryOp.apply_of_wraps hop (wrap (left.exactValue tape))
        (wrap (right.exactValue tape))
      have hfits : Event.FitsWord (.arithmetic op _ _ _) :=
        BinaryOp.checked?_eq (inRange_wrap _) (inRange_wrap _) happly
      rw [exactValue, ← wrap_exact_wrap hop, eval]
      refine (ihLeft hm).bind fun events => ?_
      simp only [BinaryOp.decided?_of_wraps hop]
      refine Yields.bind (ihRight (m := ⟨m.memory, events⟩) hm) fun _ => ?_
      rw [combine, happly]
      exact yields_record hfits _
  | @negate operand s hoperand ih =>
      have hfits : Event.FitsWord (.unary .negate _ _) :=
        UnaryOp.checked?_eq (inRange_wrap (operand.exactValue tape)) .negate
      rw [exactValue, ← wrap_neg_wrap, eval]
      refine (ih hm).bind fun _ => ?_
      exact yields_record hfits _

/-- Wrapping comes to repeated steps, finds the one value that is congruent to an integer, and
    overflows no word unless the distance of the integer from the smallest value does. An equation
    of numbers, slots, sums, differences, products and negations is always evaluated to a result,
    and this is the value that the equation has over all integers, wrapped. -/
theorem ring_arithmetic_is_exact :
    (∀ v : Int, wrap v = wrapBySteps v ∧
      (∀ w, w = wrap v ↔ inRange w = true ∧ valueCount ∣ v - w) ∧
      (fitsWord (v - minValue) = true → checkedWrap v = some (wrap v))) ∧
    ∀ (e : Expr) (m : Machine), (∀ slot ∈ m.memory.tape, inRange slot.value = true) →
      e.IsRing m.memory.tape → e.eval.Yields m (wrap (e.exactValue m.memory.tape)) := by
  constructor
  · intro v
    exact ⟨(wrapBySteps_eq v).symm, fun _ => eq_wrap_iff, checkedWrap_of_fitsWord⟩
  · intro e m htape hring
    exact hring.yields htape rfl

/-- Two slots at the ends of the range. -/
def endsOfRange : Memory where
  tape := [⟨some "low", -999⟩, ⟨some "high", 999⟩]

/-- The equation `-(low * low) * high - (high + 1) * low`. -/
def productOfEnds : Expr :=
  let low : Expr := .slot ⟨"low", .point 1 1⟩ (.point 1 1) (.point 1 1)
  let high : Expr := .slot ⟨"high", .point 1 1⟩ (.point 1 1) (.point 1 1)
  let square : Expr := .unary .negate (.binary low .multiply low (.point 1 1)) (.point 1 1)
  let next : Expr := .binary high .add (.number 1 (.point 1 1)) (.point 1 1)
  .binary (.binary square .multiply high (.point 1 1)) .subtract
    (.binary next .multiply low (.point 1 1)) (.point 1 1)

theorem ring_arithmetic_is_exact_productOfEnds :
    let v : Int := -(999 * 999 * 999) - 1000 * -999
    (∀ slot ∈ endsOfRange.tape, inRange slot.value = true) ∧
      productOfEnds.IsRing endsOfRange.tape ∧ productOfEnds.exactValue endsOfRange.tape = v ∧
      productOfEnds.eval.Yields ⟨endsOfRange, []⟩ (wrapBySteps v) ∧ wrap v = -250 ∧
      fitsWord (v - minValue) = true ∧ checkedWrap v = some (-250) := by
  intro v
  have htape : ∀ slot ∈ endsOfRange.tape, inRange slot.value = true := by decide
  have hring : productOfEnds.IsRing endsOfRange.tape := by
    have hlow : Expr.IsRing endsOfRange.tape
        (.slot ⟨"low", .point 1 1⟩ (.point 1 1) (.point 1 1)) := .slot _ _ (by decide)
    have hhigh : Expr.IsRing endsOfRange.tape
        (.slot ⟨"high", .point 1 1⟩ (.point 1 1) (.point 1 1)) := .slot _ _ (by decide)
    exact .binary _ rfl (.binary _ rfl (.negate _ (.binary _ rfl hlow hlow)) hhigh)
      (.binary _ rfl (.binary _ rfl hhigh (.number _ (by decide))) hlow)
  have hexact : productOfEnds.exactValue endsOfRange.tape = v := by decide
  have hword : fitsWord (v - minValue) = true := by decide
  obtain ⟨hwrap, heval⟩ := ring_arithmetic_is_exact
  obtain ⟨hsteps, -, hchecked⟩ := hwrap v
  have hyields := heval productOfEnds ⟨endsOfRange, []⟩ htape hring
  have hvalue : wrap v = -250 := by decide
  refine ⟨htape, hring, hexact, ?_, hvalue, hword, hvalue ▸ hchecked hword⟩
  rw [← hsteps, ← hexact]
  exact hyields

end TapePuzzle
