import Mathlib.Data.List.TakeWhile
import TapePuzzle.Proofs.Reading.Words

/-!
# What patterns match

A pattern stands for the texts that it can match, some of them only in front of certain texts. Main
statement: a pattern splits off the longest part at the front of a text that it can match, and it
fails only if there is none.
-/

namespace TapePuzzle

variable {p : Char → Bool} {text found rest : List Char}

/-- A part at the front of a text that is all of the class belongs to the longest such part. -/
theorem isPrefix_takeWhile (h : ∀ c ∈ found, p c = true) (rest : List Char) :
    found <+: (found ++ rest).takeWhile p := by
  rw [List.takeWhile_append_of_pos h]
  exact List.prefix_append _ _

/-- What comes after the longest part of the class does not go on with it. -/
theorem stops_dropWhile (p : Char → Bool) (text : List Char) : Stops p (text.dropWhile p) := by
  have hnot := List.head?_dropWhile_not p text
  unfold Stops
  cases hhead : (text.dropWhile p).head? with
  | none => rfl
  | some c =>
      rw [hhead] at hnot
      exact hnot

namespace Pattern

variable {pattern : Pattern} {wanted : String}

/-- The pattern can match `found` where the text goes on with `rest`. -/
def Takes : Pattern → (found rest : List Char) → Prop
  | literal wanted, found, _ => found = wanted.toList
  | word wanted, found, rest => found = wanted.toList ∧ Stops isNameChar rest
  | blanks, found, _ => found ≠ [] ∧ ∀ c ∈ found, isBlank c = true
  | identifier, found, _ => isIdentifier (String.ofList found) = true
  | integer, found, _ => IsInteger found
  | endOfLine, found, rest => rest = [] ∧ ∀ c ∈ found, isBlank c = true

/-- Of all parts at the front of a text that the pattern can match, `found` is the longest. -/
structure TakesLongest (pattern : Pattern) (text found rest : List Char) : Prop where
  append : found ++ rest = text
  takes : pattern.Takes found rest
  longest : ∀ other behind, other ++ behind = text → pattern.Takes other behind → other <+: found

/-! ## Class by class -/

theorem takesLongest_blanks (h : leadingBlanks text ≠ []) :
    blanks.TakesLongest text (leadingBlanks text) (afterBlanks text) where
  append := List.takeWhile_append_dropWhile
  takes := ⟨h, fun _ => List.mem_takeWhile_imp⟩
  longest := by
    rintro other behind rfl ⟨-, hother⟩
    exact isPrefix_takeWhile hother behind

theorem takes_identifier_iff :
    identifier.Takes found rest ↔
      ∃ first more, found = first :: more ∧ isNameStart first = true ∧
        ∀ c ∈ more, isNameChar c = true := by
  rw [Takes, isIdentifier_iff, String.toList_ofList]

theorem takesLongest_identifier {first : Char} (h : isNameStart first = true) (text : List Char) :
    identifier.TakesLongest (first :: text) (first :: text.takeWhile isNameChar)
      (text.dropWhile isNameChar) where
  append := by rw [List.cons_append, List.takeWhile_append_dropWhile]
  takes := takes_identifier_iff.mpr ⟨first, _, rfl, h, fun _ => List.mem_takeWhile_imp⟩
  longest := by
    intro other behind happend hother
    obtain ⟨first', more, rfl, -, hmore⟩ := takes_identifier_iff.mp hother
    cases happend
    exact (List.cons_prefix_cons).mpr ⟨rfl, isPrefix_takeWhile hmore behind⟩

/-- Digits that follow each other belong to one number. -/
theorem longest_digits {digits other behind : List Char}
    (h : splitDigits? text = some (digits, rest)) (happend : other ++ behind = text)
    (hother : IsDigits other) : other <+: digits := by
  unfold splitDigits? at h
  split at h
  · cases h
  · cases h
    subst happend
    exact isPrefix_takeWhile hother.chars behind

theorem isSome_splitDigits? {digits : List Char} (h : IsDigits digits) (rest : List Char) :
    (splitDigits? (digits ++ rest)).isSome = true := by
  obtain ⟨first, more, rfl⟩ := List.exists_cons_of_ne_nil h.ne_nil
  have hfirst : first.isDigit = true := h.chars first List.mem_cons_self
  simp [splitDigits?, hfirst]

theorem takesLongest_integer (h : splitInteger? text = some (found, rest)) :
    integer.TakesLongest text found rest where
  append := append_of_splitInteger? h
  takes := isInteger_of_splitInteger? h
  longest := by
    intro other behind happend hother
    unfold splitInteger? at h
    split at h
    · rename_i text
      obtain ⟨⟨digits, tail⟩, hdigits, heq⟩ := Option.map_eq_some_iff.mp h
      cases heq
      cases hother with
      | plain hother =>
          obtain ⟨first, more, rfl⟩ := List.exists_cons_of_ne_nil hother.ne_nil
          cases happend
          exact absurd rfl (hother.ne_minus more)
      | negative hother =>
          cases happend
          exact (List.cons_prefix_cons).mpr ⟨rfl, longest_digits hdigits rfl hother⟩
    · rename_i hminus
      cases hother with
      | plain hother => exact longest_digits h happend hother
      | negative hother => exact absurd happend.symm (hminus _)

/-! ## Any pattern -/

theorem takesLongest_of_split? (h : pattern.split? text = some (found, rest)) :
    pattern.TakesLongest text found rest := by
  have happend := append_of_split? h
  cases pattern with
  | literal wanted =>
      obtain ⟨tail, -, heq⟩ := Option.map_eq_some_iff.mp h
      cases heq
      refine ⟨happend, rfl, ?_⟩
      rintro other behind - rfl
      exact List.prefix_rfl
  | word wanted =>
      obtain ⟨tail, -, hsplit⟩ := Option.bind_eq_some_iff.mp h
      split at hsplit
      · cases hsplit
      · rename_i hstops
        cases hsplit
        refine ⟨happend, ⟨rfl, Bool.eq_false_iff.mpr hstops⟩, ?_⟩
        rintro other behind - ⟨rfl, -⟩
        exact List.prefix_rfl
  | blanks =>
      simp only [split?] at h
      split at h
      · cases h
      · rename_i hne
        cases h
        exact takesLongest_blanks hne
  | identifier =>
      simp only [split?] at h
      unfold splitIdentifier? at h
      split at h
      · cases h
      · split at h
        · rename_i hfirst
          cases h
          exact takesLongest_identifier hfirst _
        · cases h
  | integer => exact takesLongest_integer h
  | endOfLine =>
      simp only [split?] at h
      split at h
      · rename_i hblank
        cases h
        refine ⟨happend, ⟨rfl, List.all_eq_true.mp hblank⟩, ?_⟩
        rintro other behind rfl -
        exact List.prefix_append other behind
      · cases h

/-- A pattern that can match something at the front of a text does match there. -/
theorem isSome_split?_of_takes (h : pattern.Takes found rest) :
    (pattern.split? (found ++ rest)).isSome = true := by
  cases pattern with
  | literal wanted =>
      obtain rfl : found = wanted.toList := h
      simp [split?, after?_eq_some_iff.mpr rfl]
  | word wanted =>
      obtain ⟨rfl, hstops⟩ := h
      simp [split?, after?_eq_some_iff.mpr rfl, show rest.head?.any isNameChar = false from hstops]
  | blanks =>
      obtain ⟨hne, hblank⟩ := h
      obtain ⟨first, more, rfl⟩ := List.exists_cons_of_ne_nil hne
      have hfirst : isBlank first = true := hblank first List.mem_cons_self
      simp [split?, leadingBlanks, hfirst]
  | identifier =>
      obtain ⟨first, more, rfl, hfirst, -⟩ := takes_identifier_iff.mp h
      simp [split?, splitIdentifier?, hfirst]
  | integer =>
      cases h with
      | plain h =>
          rw [split?, splitInteger?]
          · exact isSome_splitDigits? h rest
          · intro text htext
            obtain ⟨first, more, rfl⟩ := List.exists_cons_of_ne_nil h.ne_nil
            cases htext
            exact h.ne_minus more rfl
      | negative h => simpa [split?, splitInteger?] using isSome_splitDigits? h rest
  | endOfLine =>
      obtain ⟨rfl, hblank⟩ := h
      simp [split?, List.all_eq_true.mpr hblank]

theorem split?_eq_some_iff :
    pattern.split? text = some (found, rest) ↔ pattern.TakesLongest text found rest := by
  refine ⟨takesLongest_of_split?, ?_⟩
  rintro ⟨rfl, htakes, hlongest⟩
  obtain ⟨⟨found', rest'⟩, hsplit⟩ := Option.isSome_iff_exists.mp (isSome_split?_of_takes htakes)
  have hother := takesLongest_of_split? hsplit
  have hsame : found' = found :=
    (hlongest found' rest' hother.append hother.takes).eq_of_length_le
      (hother.longest found rest rfl htakes).length_le
  subst hsame
  rw [hsplit, List.append_cancel_left hother.append]

theorem isSome_split?_iff :
    (pattern.split? text).isSome = true ↔
      ∃ found rest, found ++ rest = text ∧ pattern.Takes found rest := by
  constructor
  · intro h
    obtain ⟨⟨found, rest⟩, hsplit⟩ := Option.isSome_iff_exists.mp h
    have htakes := takesLongest_of_split? hsplit
    exact ⟨found, rest, htakes.append, htakes.takes⟩
  · rintro ⟨found, rest, rfl, htakes⟩
    exact isSome_split?_of_takes htakes

end Pattern

end TapePuzzle
