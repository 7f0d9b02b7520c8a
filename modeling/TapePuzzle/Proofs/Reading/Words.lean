import TapePuzzle.Proofs.Reading.Equations
import TapePuzzle.Reading.Declarations

/-!
# Reading written words

A written line consists of names and numbers, each but the first after one space. The cursor takes
such a word as it was written: it goes on to where the word ends and no further.
-/

namespace TapePuzzle

/-! ## Characters -/

/-- Names and numbers consist of these characters. -/
def isWordChar (c : Char) : Bool := isNameChar c || c == '-'

theorem toNat_of_isAlpha {c : Char} (h : c.isAlpha = true) : 65 ≤ c.toNat ∧ c.toNat ≤ 122 := by
  rcases Bool.or_eq_true_iff.mp h with hupper | hlower
  · obtain ⟨hleast, hmost⟩ := of_decide_eq_true hupper
    have hleast : 65 ≤ c.toNat := UInt32.le_iff_toNat_le.mp hleast
    have hmost : c.toNat ≤ 90 := UInt32.le_iff_toNat_le.mp hmost
    omega
  · obtain ⟨hleast, hmost⟩ := Bool.and_eq_true_iff.mp hlower
    have hleast : 97 ≤ c.toNat := UInt32.le_iff_toNat_le.mp (of_decide_eq_true hleast)
    have hmost : c.toNat ≤ 122 := UInt32.le_iff_toNat_le.mp (of_decide_eq_true hmost)
    omega

theorem toNat_of_isDigit {c : Char} (h : c.isDigit = true) : 48 ≤ c.toNat ∧ c.toNat ≤ 57 := by
  obtain ⟨hleast, hmost⟩ := Bool.and_eq_true_iff.mp h
  exact ⟨UInt32.le_iff_toNat_le.mp (of_decide_eq_true hleast),
    UInt32.le_iff_toNat_le.mp (of_decide_eq_true hmost)⟩

theorem toNat_of_isNameChar {c : Char} (h : isNameChar c = true) :
    48 ≤ c.toNat ∧ c.toNat ≤ 57 ∨ 65 ≤ c.toNat ∧ c.toNat ≤ 122 := by
  rcases Bool.or_eq_true_iff.mp h with halphanum | hunderscore
  · rcases Bool.or_eq_true_iff.mp halphanum with halpha | hdigit
    · exact .inr (toNat_of_isAlpha halpha)
    · exact .inl (toNat_of_isDigit hdigit)
  · obtain rfl := beq_iff_eq.mp hunderscore
    decide

theorem toNat_of_isWordChar {c : Char} (h : isWordChar c = true) :
    45 ≤ c.toNat ∧ c.toNat ≠ 46 ∧ c.toNat ≤ 122 := by
  rcases Bool.or_eq_true_iff.mp h with h | h
  · have hname := toNat_of_isNameChar h
    omega
  · obtain rfl := beq_iff_eq.mp h
    decide

theorem isWordChar_of_isDigit {c : Char} (h : c.isDigit = true) : isWordChar c = true := by
  simp [isWordChar, isNameChar, Char.isAlphanum, h]

theorem isNameChar_of_isNameStart {c : Char} (h : isNameStart c = true) : isNameChar c = true := by
  simp only [isNameStart, isNameChar, Char.isAlphanum, Bool.or_eq_true] at h ⊢
  exact h.imp_left .inl

theorem isWhiteSpace_of_isBlank {c : Char} (h : isBlank c = true) : isWhiteSpace c = true := by
  rcases Bool.or_eq_true_iff.mp h with h | h
  · rw [beq_iff_eq.mp h]
    decide
  · rw [beq_iff_eq.mp h]
    decide

theorem isWhiteSpace_of_isWordChar {c : Char} (h : isWordChar c = true) :
    isWhiteSpace c = false := by
  have hnumber := toNat_of_isWordChar h
  simp [isWhiteSpace]
  omega

theorem ne_of_isWordChar {c d : Char} (h : isWordChar c = true) (hd : isWordChar d = false) :
    c ≠ d := by
  rintro rfl
  rw [h] at hd
  cases hd

theorem isBlank_of_isWordChar {c : Char} (h : isWordChar c = true) : isBlank c = false := by
  have hspace : c ≠ ' ' := ne_of_isWordChar h (by decide)
  have htab : c ≠ '\t' := ne_of_isWordChar h (by decide)
  simp [isBlank, hspace, htab]

/-! ## Names and numbers -/

/-- The text is a name, all of it. -/
def isIdentifier (name : String) : Bool :=
  match name.toList with
  | [] => false
  | first :: rest => isNameStart first && rest.all isNameChar

theorem isIdentifier_iff {name : String} :
    isIdentifier name = true ↔
      ∃ first rest, name.toList = first :: rest ∧ isNameStart first = true ∧
        ∀ c ∈ rest, isNameChar c = true := by
  unfold isIdentifier
  cases name.toList with
  | nil => simp
  | cons first rest =>
      simp only [Bool.and_eq_true, List.all_eq_true]
      constructor
      · exact fun h => ⟨first, rest, rfl, h⟩
      · rintro ⟨_, _, ⟨⟩, h⟩
        exact h

theorem isNameChar_of_mem_identifier {name : String} (h : isIdentifier name = true) {c : Char}
    (hc : c ∈ name.toList) : isNameChar c = true := by
  obtain ⟨first, rest, hname, hfirst, hrest⟩ := isIdentifier_iff.mp h
  rw [hname] at hc
  rcases List.mem_cons.mp hc with rfl | hc
  · exact isNameChar_of_isNameStart hfirst
  · exact hrest c hc

theorem isWordChar_of_mem_identifier {name : String} (h : isIdentifier name = true) {c : Char}
    (hc : c ∈ name.toList) : isWordChar c = true := by
  simp [isWordChar, isNameChar_of_mem_identifier h hc]

theorem isNameStart_of_isDigit {c : Char} (h : c.isDigit = true) : isNameStart c = false := by
  have hdigit := toNat_of_isDigit h
  cases hstart : isNameStart c with
  | false => rfl
  | true =>
      rcases Bool.or_eq_true_iff.mp hstart with halpha | hunderscore
      · have halpha := toNat_of_isAlpha halpha
        omega
      · obtain rfl := beq_iff_eq.mp hunderscore
        exact absurd h (by decide)

/-- A number starts with a digit or a minus sign, so that it cannot be taken for a name. -/
theorem writeInteger_eq_cons (n : Int) :
    ∃ first rest, writeInteger n = first :: rest ∧ isNameStart first = false := by
  cases n with
  | ofNat n =>
      obtain ⟨first, rest, heq⟩ :=
        List.exists_cons_of_ne_nil (Nat.toDigits_ne_nil (n := n) (b := 10))
      have hdigit : first.isDigit = true :=
        Nat.isDigit_of_mem_toDigits (by decide) (by decide) (heq ▸ List.mem_cons_self)
      exact ⟨first, rest, heq, isNameStart_of_isDigit hdigit⟩
  | negSucc n => exact ⟨'-', _, rfl, by decide⟩

/-! ## Where words end -/

/-- The text does not go on with a character of the class. -/
def Stops (p : Char → Bool) (text : List Char) : Prop := text.head?.any p = false

/-- A word of the class is taken as a whole where the text does not go on with it. -/
theorem takeWhile_append_of_stops {p : Char → Bool} {word rest : List Char}
    (hword : ∀ c ∈ word, p c = true) (hend : Stops p rest) :
    (word ++ rest).takeWhile p = word ∧ (word ++ rest).dropWhile p = rest := by
  rw [List.takeWhile_append_of_pos hword, List.dropWhile_append_of_pos hword]
  cases rest with
  | nil => simp
  | cons c rest =>
      have hc : p c = false := hend
      simp [hc]

/-- One or more decimal digits. -/
structure IsDigits (digits : List Char) : Prop where
  ne_nil : digits ≠ []
  chars : ∀ c ∈ digits, c.isDigit = true

/-- Decimal digits after an optional minus sign. -/
inductive IsInteger : List Char → Prop where
  | plain {digits : List Char} (h : IsDigits digits) : IsInteger digits
  | negative {digits : List Char} (h : IsDigits digits) : IsInteger ('-' :: digits)

theorem IsDigits.ne_minus {digits : List Char} (h : IsDigits digits) (text : List Char) :
    digits ≠ '-' :: text := by
  rintro rfl
  exact absurd (h.chars '-' List.mem_cons_self) (by decide)

theorem isInteger_writeInteger (n : Int) : IsInteger (writeInteger n) := by
  have hdigits : ∀ n : Nat, IsDigits (Nat.toDigits 10 n) := fun n =>
    ⟨Nat.toDigits_ne_nil, fun _ => Nat.isDigit_of_mem_toDigits (by decide) (by decide)⟩
  cases n with
  | ofNat n => exact .plain (hdigits n)
  | negSucc n => exact .negative (hdigits (n + 1))

theorem splitDigits?_append {digits rest : List Char} (h : IsDigits digits)
    (hend : Stops Char.isDigit rest) : splitDigits? (digits ++ rest) = some (digits, rest) := by
  obtain ⟨htake, hdrop⟩ := takeWhile_append_of_stops h.chars hend
  unfold splitDigits?
  rw [htake, hdrop]
  split
  · exact absurd rfl h.ne_nil
  · rfl

theorem splitInteger?_append {number rest : List Char} (h : IsInteger number)
    (hend : Stops Char.isDigit rest) : splitInteger? (number ++ rest) = some (number, rest) := by
  cases h with
  | plain h =>
      rw [splitInteger?]
      · exact splitDigits?_append h hend
      · intro text htext
        obtain ⟨first, more, rfl⟩ := List.exists_cons_of_ne_nil h.ne_nil
        cases htext
        exact h.ne_minus more rfl
  | negative h => simp [splitInteger?, splitDigits?_append h hend]

theorem splitDigits?_eq_none_iff {text : List Char} :
    splitDigits? text = none ↔ Stops Char.isDigit text := by
  cases text with
  | nil => simp [splitDigits?, Stops]
  | cons first more => cases h : first.isDigit <;> simp [splitDigits?, Stops, h]

theorem isDigits_of_splitDigits? {text digits rest : List Char}
    (h : splitDigits? text = some (digits, rest)) : IsDigits digits := by
  unfold splitDigits? at h
  split at h
  · cases h
  · rename_i hne
    cases h
    exact ⟨hne, fun c hc => List.all_eq_true.mp List.all_takeWhile c hc⟩

theorem isInteger_of_splitInteger? {text number rest : List Char}
    (h : splitInteger? text = some (number, rest)) : IsInteger number := by
  unfold splitInteger? at h
  split at h
  · obtain ⟨⟨digits, tail⟩, hdigits, heq⟩ := Option.map_eq_some_iff.mp h
    cases heq
    exact .negative (isDigits_of_splitDigits? hdigits)
  · exact .plain (isDigits_of_splitDigits? h)

theorem splitIdentifier?_append {name : String} (hname : isIdentifier name = true)
    {rest : List Char} (hend : Stops isNameChar rest) :
    splitIdentifier? (name.toList ++ rest) = some (name.toList, rest) := by
  obtain ⟨first, more, heq, hfirst, hmore⟩ := isIdentifier_iff.mp hname
  obtain ⟨htake, hdrop⟩ := takeWhile_append_of_stops hmore hend
  simp [heq, splitIdentifier?, hfirst, htake, hdrop]

/-! ## Words -/

/-- A text that a written line can have between two spaces. -/
structure IsWord (word : List Char) : Prop where
  ne_nil : word ≠ []
  chars : ∀ c ∈ word, isWordChar c = true

theorem isWord_of_all {word : List Char} (hne : word ≠ []) (h : word.all isWordChar = true) :
    IsWord word :=
  ⟨hne, List.all_eq_true.mp h⟩

theorem IsInteger.isWord {number : List Char} (h : IsInteger number) : IsWord number := by
  cases h with
  | plain h => exact ⟨h.ne_nil, fun c hc => isWordChar_of_isDigit (h.chars c hc)⟩
  | negative h =>
      refine ⟨by simp, List.forall_mem_cons.mpr ⟨by decide, fun c hc => ?_⟩⟩
      exact isWordChar_of_isDigit (h.chars c hc)

theorem isWord_writeInteger (n : Int) : IsWord (writeInteger n) :=
  (isInteger_writeInteger n).isWord

theorem isWord_of_isIdentifier {name : String} (h : isIdentifier name = true) :
    IsWord name.toList := by
  obtain ⟨first, rest, heq, -⟩ := isIdentifier_iff.mp h
  exact ⟨by simp [heq], fun _ => isWordChar_of_mem_identifier h⟩

theorem isWord_keyword (kind : ObjectKind) : IsWord kind.keyword.toList := by
  cases kind <;> exact isWord_of_all (by decide) (by decide)

theorem IsWord.exists_cons {word : List Char} (h : IsWord word) :
    ∃ first rest, word = first :: rest ∧ isWordChar first = true := by
  obtain ⟨first, rest, rfl⟩ := List.exists_cons_of_ne_nil h.ne_nil
  exact ⟨first, rest, rfl, h.chars first List.mem_cons_self⟩

@[simp] theorem afterBlanks_space (text : List Char) :
    afterBlanks (' ' :: text) = afterBlanks text := rfl

theorem IsWord.afterBlanks_append {word : List Char} (h : IsWord word) (rest : List Char) :
    afterBlanks (word ++ rest) = word ++ rest := by
  obtain ⟨first, more, rfl, hfirst⟩ := h.exists_cons
  simp [afterBlanks, isBlank_of_isWordChar hfirst]

/-! ## The cursor at a word -/

namespace Cursor

variable {c : Cursor} {rest : List Char}

@[simp] theorem rest_skipBlanks (c : Cursor) : c.skipBlanks.rest = afterBlanks c.rest := rfl

theorem rest_skipBlanks_word {word : List Char} (hword : IsWord word)
    (h : c.rest = ' ' :: (word ++ rest)) : c.skipBlanks.rest = word ++ rest := by
  rw [rest_skipBlanks, h, afterBlanks_space, hword.afterBlanks_append]

theorem sees_endOfLine (c : Cursor) : c.sees .endOfLine = c.rest.all isBlank := by
  simp only [sees, Pattern.split?]
  split <;> simp_all

theorem sees_endOfLine_of_word {word : List Char} (hword : IsWord word)
    (h : c.rest = word ++ rest) : c.sees .endOfLine = false := by
  obtain ⟨first, more, rfl, hfirst⟩ := hword.exists_cons
  simp [sees_endOfLine, h, isBlank_of_isWordChar hfirst]

theorem rest_of_eat? {past : Cursor} {p : Pattern} (h : c.eat? p = some past) :
    c.rest = past.matched ++ past.rest := by
  obtain ⟨⟨found, rest⟩, hsplit, rfl⟩ := Option.map_eq_some_iff.mp h
  exact (Pattern.append_of_split? hsplit).symm

theorem isInteger_of_eat? {past : Cursor} (h : c.eat? .integer = some past) :
    IsInteger past.matched := by
  obtain ⟨⟨found, rest⟩, hsplit, rfl⟩ := Option.map_eq_some_iff.mp h
  exact isInteger_of_splitInteger? hsplit

/-- What is read as a name is one, all of it. -/
theorem isIdentifier_of_eat? {past : Cursor} (h : c.eat? .identifier = some past) :
    isIdentifier past.word = true := by
  obtain ⟨⟨found, rest⟩, hsplit, rfl⟩ := Option.map_eq_some_iff.mp h
  rw [isIdentifier_iff, word, String.toList_ofList]
  simp only [Pattern.split?] at hsplit
  unfold splitIdentifier? at hsplit
  split at hsplit
  · cases hsplit
  · rename_i first text _
    split at hsplit
    · rename_i hfirst
      cases hsplit
      refine ⟨first, _, rfl, hfirst, fun c hc => ?_⟩
      exact List.all_eq_true.mp List.all_takeWhile c hc
    · cases hsplit

theorem eat?_of_split? {p : Pattern} {found : List Char}
    (h : p.split? c.rest = some (found, rest)) :
    ∃ past, c.eat? p = some past ∧ past.rest = rest ∧ past.matched = found :=
  ⟨_, by rw [eat?, h]; rfl, rfl, rfl⟩

theorem eat?_integer {number : List Char} (hnumber : IsInteger number)
    (h : c.rest = number ++ rest) (hend : Stops Char.isDigit rest) :
    ∃ past, c.eat? .integer = some past ∧ past.rest = rest ∧ past.matched = number :=
  eat?_of_split? (h ▸ splitInteger?_append hnumber hend)

theorem sees_integer_of_not_digit {first : Char} (h : c.rest.head? = some first)
    (hdigit : first.isDigit = false) (hminus : first ≠ '-') : c.sees .integer = false := by
  obtain ⟨more, hmore⟩ := List.head?_eq_some_iff.mp h
  have hsplit : splitDigits? (first :: more) = none := by simp [splitDigits?, hdigit]
  rw [sees, Pattern.split?, hmore, splitInteger?, hsplit]
  · rfl
  · rintro text ⟨⟩
    exact hminus rfl

theorem eat?_identifier {name : String} (hname : isIdentifier name = true)
    (h : c.rest = name.toList ++ rest) (hend : Stops isNameChar rest) :
    ∃ past, c.eat? .identifier = some past ∧ past.rest = rest ∧ past.word = name := by
  obtain ⟨past, hpast, hrest, hmatched⟩ := eat?_of_split? (p := .identifier)
    (h ▸ splitIdentifier?_append hname hend)
  exact ⟨past, hpast, hrest, by rw [word, hmatched, String.ofList_toList]⟩

/-- A number is not taken for a name. -/
theorem eat?_identifier_of_integer {n : Int} (h : c.rest = writeInteger n ++ rest) :
    c.eat? .identifier = none := by
  obtain ⟨first, more, heq, hfirst⟩ := writeInteger_eq_cons n
  simp [eat?, Pattern.split?, splitIdentifier?, h, heq, hfirst]

theorem eat?_word {text : String} (h : c.rest = text.toList ++ rest)
    (hend : Stops isNameChar rest) :
    ∃ past, c.eat? (.word text) = some past ∧ past.rest = rest := by
  have hsplit : (Pattern.word text).split? c.rest = some (text.toList, rest) := by
    rw [h, Pattern.split?, after?_eq_some_iff.mpr rfl, Option.bind_some, hend, if_neg (by simp)]
  obtain ⟨past, hpast, hrest, -⟩ := eat?_of_split? hsplit
  exact ⟨past, hpast, hrest⟩

/-- A line that starts with another letter does not start with the word. -/
theorem eat?_word_of_ne {text : String} {letter first : Char}
    (htext : text.toList.head? = some letter) (h : c.rest.head? = some first)
    (hne : first ≠ letter) : c.eat? (.word text) = none := by
  have hafter : after? text.toList c.rest = none := by
    refine Option.eq_none_iff_forall_ne_some.mpr fun more hmore => hne ?_
    rw [after?_eq_some_iff.mp hmore, List.head?_append, htext] at h
    exact (Option.some.inj h).symm
  rw [eat?, Pattern.split?, hafter]
  rfl

theorem eat?_space (h : c.rest = ' ' :: rest) (hrest : afterBlanks rest = rest) :
    ∃ past, c.eat? .blanks = some past ∧ past.rest = rest := by
  have hsplit : Pattern.blanks.split? c.rest = some (' ' :: leadingBlanks rest, rest) := by
    rw [h, Pattern.split?, afterBlanks_space, hrest]
    rfl
  obtain ⟨past, hpast, hrest, -⟩ := eat?_of_split? hsplit
  exact ⟨past, hpast, hrest⟩

end Cursor

/-! ## Written lines -/

theorem dropEndWhile_cons {p : Char → Bool} {c : Char} (h : p c = false) (text : List Char) :
    dropEndWhile p (c :: text) = c :: dropEndWhile p text := by
  rw [dropEndWhile]
  split
  · rename_i hnil
    rw [hnil]
    simp [h]
  · rfl

theorem dropEndWhile_eq_self {p : Char → Bool} {text : List Char} (h : ∀ c ∈ text, p c = false) :
    dropEndWhile p text = text := by
  induction text with
  | nil => rfl
  | cons c text ih =>
      obtain ⟨hc, htext⟩ := List.forall_mem_cons.mp h
      rw [dropEndWhile_cons hc, ih htext]

theorem dropEndWhile_append {p : Char → Bool} {back : List Char} (hne : back ≠ [])
    (h : dropEndWhile p back = back) (front : List Char) :
    dropEndWhile p (front ++ back) = front ++ back := by
  induction front with
  | nil => exact h
  | cons c front ih =>
      rw [List.cons_append, dropEndWhile, ih]
      split
      · rename_i hnil
        exact absurd (List.append_eq_nil_iff.mp hnil).2 hne
      · rfl

/-- A line that starts with a word and has no comment. -/
structure IsBare (line : List Char) : Prop where
  first : ∃ first rest, line = first :: rest ∧ isWordChar first = true
  comment : '#' ∉ line

namespace IsBare

variable {line : List Char}

theorem codePart_eq (h : IsBare line) : codePart line = line := by
  have hall : ∀ c ∈ line, (c != '#') = true := by
    intro c hc
    refine bne_iff_ne.mpr ?_
    rintro rfl
    exact h.comment hc
  have htake : (line ++ []).takeWhile (· != '#') = line ++ [].takeWhile (· != '#') :=
    List.takeWhile_append_of_pos hall
  simpa [codePart] using htake

theorem saysNothing_eq (h : IsBare line) : saysNothing line = false := by
  obtain ⟨first, rest, heq, hfirst⟩ := h.first
  rw [saysNothing, h.codePart_eq, heq]
  simp [isWhiteSpace_of_isWordChar hfirst]

theorem trim_eq_cons (h : IsBare line) :
    ∃ first rest, trim (codePart line) = first :: rest ∧ isWordChar first = true := by
  obtain ⟨first, rest, heq, hfirst⟩ := h.first
  have hspace := isWhiteSpace_of_isWordChar hfirst
  refine ⟨first, trimEnd rest, ?_, hfirst⟩
  rw [h.codePart_eq, heq, trim, trimEnd, dropEndWhile_cons hspace, List.dropWhile_cons_of_neg]
  · rfl
  · simp [hspace]

theorem skipBlanks_start (h : IsBare line) (number : Nat) :
    (Cursor.start number line).skipBlanks = Cursor.start number line := by
  obtain ⟨first, rest, rfl, hfirst⟩ := h.first
  simp [Cursor.start, Cursor.skipBlanks, leadingBlanks, afterBlanks, isBlank_of_isWordChar hfirst]

end IsBare

/-- A line that consists of words and spaces, and starts with a word. -/
structure IsPlain (line : List Char) : Prop where
  first : ∃ first rest, line = first :: rest ∧ isWordChar first = true
  chars : ∀ c ∈ line, isWordChar c = true ∨ c = ' '

theorem IsWord.isPlain {word : List Char} (h : IsWord word) : IsPlain word :=
  ⟨h.exists_cons, fun c hc => .inl (h.chars c hc)⟩

namespace IsPlain

variable {line : List Char}

theorem append_word (h : IsPlain line) {word : List Char} (hword : IsWord word) :
    IsPlain (line ++ [' '] ++ word) := by
  obtain ⟨first, rest, rfl, hfirst⟩ := h.first
  refine ⟨⟨first, _, rfl, hfirst⟩, fun c hc => ?_⟩
  rcases List.mem_append.mp hc with hc | hc
  · rcases List.mem_append.mp hc with hc | hc
    · exact h.chars c hc
    · exact .inr (List.mem_singleton.mp hc)
  · exact .inl (hword.chars c hc)

theorem append_integers (h : IsPlain line) (values : List Int) :
    IsPlain (line ++ values.flatMap fun value => [' '] ++ writeInteger value) := by
  induction values generalizing line with
  | nil => simpa using h
  | cons value values ih =>
      have hmore := ih (h.append_word (isWord_writeInteger value))
      simpa [List.append_assoc] using hmore

theorem not_mem (h : IsPlain line) {c : Char} (hc : isWordChar c = false) (hspace : c ≠ ' ') :
    c ∉ line := by
  intro hmem
  rcases h.chars c hmem with hword | heq
  · exact ne_of_isWordChar hword hc rfl
  · exact hspace heq

theorem isBare (h : IsPlain line) : IsBare line := ⟨h.first, h.not_mem (by decide) (by decide)⟩

theorem dropEndWhile_eq (h : IsPlain line) : dropEndWhile (· == '\r') line = line := by
  refine dropEndWhile_eq_self fun c hc => beq_eq_false_iff_ne.mpr ?_
  rintro rfl
  exact h.not_mem (by decide) (by decide) hc

end IsPlain

end TapePuzzle
