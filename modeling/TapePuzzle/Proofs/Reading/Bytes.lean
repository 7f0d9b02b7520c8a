import TapePuzzle.Proofs.Reading.Patterns

/-!
# Lines as bytes

A line can be read byte by byte, without looking at characters: all that patterns look for are texts
and classes of characters that take one byte each. Bytes can be cut only where a character starts.
Main statements: byte by byte a pattern matches the same as character by character, and the places
where the bytes of a text can be cut are those between its characters.
-/

namespace TapePuzzle

/-! ## Bytes of a text -/

/-- The bytes of a text. -/
def utf8 (text : List Char) : List UInt8 := text.flatMap String.utf8EncodeChar

@[simp] theorem utf8_nil : utf8 [] = [] := rfl

@[simp] theorem utf8_cons (c : Char) (text : List Char) :
    utf8 (c :: text) = String.utf8EncodeChar c ++ utf8 text := rfl

@[simp] theorem utf8_append (left right : List Char) :
    utf8 (left ++ right) = utf8 left ++ utf8 right := List.flatMap_append

@[simp] theorem length_utf8 (text : List Char) : (utf8 text).length = byteLength text := by
  induction text with
  | nil => rfl
  | cons c text ih => simp [ih]

/-- The first character can be told from the bytes, whatever comes after it. -/
theorem eq_of_utf8EncodeChar_append {c d : Char} {left right : List UInt8}
    (h : String.utf8EncodeChar c ++ left = String.utf8EncodeChar d ++ right) : c = d := by
  have hdecode := congrArg (fun bytes => ByteArray.utf8DecodeChar? (List.toByteArray bytes) 0) h
  simpa [List.toByteArray_append, ByteArray.utf8DecodeChar?_utf8EncodeChar_append] using hdecode

theorem utf8_isPrefix_iff {front text : List Char} : utf8 front <+: utf8 text ↔ front <+: text := by
  induction front generalizing text with
  | nil => simp
  | cons c front ih =>
      cases text with
      | nil =>
          have hpos := c.utf8Size_pos
          simp only [utf8_nil, List.prefix_nil, List.cons_ne_nil, iff_false]
          intro hnil
          have hlength := congrArg List.length hnil
          simp at hlength
          omega
      | cons d text =>
          rw [List.cons_prefix_cons, utf8_cons, utf8_cons]
          constructor
          · rintro ⟨behind, hbehind⟩
            rw [List.append_assoc] at hbehind
            obtain rfl := eq_of_utf8EncodeChar_append hbehind
            exact ⟨rfl, ih.mp ⟨behind, List.append_cancel_left hbehind⟩⟩
          · rintro ⟨rfl, hfront⟩
            exact (List.prefix_append_right_inj _).mpr (ih.mpr hfront)

/-! ## Classes of bytes -/

/-- A byte belongs to a class of characters if the character with its number does. -/
def onByte (p : Char → Bool) (b : UInt8) : Bool := p (Char.ofUInt8 b)

/-- All characters of the class take one byte. -/
def IsAscii (p : Char → Bool) : Prop := ∀ c, p c = true → c.toNat < 128

theorem isAscii_isNameChar : IsAscii isNameChar := by
  intro c h
  have hnumber := toNat_of_isNameChar h
  omega

theorem isAscii_isNameStart : IsAscii isNameStart :=
  fun c h => isAscii_isNameChar c (isNameChar_of_isNameStart h)

theorem isAscii_isDigit : IsAscii Char.isDigit := by
  intro c h
  have hnumber := toNat_of_isDigit h
  omega

theorem isAscii_isBlank : IsAscii isBlank := by
  intro c h
  rcases Bool.or_eq_true_iff.mp h with h | h
  · rw [beq_iff_eq.mp h]
    decide
  · rw [beq_iff_eq.mp h]
    decide

theorem utf8Size_of_lt {c : Char} (h : c.toNat < 128) : c.utf8Size = 1 :=
  Char.utf8Size_eq_one_iff.mpr (UInt32.le_iff_toNat_le.mpr (Nat.le_of_lt_succ h))

theorem utf8EncodeChar_of_lt {c : Char} (h : c.toNat < 128) :
    String.utf8EncodeChar c = [c.toUInt8] := by
  rw [String.utf8EncodeChar_eq_singleton (utf8Size_of_lt h)]
  rfl

theorem ofUInt8_toUInt8 {c : Char} (h : c.toNat < 128) : Char.ofUInt8 c.toUInt8 = c := by
  have hval : c.val.toNat < 128 := h
  apply Char.ext
  apply UInt32.toNat_inj.mp
  calc
    (Char.ofUInt8 c.toUInt8).val.toNat = c.val.toUInt8.toUInt32.toNat := rfl
    _ = c.val.toNat % 256 := by simp only [UInt8.toNat_toUInt32, UInt32.toNat_toUInt8]
    _ = c.val.toNat := Nat.mod_eq_of_lt (by omega)

/-- A character of several bytes has a mark in each of them. -/
theorem le_toNat_of_mem_utf8EncodeChar {c : Char} (h : 128 ≤ c.toNat) {b : UInt8}
    (hb : b ∈ String.utf8EncodeChar c) : 128 ≤ b.toNat := by
  have hval : 128 ≤ c.val.toNat := h
  have hlong : c.utf8Size ≠ 1 := by
    rw [ne_eq, Char.utf8Size_eq_one_iff, UInt32.le_iff_toNat_le]
    simp only [UInt32.reduceToNat]
    omega
  have hmarked : ∃ bits mark : UInt8, b = bits ||| mark ∧ 128 ≤ mark.toNat := by
    rcases c.utf8Size_eq with hsize | hsize | hsize | hsize
    · exact absurd hsize hlong
    · rw [String.utf8EncodeChar_eq_cons_cons hsize] at hb
      simp only [List.mem_cons, List.not_mem_nil, or_false] at hb
      rcases hb with rfl | rfl <;> exact ⟨_, _, rfl, by decide⟩
    · rw [String.utf8EncodeChar_eq_cons_cons_cons hsize] at hb
      simp only [List.mem_cons, List.not_mem_nil, or_false] at hb
      rcases hb with rfl | rfl | rfl <;> exact ⟨_, _, rfl, by decide⟩
    · rw [String.utf8EncodeChar_eq_cons_cons_cons_cons hsize] at hb
      simp only [List.mem_cons, List.not_mem_nil, or_false] at hb
      rcases hb with rfl | rfl | rfl | rfl <;> exact ⟨_, _, rfl, by decide⟩
  obtain ⟨bits, mark, rfl, hmark⟩ := hmarked
  rw [UInt8.toNat_or]
  exact Nat.le_trans hmark Nat.right_le_or

namespace IsAscii

variable {p : Char → Bool}

theorem onByte_eq_false (hp : IsAscii p) {b : UInt8} (h : 128 ≤ b.toNat) : onByte p b = false := by
  rw [onByte, Bool.eq_false_iff]
  intro hb
  have hlow : (Char.ofUInt8 b).toNat < 128 := hp _ hb
  have hsame : (Char.ofUInt8 b).toNat = b.toNat := UInt8.toNat_toUInt32 b
  omega

/-- A character of the class is its own byte. -/
theorem utf8_cons_of_pos (hp : IsAscii p) {c : Char} (h : p c = true) (text : List Char) :
    onByte p c.toUInt8 = true ∧ utf8 (c :: text) = c.toUInt8 :: utf8 text := by
  have hlow := hp c h
  rw [onByte, ofUInt8_toUInt8 hlow, utf8_cons, utf8EncodeChar_of_lt hlow, List.singleton_append]
  exact ⟨h, rfl⟩

/-- Any other character starts with a byte that is not of the class. -/
theorem utf8_cons_of_neg (hp : IsAscii p) {c : Char} (h : p c = false) (text : List Char) :
    ∃ b more, onByte p b = false ∧ utf8 (c :: text) = b :: more := by
  by_cases hlow : c.toNat < 128
  · refine ⟨c.toUInt8, utf8 text, ?_, ?_⟩
    · rw [onByte, ofUInt8_toUInt8 hlow, h]
    · rw [utf8_cons, utf8EncodeChar_of_lt hlow, List.singleton_append]
  · obtain ⟨b, more, hbytes⟩ := List.exists_cons_of_ne_nil (String.utf8EncodeChar_ne_nil (c := c))
    have hb : 128 ≤ b.toNat :=
      le_toNat_of_mem_utf8EncodeChar (Nat.le_of_not_lt hlow) (hbytes ▸ List.mem_cons_self)
    exact ⟨b, more ++ utf8 text, hp.onByte_eq_false hb, by rw [utf8_cons, hbytes, List.cons_append]⟩

/-- Bytes of the class at the front of a text are characters of the class. -/
theorem takeWhile_utf8 (hp : IsAscii p) (text : List Char) :
    (utf8 text).takeWhile (onByte p) = utf8 (text.takeWhile p) := by
  induction text with
  | nil => rfl
  | cons c text ih =>
      cases hc : p c with
      | true =>
          obtain ⟨hb, hbytes⟩ := hp.utf8_cons_of_pos hc text
          rw [hbytes, List.takeWhile_cons_of_pos hb, List.takeWhile_cons_of_pos hc, ih,
            (hp.utf8_cons_of_pos hc _).2]
      | false =>
          obtain ⟨b, more, hb, hbytes⟩ := hp.utf8_cons_of_neg hc text
          rw [hbytes, List.takeWhile_cons_of_neg (Bool.eq_false_iff.mp hb),
            List.takeWhile_cons_of_neg (Bool.eq_false_iff.mp hc), utf8_nil]

theorem any_head?_utf8 (hp : IsAscii p) (text : List Char) :
    (utf8 text).head?.any (onByte p) = text.head?.any p := by
  cases text with
  | nil => rfl
  | cons c text =>
      cases hc : p c with
      | true =>
          obtain ⟨hb, hbytes⟩ := hp.utf8_cons_of_pos hc text
          rw [hbytes, List.head?_cons, List.head?_cons, Option.any_some, Option.any_some, hb, hc]
      | false =>
          obtain ⟨b, more, hb, hbytes⟩ := hp.utf8_cons_of_neg hc text
          rw [hbytes, List.head?_cons, List.head?_cons, Option.any_some, Option.any_some, hb, hc]

theorem all_utf8 (hp : IsAscii p) (text : List Char) :
    (utf8 text).all (onByte p) = text.all p := by
  induction text with
  | nil => rfl
  | cons c text ih =>
      cases hc : p c with
      | true =>
          obtain ⟨hb, hbytes⟩ := hp.utf8_cons_of_pos hc text
          rw [hbytes, List.all_cons, List.all_cons, hb, hc, ih]
      | false =>
          obtain ⟨b, more, hb, hbytes⟩ := hp.utf8_cons_of_neg hc text
          rw [hbytes, List.all_cons, List.all_cons, hb, hc, Bool.false_and, Bool.false_and]

end IsAscii

/-! ## Where bytes can be cut -/

/-- Bytes can be cut at their end and in front of a byte that a character starts with. -/
def isBoundary (bytes : List UInt8) (position : Nat) : Bool :=
  match bytes[position]? with
  | some b => decide b.IsUTF8FirstByte
  | none => decide (position = bytes.length)

/-- The bytes from one position to another, if they can be cut there. -/
def slice? (bytes : List UInt8) (first last : Nat) : Option (List UInt8) :=
  if first ≤ last ∧ isBoundary bytes first = true ∧ isBoundary bytes last = true then
    some ((bytes.take last).drop first)
  else none

theorem isBoundary_append (left right : List UInt8) (position : Nat) :
    isBoundary (left ++ right) (left.length + position) = isBoundary right position := by
  unfold isBoundary
  rw [List.getElem?_append_right (Nat.le_add_right _ _), Nat.add_sub_cancel_left,
    List.length_append]
  cases right[position]? with
  | some b => rfl
  | none => exact decide_eq_decide.mpr Nat.add_left_cancel_iff

/-- Of the places within a character, bytes can be cut at the first only. -/
theorem isBoundary_utf8EncodeChar_append {c : Char} {position : Nat}
    (h : position < c.utf8Size) (behind : List UInt8) :
    isBoundary (String.utf8EncodeChar c ++ behind) position = true ↔ position = 0 := by
  have hlt : position < (String.utf8EncodeChar c).length := by
    rwa [String.length_utf8EncodeChar]
  unfold isBoundary
  rw [List.getElem?_append_left hlt, List.getElem?_eq_getElem hlt]
  exact decide_eq_true_iff.trans UInt8.isUTF8FirstByte_getElem_utf8EncodeChar

theorem isBoundary_byteLength (front back : List Char) :
    isBoundary (utf8 (front ++ back)) (byteLength front) = true := by
  have hback : isBoundary (utf8 back) 0 = true := by
    cases back with
    | nil => rfl
    | cons c back => exact (isBoundary_utf8EncodeChar_append c.utf8Size_pos _).mpr rfl
  rw [utf8_append, ← length_utf8]
  exact (isBoundary_append _ _ 0).trans hback

/-- The bytes of a text can be cut between its characters and nowhere else. -/
theorem isBoundary_utf8_iff {text : List Char} {position : Nat} :
    isBoundary (utf8 text) position = true ↔
      ∃ front back, front ++ back = text ∧ byteLength front = position := by
  constructor
  · intro h
    induction text generalizing position with
    | nil =>
        have hzero : position = 0 := decide_eq_true_iff.mp h
        exact ⟨[], [], rfl, hzero.symm⟩
    | cons c text ih =>
        by_cases hwithin : position < c.utf8Size
        · have hzero := (isBoundary_utf8EncodeChar_append hwithin _).mp h
          exact ⟨[], c :: text, rfl, hzero.symm⟩
        · obtain ⟨more, rfl⟩ := Nat.exists_eq_add_of_le (Nat.le_of_not_lt hwithin)
          rw [utf8_cons, ← String.length_utf8EncodeChar, isBoundary_append] at h
          obtain ⟨front, back, rfl, rfl⟩ := ih h
          exact ⟨c :: front, back, rfl, rfl⟩
  · rintro ⟨front, back, rfl, rfl⟩
    exact isBoundary_byteLength front back

theorem slice?_utf8 (front middle back : List Char) :
    slice? (utf8 (front ++ middle ++ back)) (byteLength front) (byteLength (front ++ middle)) =
      some (utf8 middle) := by
  have hfirst : isBoundary (utf8 (front ++ middle ++ back)) (byteLength front) = true := by
    rw [List.append_assoc]
    exact isBoundary_byteLength front _
  have hlast := isBoundary_byteLength (front ++ middle) back
  have hle : byteLength front ≤ byteLength (front ++ middle) := by simp
  rw [slice?, if_pos ⟨hle, hfirst, hlast⟩, utf8_append _ back, ← length_utf8 (front ++ middle),
    List.take_left, utf8_append, ← length_utf8 front, List.drop_left]

/-! ## Patterns on bytes -/

/-- Number of bytes of the class at the front, if there are any. -/
def countFront? (p : Char → Bool) (bytes : List UInt8) : Option Nat :=
  if bytes.head?.any (onByte p) then some (bytes.takeWhile (onByte p)).length else none

/-- Number of bytes that the pattern matches at the front. -/
def Pattern.matchLength? : Pattern → List UInt8 → Option Nat
  | literal wanted, bytes =>
      if utf8 wanted.toList <+: bytes then some (utf8 wanted.toList).length else none
  | word wanted, bytes =>
      if utf8 wanted.toList <+: bytes ∧
          ¬(bytes[(utf8 wanted.toList).length]?).any (onByte isNameChar) then
        some (utf8 wanted.toList).length
      else none
  | blanks, bytes => countFront? isBlank bytes
  | identifier, bytes =>
      if bytes.head?.any (onByte isNameStart) then
        some (1 + (bytes.tail.takeWhile (onByte isNameChar)).length)
      else none
  | integer, bytes =>
      if bytes.head?.any (onByte (· == '-')) then
        (countFront? Char.isDigit bytes.tail).map (1 + ·)
      else countFront? Char.isDigit bytes
  | endOfLine, bytes => if bytes.all (onByte isBlank) then some bytes.length else none

theorem IsAscii.countFront?_utf8 {p : Char → Bool} (hp : IsAscii p) (text : List Char) :
    countFront? p (utf8 text) =
      if text.head?.any p then some (byteLength (text.takeWhile p)) else none := by
  rw [countFront?, hp.any_head?_utf8, hp.takeWhile_utf8, length_utf8]

theorem after?_eq_none_iff {opening text : List Char} :
    after? opening text = none ↔ ¬opening <+: text := by
  rw [Option.eq_none_iff_forall_ne_some]
  constructor
  · rintro h ⟨rest, rfl⟩
    exact h rest (after?_eq_some_iff.mpr rfl)
  · intro h rest hafter
    exact h ⟨rest, (after?_eq_some_iff.mp hafter).symm⟩

namespace Pattern

/-- The pattern matches on bytes what it matches on characters. -/
def AgreesOn (pattern : Pattern) (text : List Char) : Prop :=
  pattern.matchLength? (utf8 text) = (pattern.split? text).map fun s => byteLength s.1

theorem agreesOn_literal (wanted : String) (text : List Char) : (literal wanted).AgreesOn text := by
  simp only [AgreesOn, matchLength?, split?, utf8_isPrefix_iff, length_utf8]
  cases hafter : after? wanted.toList text with
  | none => rw [if_neg (after?_eq_none_iff.mp hafter), Option.map_none, Option.map_none]
  | some rest =>
      rw [if_pos ⟨rest, (after?_eq_some_iff.mp hafter).symm⟩, Option.map_some, Option.map_some]

theorem agreesOn_word (wanted : String) (text : List Char) : (word wanted).AgreesOn text := by
  simp only [AgreesOn, matchLength?, split?, utf8_isPrefix_iff]
  cases hafter : after? wanted.toList text with
  | none =>
      rw [if_neg fun h => after?_eq_none_iff.mp hafter h.1, Option.bind_none, Option.map_none]
  | some rest =>
      obtain rfl := after?_eq_some_iff.mp hafter
      have hnext : (utf8 (wanted.toList ++ rest))[(utf8 wanted.toList).length]?.any
          (onByte isNameChar) = rest.head?.any isNameChar := by
        rw [utf8_append, List.getElem?_append_right (Nat.le_refl _), Nat.sub_self,
          ← List.head?_eq_getElem?, isAscii_isNameChar.any_head?_utf8]
      rw [hnext, Option.bind_some, length_utf8]
      cases rest.head?.any isNameChar with
      | true => simp
      | false => simp

theorem agreesOn_blanks (text : List Char) : blanks.AgreesOn text := by
  simp only [AgreesOn, matchLength?, split?, isAscii_isBlank.countFront?_utf8]
  cases text with
  | nil => rfl
  | cons c text =>
      cases hc : isBlank c with
      | true => simp [leadingBlanks, hc]
      | false => simp [leadingBlanks, hc]

theorem agreesOn_identifier (text : List Char) : identifier.AgreesOn text := by
  cases text with
  | nil => rfl
  | cons c text =>
      simp only [AgreesOn, matchLength?, split?, splitIdentifier?,
        isAscii_isNameStart.any_head?_utf8, List.head?_cons, Option.any_some]
      cases hc : isNameStart c with
      | true =>
          have hsize : c.utf8Size = 1 := utf8Size_of_lt (isAscii_isNameStart c hc)
          rw [(isAscii_isNameStart.utf8_cons_of_pos hc text).2, List.tail_cons,
            isAscii_isNameChar.takeWhile_utf8, length_utf8]
          simp [hsize]
      | false => rfl

theorem countFront?_isDigit_utf8 (text : List Char) :
    countFront? Char.isDigit (utf8 text) = (splitDigits? text).map fun s => byteLength s.1 := by
  rw [isAscii_isDigit.countFront?_utf8, splitDigits?]
  cases text with
  | nil => rfl
  | cons c text =>
      cases hc : c.isDigit with
      | true => simp [hc]
      | false => simp [hc]

theorem isAscii_isMinus : IsAscii (· == '-') := by
  intro c h
  rw [beq_iff_eq.mp h]
  decide

theorem agreesOn_integer (text : List Char) : integer.AgreesOn text := by
  simp only [AgreesOn, matchLength?, split?, isAscii_isMinus.any_head?_utf8]
  cases text with
  | nil => rfl
  | cons c text =>
      by_cases hc : c = '-'
      · subst hc
        have hbytes := (isAscii_isMinus.utf8_cons_of_pos (c := '-') rfl text).2
        rw [if_pos (by rfl), hbytes, List.tail_cons, countFront?_isDigit_utf8, splitInteger?,
          Option.map_map, Option.map_map]
        rfl
      · have hplain : ∀ behind, c :: text = '-' :: behind → False := by
          intro behind heq
          exact hc (List.cons.inj heq).1
        rw [if_neg (by simpa using hc), countFront?_isDigit_utf8, splitInteger?.eq_2 _ hplain]

theorem agreesOn_endOfLine (text : List Char) : endOfLine.AgreesOn text := by
  simp only [AgreesOn, matchLength?, split?, isAscii_isBlank.all_utf8, length_utf8]
  split <;> rfl

/-- Byte by byte a pattern matches the same as character by character. -/
theorem agreesOn (pattern : Pattern) (text : List Char) : pattern.AgreesOn text := by
  cases pattern with
  | literal wanted => exact agreesOn_literal wanted text
  | word wanted => exact agreesOn_word wanted text
  | blanks => exact agreesOn_blanks text
  | identifier => exact agreesOn_identifier text
  | integer => exact agreesOn_integer text
  | endOfLine => exact agreesOn_endOfLine text

end Pattern

end TapePuzzle
