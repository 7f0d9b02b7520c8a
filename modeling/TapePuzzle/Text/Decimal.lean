/-!
# Decimal integers

Reading and writing integers as an optional minus sign and decimal digits. Main statement: what is
written reads back.
-/

namespace TapePuzzle

/-- The integer spelled by decimal digits after an optional minus sign. -/
def readInteger : List Char → Int
  | '-' :: digits => -(Nat.ofDigitChars 10 digits 0 : Int)
  | digits => (Nat.ofDigitChars 10 digits 0 : Int)

/-- The shortest decimal spelling of an integer. -/
def writeInteger : Int → List Char
  | .ofNat n => Nat.toDigits 10 n
  | .negSucc n => '-' :: Nat.toDigits 10 (n + 1)

theorem toDigits_ten_ne_minus (n : Nat) (tail : List Char) : Nat.toDigits 10 n ≠ '-' :: tail := by
  intro h
  have hmem : '-' ∈ Nat.toDigits 10 n := by rw [h]; exact List.mem_cons_self
  exact absurd (Nat.isDigit_of_mem_toDigits (by decide) (by decide) hmem) (by decide)

/-- What is written reads back. -/
theorem readInteger_writeInteger (n : Int) : readInteger (writeInteger n) = n := by
  cases n with
  | ofNat n =>
      have hread : readInteger (Nat.toDigits 10 n) =
          (Nat.ofDigitChars 10 (Nat.toDigits 10 n) 0 : Int) := by
        unfold readInteger
        split
        · rename_i tail heq
          exact absurd heq (toDigits_ten_ne_minus n tail)
        · rfl
      rw [writeInteger, hread, Nat.ofDigitChars_toDigits (by decide) (by decide)]
      rfl
  | negSucc n =>
      rw [writeInteger, readInteger, Nat.ofDigitChars_toDigits (by decide) (by decide)]
      rfl

end TapePuzzle
