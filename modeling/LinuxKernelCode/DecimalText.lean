import Mathlib.Data.Int.Basic
import Mathlib.Data.List.Basic
import Mathlib.Tactic.NormNum

/-!
# Decimal text

Printing a signed number in decimal, reading it back, and the bounded print
into a buffer.  A buffer is a list of characters, and text in it ends at the
first zero character.
-/

namespace LinuxKernelCode.DecimalText

/-- The character that ends a text. -/
def nul : Char := Char.ofNat 0

def newline : Char := Char.ofNat 10

/-- The decimal digits of a number, with a sign if it is negative. -/
def decimal : ℤ → List Char
  | .ofNat magnitude => Nat.toDigits 10 magnitude
  | .negSucc magnitude => '-' :: Nat.toDigits 10 (magnitude + 1)

/-- The number written in the leading digits, modulo the word size. -/
def simpleStrtoull (cp : List Char) : BitVec 64 :=
  BitVec.ofNat 64 (Nat.ofDigitChars 10 (cp.takeWhile Char.isDigit) 0)

def simpleStrtol : List Char → BitVec 64
  | '-' :: rest => - simpleStrtoull rest
  | cp => simpleStrtoull cp

/-- Print into a buffer of the given size, which cuts the text but not the
closing zero.  The answer is the length of the whole text. -/
def snprintf (buffer : List Char) (size : ℕ) (text : List Char) :
    List Char × ℕ :=
  let printed := text.take (size - 1) ++ [nul]
  (printed ++ buffer.drop printed.length, text.length)

/-! ## Reading back -/

theorem takeWhile_toDigits (magnitude : ℕ) (rest : List Char) :
    (Nat.toDigits 10 magnitude ++ nul :: rest).takeWhile Char.isDigit =
      Nat.toDigits 10 magnitude := by
  rw [List.takeWhile_append_of_pos]
  · simp [nul]
  · intro digit hdigit
    exact Nat.isDigit_of_mem_toDigits (by decide) (by decide) hdigit

theorem simpleStrtoull_toDigits (magnitude : ℕ) (rest : List Char) :
    simpleStrtoull (Nat.toDigits 10 magnitude ++ nul :: rest) =
      BitVec.ofNat 64 magnitude := by
  rw [simpleStrtoull, takeWhile_toDigits, Nat.ofDigitChars_ten_toDigits]

theorem simpleStrtol_of_toDigits (magnitude : ℕ) (rest : List Char) :
    simpleStrtol (Nat.toDigits 10 magnitude ++ rest) =
      simpleStrtoull (Nat.toDigits 10 magnitude ++ rest) := by
  cases hdigits : Nat.toDigits 10 magnitude with
  | nil => exact absurd hdigits Nat.toDigits_ne_nil
  | cons digit others =>
      have hdigit : digit.isDigit := by
        apply Nat.isDigit_of_mem_toDigits (b := 10) (n := magnitude)
          (by decide) (by decide)
        simp [hdigits]
      unfold simpleStrtol
      split
      next heq =>
        simp only [List.cons_append, List.cons.injEq] at heq
        rw [heq.1] at hdigit
        exact absurd hdigit (by decide)
      next => rfl

/-- Parsing inverts printing for every word, the most negative one included. -/
theorem simpleStrtol_decimal (word : BitVec 64) (rest : List Char) :
    simpleStrtol (decimal word.toInt ++ nul :: rest) = word := by
  have hword : BitVec.ofInt 64 word.toInt = word := BitVec.ofInt_toInt
  cases hvalue : word.toInt with
  | ofNat magnitude =>
      rw [hvalue] at hword
      rw [decimal, simpleStrtol_of_toDigits, simpleStrtoull_toDigits]
      simpa using hword
  | negSucc magnitude =>
      rw [hvalue, Int.negSucc_eq, BitVec.ofInt_neg] at hword
      rw [decimal, List.cons_append, simpleStrtol, simpleStrtoull_toDigits]
      rw [← hword]
      congr 1

/-! ## Lengths -/

theorem length_decimal_le_iff {value : ℤ} {bound : ℕ} (hbound : 1 < bound) :
    (decimal value).length ≤ bound ↔
      -(10 ^ (bound - 1) : ℤ) < value ∧ value < 10 ^ bound := by
  have hpow : (10 : ℤ) ^ bound = ((10 ^ bound : ℕ) : ℤ) := by push_cast; rfl
  have hpowPred : (10 : ℤ) ^ (bound - 1) = ((10 ^ (bound - 1) : ℕ) : ℤ) := by
    push_cast
    rfl
  have hpos : 0 < 10 ^ (bound - 1) := by positivity
  have hpos' : 0 < 10 ^ bound := by positivity
  rw [hpow, hpowPred]
  cases value with
  | ofNat magnitude =>
      rw [decimal, Nat.length_toDigits_le_iff (by decide) (by omega)]
      simp only [Int.ofNat_eq_natCast]
      omega
  | negSucc magnitude =>
      rw [decimal, List.length_cons]
      have hdigits := Nat.length_toDigits_le_iff (b := 10) (n := magnitude + 1)
        (k := bound - 1) (by decide) (by omega)
      rw [Int.negSucc_eq]
      constructor
      · intro hlength
        have := hdigits.mp (by omega)
        omega
      · intro hvalue
        have := hdigits.mpr (by omega)
        omega

theorem length_decimal_word (word : BitVec 64) :
    (decimal word.toInt).length ≤ 20 := by
  rw [length_decimal_le_iff (by decide)]
  have hlower := BitVec.le_toInt word
  have hupper := BitVec.toInt_lt (x := word)
  norm_num at hlower hupper ⊢
  omega

theorem nul_notMem_decimal (value : ℤ) : nul ∉ decimal value := by
  have hdigits : ∀ magnitude, nul ∉ Nat.toDigits 10 magnitude := by
    intro magnitude hmem
    have := Nat.isDigit_of_mem_toDigits (by decide) (by decide) hmem
    simp [nul] at this
  cases value with
  | ofNat magnitude => exact hdigits magnitude
  | negSucc magnitude =>
      rw [decimal, List.mem_cons, not_or]
      exact ⟨by decide, hdigits _⟩

end LinuxKernelCode.DecimalText
