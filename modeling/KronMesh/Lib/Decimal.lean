import KronMesh.Lib.Word
import Mathlib.Algebra.Order.Field.Rat
import Mathlib.Tactic.FieldSimp
import Mathlib.Tactic.Ring

/-!
# Decimal numbers

Numbers as decimal digits: read into a word that must not overflow, written with so many digits, and
the value of digits before and after a point.
-/

namespace Decimal

open Word

/-! ## Reading a word -/

/-- `char::to_digit(10)`. -/
def toDigit (c : Char) : Option ℕ := if c.isDigit then some (c.toNat - '0'.toNat) else none

/-- The digits that are left, after `n` was read. -/
def readDigits : ℕ → List Char → Option ℕ
  | n, [] => some n
  | n, c :: l => do
    let tens ← checkedMul n 10
    let digit ← toDigit c
    let n ← checkedAdd tens digit
    readDigits n l

/-- `str::parse::<u64>`: a plus may come first. -/
def parseU64 : List Char → Option ℕ
  | [] => none
  | ['+'] => none
  | '+' :: l => readDigits 0 l
  | l => readDigits 0 l

/-- The digits as a number, whatever its size. -/
abbrev number (l : List Char) : ℕ := Nat.ofDigitChars 10 l 0

/-- What is read only grows, so a word that overflows on the way overflows at the end. -/
theorem le_ofDigitChars (l : List Char) (n : ℕ) : n ≤ Nat.ofDigitChars 10 l n := by
  rw [Nat.ofDigitChars_eq_ofDigitChars_zero]
  exact Nat.le_add_right_of_le (Nat.le_mul_of_pos_left n (Nat.pow_pos (by decide)))

theorem readDigits_cons (n : ℕ) (c : Char) (l : List Char) :
    readDigits n (c :: l)
      = if c.isDigit ∧ 10 * n + (c.toNat - '0'.toNat) ≤ u64Max
        then readDigits (10 * n + (c.toNat - '0'.toNat)) l else none := by
  rw [readDigits, toDigit, Nat.mul_comm 10 n]
  generalize c.toNat - '0'.toNat = digit
  rcases Nat.lt_or_ge u64Max (n * 10) with htens | htens
  · have hno : ¬ (c.isDigit ∧ n * 10 + digit ≤ u64Max) := by omega
    rw [checkedMul_eq_none.2 htens, if_neg hno]
    rfl
  rw [checkedMul_of_le htens]
  by_cases hdigit : c.isDigit
  · rw [if_pos hdigit]
    rcases Nat.lt_or_ge u64Max (n * 10 + digit) with hsum | hsum
    · rw [if_neg (by omega)]
      exact congrArg (·.bind fun n => readDigits n l) (checkedAdd_eq_none.2 hsum)
    · rw [if_pos ⟨hdigit, hsum⟩]
      exact congrArg (·.bind fun n => readDigits n l) (checkedAdd_of_le hsum)
  · rw [if_neg hdigit, if_neg (fun h => hdigit h.1)]
    rfl

theorem readDigits_eq (l : List Char) (n : ℕ) (hn : n ≤ u64Max) :
    readDigits n l
      = if l.all Char.isDigit ∧ Nat.ofDigitChars 10 l n ≤ u64Max then some (Nat.ofDigitChars 10 l n)
        else none := by
  induction l generalizing n with
  | nil => simp [readDigits, hn]
  | cons c l ih =>
    have hgrow := le_ofDigitChars l (10 * n + (c.toNat - '0'.toNat))
    simp only [readDigits_cons, Nat.ofDigitChars_cons, List.all_cons, Bool.and_eq_true]
    split_ifs with h h' h'
    · rw [ih _ h.2, if_pos ⟨h'.1.2, h'.2⟩]
    · rw [ih _ h.2, if_neg fun hl => h' ⟨⟨h.1, hl.1⟩, hl.2⟩]
    · exact absurd ⟨h'.1.1, hgrow.trans h'.2⟩ h
    · rfl

/-- Without a plus in front, the whole text is read digit by digit. -/
theorem parseU64_of_ne_plus {c : Char} (hc : c ≠ '+') (l : List Char) :
    parseU64 (c :: l) = readDigits 0 (c :: l) := by
  unfold parseU64
  split
  · contradiction
  · simp_all
  · simp_all
  · rfl

/-- Digits are read as the number they show, unless it is too large. -/
theorem parseU64_of_digits {l : List Char} (hne : l ≠ []) (hl : l.all Char.isDigit) :
    parseU64 l = if number l ≤ u64Max then some (number l) else none := by
  obtain ⟨c, l, rfl⟩ := List.exists_cons_of_ne_nil hne
  have hc : c ≠ '+' := by
    rintro rfl
    exact absurd hl (by simp [Char.isDigit])
  rw [parseU64_of_ne_plus hc, readDigits_eq _ _ (Nat.zero_le _)]
  simp only [hl, true_and]

/-- What is read is digits, with or without a plus in front. -/
theorem parseU64_eq_some {l : List Char} {n : ℕ} :
    parseU64 l = some n ↔ ∃ digits, (l = digits ∨ l = '+' :: digits) ∧ digits ≠ []
      ∧ digits.all Char.isDigit ∧ number digits = n ∧ n ≤ u64Max := by
  have hread : ∀ {l : List Char}, readDigits 0 l = some n
      ↔ l.all Char.isDigit ∧ number l = n ∧ n ≤ u64Max := by
    intro l
    rw [readDigits_eq _ _ (Nat.zero_le _), Option.ite_none_right_eq_some, Option.some.injEq]
    constructor
    · rintro ⟨⟨hall, hle⟩, rfl⟩
      exact ⟨hall, rfl, hle⟩
    · rintro ⟨hall, rfl, hle⟩
      exact ⟨⟨hall, hle⟩, rfl⟩
  rcases l with _ | ⟨c, l⟩
  · simp [parseU64]
  by_cases hc : c = '+'
  · subst hc
    have hplus : ¬ ('+' :: l).all Char.isDigit := by simp [Char.isDigit]
    rcases l with _ | ⟨c, l⟩
    · simp [parseU64, Char.isDigit]
    · rw [show parseU64 ('+' :: c :: l) = readDigits 0 (c :: l) from rfl, hread]
      constructor
      · exact fun h => ⟨c :: l, .inr rfl, List.cons_ne_nil _ _, h⟩
      · rintro ⟨digits, rfl | h, -, hall, hn⟩
        · exact absurd hall hplus
        · cases h
          exact ⟨hall, hn⟩
  · rw [parseU64_of_ne_plus hc, hread]
    constructor
    · exact fun h => ⟨c :: l, .inl rfl, List.cons_ne_nil _ _, h⟩
    · rintro ⟨digits, rfl | h, -, hall, hn⟩
      · exact ⟨hall, hn⟩
      · cases h
        exact absurd rfl hc

@[simp] theorem number_nil : number [] = 0 := Nat.ofDigitChars_nil

theorem number_cons (c : Char) (l : List Char) :
    number (c :: l) = 10 ^ l.length * (c.toNat - '0'.toNat) + number l := by
  rw [number, Nat.ofDigitChars_cons, Nat.ofDigitChars_eq_ofDigitChars_zero, Nat.mul_zero,
    Nat.zero_add]

theorem digit_le {c : Char} (h : c.isDigit) : c.toNat - '0'.toNat ≤ 9 := by
  simp only [Char.isDigit, Bool.and_eq_true, decide_eq_true_eq] at h
  have hle : c.toNat ≤ 57 := UInt32.le_iff_toNat_le.1 h.2
  have h0 : '0'.toNat = 48 := rfl
  omega

theorem number_lt {l : List Char} (h : l.all Char.isDigit) : number l < 10 ^ l.length := by
  induction l with
  | nil => decide
  | cons c l ih =>
    rw [List.all_cons, Bool.and_eq_true] at h
    have hl := ih h.2
    have hc := Nat.mul_le_mul_left (10 ^ l.length) (digit_le h.1)
    rw [number_cons, List.length_cons, Nat.pow_succ]
    omega

/-! ## Digits around a point -/

/-- The value of the digits before and after the point. -/
def value (whole frac : List Char) : ℚ := number whole + number frac / 10 ^ frac.length

/-- The digits after the point, so many of them. -/
def padRight (k : ℕ) (frac : List Char) : List Char :=
  frac ++ List.replicate (k - frac.length) '0'

theorem length_padRight {k : ℕ} {frac : List Char} (h : frac.length ≤ k) :
    (padRight k frac).length = k := by
  rw [padRight, List.length_append, List.length_replicate]
  omega

theorem number_padRight (k : ℕ) (frac : List Char) :
    number (padRight k frac) = number frac * 10 ^ (k - frac.length) := by
  rw [number, padRight, Nat.ofDigitChars_append, Nat.ofDigitChars_replicate_zero, Nat.mul_comm]

/-- Counted in units of the last of `k` places, the value is a whole number. -/
theorem value_mul_pow {k : ℕ} {whole frac : List Char} (h : frac.length ≤ k) :
    value whole frac * 10 ^ k = (number whole * 10 ^ k + number (padRight k frac) : ℕ) := by
  rw [number_padRight, value]
  push_cast
  obtain ⟨j, rfl⟩ := Nat.exists_eq_add_of_le h
  rw [Nat.add_sub_cancel_left]
  field_simp
  ring

/-! ## Writing a number -/

/-- `{:0k}`: the digits, and zeros before them up to so many. -/
def padLeft (k n : ℕ) : List Char :=
  List.replicate (k - (Nat.toDigits 10 n).length) '0' ++ Nat.toDigits 10 n

theorem number_toDigits (n : ℕ) : number (Nat.toDigits 10 n) = n := Nat.ofDigitChars_ten_toDigits

theorem number_padLeft (k n : ℕ) : number (padLeft k n) = n := by
  rw [number, padLeft, Nat.ofDigitChars_append, Nat.ofDigitChars_replicate_zero, Nat.mul_zero]
  exact number_toDigits n

theorem length_padLeft {k n : ℕ} (hk : 0 < k) (hn : n < 10 ^ k) : (padLeft k n).length = k := by
  have hlen := (Nat.length_toDigits_le_iff (by decide) hk).2 hn
  rw [padLeft, List.length_append, List.length_replicate]
  omega

theorem all_isDigit_toDigits (n : ℕ) : (Nat.toDigits 10 n).all Char.isDigit :=
  List.all_eq_true.2 fun _ h => Nat.isDigit_of_mem_toDigits (by decide) (by decide) h

theorem all_isDigit_padLeft (k n : ℕ) : (padLeft k n).all Char.isDigit := by
  rw [padLeft, List.all_append, all_isDigit_toDigits, Bool.and_true, List.all_replicate]
  split <;> rfl

end Decimal
