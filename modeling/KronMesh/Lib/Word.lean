import Mathlib.Order.Lattice
import Mathlib.Tactic.Common

/-!
# Checked and saturating `u64` arithmetic

Sums of unsigned 64-bit words on naturals. A checked operation has no result past the word's
range; a saturating one stops at its end.
-/

namespace Word

/-- `u64::MAX`. -/
def u64Max : ℕ := 18446744073709551615

def checkedAdd (a b : ℕ) : Option ℕ := if a + b ≤ u64Max then some (a + b) else none

def checkedSub (a b : ℕ) : Option ℕ := if b ≤ a then some (a - b) else none

def checkedMul (a b : ℕ) : Option ℕ := if a * b ≤ u64Max then some (a * b) else none

def saturatingAdd (a b : ℕ) : ℕ := min (a + b) u64Max

def saturatingMul (a b : ℕ) : ℕ := min (a * b) u64Max

theorem checkedAdd_eq_some {a b c : ℕ} : checkedAdd a b = some c ↔ a + b ≤ u64Max ∧ c = a + b := by
  unfold checkedAdd
  split_ifs with h <;> simp [h, eq_comm]

theorem checkedAdd_eq_none {a b : ℕ} : checkedAdd a b = none ↔ u64Max < a + b := by
  unfold checkedAdd
  split_ifs with h
  · simpa using h
  · simpa using h

theorem checkedAdd_of_le {a b : ℕ} (h : a + b ≤ u64Max) : checkedAdd a b = some (a + b) :=
  if_pos h

theorem checkedMul_of_le {a b : ℕ} (h : a * b ≤ u64Max) : checkedMul a b = some (a * b) :=
  if_pos h

theorem checkedMul_eq_none {a b : ℕ} : checkedMul a b = none ↔ u64Max < a * b := by
  unfold checkedMul
  split_ifs with h
  · simpa using h
  · simpa using h

theorem checkedSub_of_le {a b : ℕ} (h : b ≤ a) : checkedSub a b = some (a - b) :=
  if_pos h

theorem saturatingAdd_of_le {a b : ℕ} (h : a + b ≤ u64Max) : saturatingAdd a b = a + b :=
  min_eq_left h

theorem toNat_ofNat_of_le {n : ℕ} (h : n ≤ u64Max) : (UInt64.ofNat n).toNat = n :=
  UInt64.toNat_ofNat_of_lt' (Nat.lt_of_le_of_lt h (by decide))

end Word
