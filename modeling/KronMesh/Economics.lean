import KronMesh.Lib.Word
import Mathlib.Algebra.BigOperators.Intervals
import Mathlib.Algebra.Order.BigOperators.Group.Finset
import Mathlib.Tactic.Ring
import Mathlib.Tactic.Linarith

/-!
# Monetary policy

The constants, the subsidy of a confirmed vertex and the 80/20 split of its pool, in minor units.

`emitted n` is the supply after `n` confirmed vertices as a closed form: the schedule's sum, cut at
the cap. The subsidy is exactly what takes it from `n` to `n + 1` (`subsidy_emitted`).
-/

namespace KronMesh

open Word

inductive EconomicError
  | overflow
  deriving DecidableEq, Repr

def unitsPerCoin : ℕ := 1000000

def hardCapCoins : ℕ := 24000000

def hardCap : ℕ := saturatingMul hardCapCoins unitsPerCoin

def fixedTransactionFee : ℕ := 1000

def initialTxSubsidy : ℕ := 100000

def txHalvingInterval : ℕ := 126144000

def dagMinerSharePercent : ℕ := 80

theorem hardCap_eq : hardCap = 24000000000000 := by decide

def dagMinerShareOf (totalTxPool : ℕ) : ℕ :=
  saturatingMul totalTxPool dagMinerSharePercent / 100

def dagRelayTotalOf (totalTxPool : ℕ) : ℕ := totalTxPool - dagMinerShareOf totalTxPool

def getCurrentTxSubsidy (globalTxCount currentSupply : ℕ) : ℕ :=
  let halvings := globalTxCount / txHalvingInterval
  if 64 ≤ halvings ∨ hardCap ≤ currentSupply then 0
  else
    let subsidy := initialTxSubsidy >>> halvings
    let room := hardCap - currentSupply
    if room < subsidy then room else subsidy

example : getCurrentTxSubsidy txHalvingInterval 0 = 50000 := by decide

def txsRemainingUntilHalving (dagTxCount : ℕ) : ℕ :=
  txHalvingInterval - dagTxCount % txHalvingInterval

theorem dagMinerShareOf_le (p : ℕ) : dagMinerShareOf p ≤ p := by
  unfold dagMinerShareOf saturatingMul dagMinerSharePercent
  have := Nat.min_le_left (p * 80) u64Max
  omega

/-- The miner's cut and the relays' rest make up the pool. -/
theorem dagMinerShareOf_add (p : ℕ) : dagMinerShareOf p + dagRelayTotalOf p = p := by
  have := dagMinerShareOf_le p
  unfold dagRelayTotalOf
  omega

theorem shiftRight_le (n k : ℕ) : n >>> k ≤ n := by
  rw [Nat.shiftRight_eq_div_pow]
  exact Nat.div_le_self _ _

theorem getCurrentTxSubsidy_le (n s : ℕ) : getCurrentTxSubsidy n s ≤ initialTxSubsidy := by
  have h := shiftRight_le initialTxSubsidy (n / txHalvingInterval)
  unfold getCurrentTxSubsidy
  simp only []
  split_ifs <;> omega

theorem add_getCurrentTxSubsidy_le {n s : ℕ} (h : s ≤ hardCap) :
    s + getCurrentTxSubsidy n s ≤ hardCap := by
  unfold getCurrentTxSubsidy
  simp only []
  split_ifs <;> omega

/-- So many confirmed vertices see the schedule to its end. -/
def scheduleEnd : ℕ := 64 * txHalvingInterval

theorem subsidy_of_scheduleEnd {n s : ℕ} (h : scheduleEnd ≤ n) : getCurrentTxSubsidy n s = 0 := by
  have h64 : 64 ≤ n / txHalvingInterval := (Nat.le_div_iff_mul_le (by decide)).2 h
  unfold getCurrentTxSubsidy
  simp only []
  rw [if_pos (.inl h64)]

/-! ## The emission schedule -/

/-- What the schedule grants the `i`th confirmed vertex, before the cap. -/
def scheduled (i : ℕ) : ℕ :=
  if i / txHalvingInterval < 64 then initialTxSubsidy >>> (i / txHalvingInterval) else 0

/-- The supply after `n` confirmed vertices. -/
def emitted (n : ℕ) : ℕ := min hardCap (∑ i ∈ Finset.range n, scheduled i)

@[simp] theorem emitted_zero : emitted 0 = 0 := by simp [emitted]

theorem emitted_le (n : ℕ) : emitted n ≤ hardCap := min_le_left _ _

/-- On the schedule, the subsidy of the next vertex is what the schedule grants it next. -/
theorem subsidy_emitted (n : ℕ) :
    emitted n + getCurrentTxSubsidy n (emitted n) = emitted (n + 1) := by
  unfold emitted
  rw [Finset.sum_range_succ]
  generalize ∑ i ∈ Finset.range n, scheduled i = S
  unfold getCurrentTxSubsidy scheduled
  simp only []
  generalize initialTxSubsidy >>> (n / txHalvingInterval) = d
  split_ifs <;> omega

/-- Within the first era every confirmed vertex is granted the initial subsidy. -/
theorem emitted_of_le {n : ℕ} (h : n ≤ txHalvingInterval) : emitted n = initialTxSubsidy * n := by
  have hs : ∑ i ∈ Finset.range n, scheduled i = initialTxSubsidy * n := by
    have hc : ∀ i ∈ Finset.range n, scheduled i = initialTxSubsidy := by
      intro i hi
      have hi : i < txHalvingInterval := (Finset.mem_range.1 hi).trans_le h
      rw [scheduled, Nat.div_eq_of_lt hi]
      rfl
    rw [Finset.sum_congr rfl hc, Finset.sum_const, Finset.card_range, Nat.nsmul_eq_mul, mul_comm]
  rw [emitted, hs]
  apply min_eq_right
  rw [hardCap_eq]
  unfold initialTxSubsidy
  unfold txHalvingInterval at h
  omega

theorem subsidy_first_era {n : ℕ} (h : n < txHalvingInterval) :
    getCurrentTxSubsidy n (emitted n) = initialTxSubsidy := by
  have h1 := subsidy_emitted n
  rw [emitted_of_le h.le, emitted_of_le (n := n + 1) h] at h1
  rw [emitted_of_le h.le]
  rw [Nat.mul_succ] at h1
  omega

end KronMesh
