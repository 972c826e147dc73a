import Mathlib.Data.List.Perm.Basic
import Mathlib.Order.Lattice
import Mathlib.Tactic.Common

/-!
# The nearest few

The `k` nearest of a list under a key that tells its members apart, in increasing order
(`Nearest`). Sorting and cutting gives them, also when the sorted list is first filtered.
-/

variable {α β : Type*} [LinearOrder β] {key : α → β} {k : ℕ} {S xs : List α}

/-- These are `k` of the list, or all when there are fewer, in increasing order, and no other one is
nearer. -/
structure Nearest (key : α → β) (k : ℕ) (S xs : List α) : Prop where
  subset : ∀ x ∈ xs, x ∈ S
  length_eq : xs.length = min k S.length
  increasing : xs.Pairwise fun x y => key x < key y
  nearest : ∀ x ∈ S, x ∉ xs → ∀ y ∈ xs, key y < key x

namespace Nearest

theorem of_perm (hperm : xs.Perm S) (hinc : xs.Pairwise fun x y => key x < key y) :
    Nearest key k S (xs.take k) where
  subset x hx := hperm.mem_iff.1 (List.mem_of_mem_take hx)
  length_eq := by rw [List.length_take, hperm.length_eq]
  increasing := hinc.sublist (List.take_sublist k xs)
  nearest x hx hnot y hy := by
    rw [← hperm.mem_iff, ← List.take_append_drop k xs, List.mem_append] at hx
    rw [← List.take_append_drop k xs, List.pairwise_append] at hinc
    exact hinc.2.2 y hy x (hx.resolve_left hnot)

end Nearest

/-- `slice::sort_by_key`, which is stable. -/
def sortByKey (key : α → β) (xs : List α) : List α := xs.mergeSort fun x y => key x ≤ key y

theorem sortByKey_perm (key : α → β) (xs : List α) : (sortByKey key xs).Perm xs :=
  List.mergeSort_perm xs _

theorem sortByKey_increasing (h : (xs.map key).Nodup) :
    (sortByKey key xs).Pairwise fun x y => key x < key y := by
  have hle : (sortByKey key xs).Pairwise fun x y => key x ≤ key y := by
    refine (List.pairwise_mergeSort ?_ ?_ xs).imp fun h => of_decide_eq_true h
    · intro x y z hxy hyz
      exact decide_eq_true (le_trans (of_decide_eq_true hxy) (of_decide_eq_true hyz))
    · intro x y
      rw [Bool.or_eq_true, decide_eq_true_eq, decide_eq_true_eq]
      exact le_total _ _
  have hne : (sortByKey key xs).Pairwise fun x y => key x ≠ key y :=
    List.pairwise_map.1 (((sortByKey_perm key xs).map key).nodup_iff.2 h)
  exact (hle.and hne).imp fun h => lt_of_le_of_ne h.1 h.2

/-- A list that is in order stays as it is. -/
theorem sortByKey_of_pairwise (h : xs.Pairwise fun x y => key x ≤ key y) : sortByKey key xs = xs :=
  List.mergeSort_of_pairwise (h.imp fun h => decide_eq_true h)
