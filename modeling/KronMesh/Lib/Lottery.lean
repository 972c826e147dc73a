import Mathlib.Algebra.BigOperators.Group.List.Basic
import Mathlib.Data.List.Nodup
import Mathlib.Data.List.Range
import Mathlib.Tactic.Ring

/-!
# Lotteries

Every item of a list holds as many tickets as it weighs, and a ticket is followed down the list to
its holder. Of the tickets below the weight of the whole list, an item holds as many as it weighs
(`countP_holder_eq`), in whatever order the list is.
-/

namespace Lottery

variable {α : Type*} (w : α → ℕ)

/-- The holder of a ticket: what is before an item is taken off the ticket. -/
def holder : ℕ → List α → Option α
  | _, [] => none
  | ticket, a :: l => if ticket < w a then some a else holder (ticket - w a) l

/-- The tickets of all items. -/
def tickets (l : List α) : ℕ := (l.map w).sum

@[simp] theorem tickets_cons (a : α) (l : List α) : tickets w (a :: l) = w a + tickets w l := by
  rw [tickets, List.map_cons, List.sum_cons, tickets]

theorem tickets_perm {l l' : List α} (h : l.Perm l') : tickets w l = tickets w l' :=
  (h.map w).sum_eq

theorem isSome_holder : ∀ {l : List α} {ticket : ℕ}, ticket < tickets w l →
    (holder w ticket l).isSome
  | [], _, h => absurd h (Nat.not_lt_zero _)
  | a :: l, ticket, h => by
    rw [tickets_cons] at h
    rw [holder]
    split_ifs with ha
    · rfl
    · exact isSome_holder (by omega)

variable [DecidableEq α]

/-- The first item holds the tickets below its weight. -/
theorem countP_holder_first (a b : α) (l : List α) :
    (List.range (w b)).countP (fun t => holder w t (b :: l) = some a)
      = if b = a then w b else 0 := by
  have hcongr : ∀ t ∈ List.range (w b),
      (decide (holder w t (b :: l) = some a) = true ↔ decide (b = a) = true) := by
    intro t ht
    rw [holder, if_pos (List.mem_range.1 ht)]
    simp
  rw [List.countP_congr hcongr]
  split_ifs with h <;> simp [h]

/-- The rest of the list holds the rest of the tickets, moved down by the first item's weight. -/
theorem countP_holder_rest (a b : α) (l : List α) (n : ℕ) :
    ((List.range n).map (w b + ·)).countP (fun t => holder w t (b :: l) = some a)
      = (List.range n).countP fun t => holder w t l = some a := by
  rw [List.countP_map]
  refine List.countP_congr fun t _ => ?_
  have ht : ¬ w b + t < w b := by omega
  simp [holder, ht]

theorem countP_holder (a : α) (l : List α) :
    (List.range (tickets w l)).countP (fun t => holder w t l = some a) = l.count a * w a := by
  induction l with
  | nil => simp [tickets]
  | cons b l ih =>
    rw [tickets_cons, List.range_add, List.countP_append, countP_holder_first, countP_holder_rest,
      ih, List.count_cons]
    by_cases h : b = a
    · rw [if_pos h, if_pos (by simpa using h), h]
      ring
    · rw [if_neg h, if_neg (by simpa using h), Nat.zero_add, Nat.add_zero]

/-- An item that is in the list once holds as many tickets as it weighs. -/
theorem countP_holder_eq {a : α} {l : List α} (hl : l.Nodup) (ha : a ∈ l) :
    (List.range (tickets w l)).countP (fun t => holder w t l = some a) = w a := by
  rw [countP_holder, List.count_eq_one_of_mem hl ha, Nat.one_mul]

end Lottery
