import Mathlib.Algebra.BigOperators.Group.List.Basic
import Mathlib.Algebra.GroupWithZero.Nat
import Mathlib.Algebra.Order.BigOperators.Group.List
import Mathlib.Algebra.Order.Group.Nat
import Mathlib.Tactic.Common

/-!
# Threads and what they hold

Threads that share a state take their atomic steps one at a time, in any order. What the threads
hold together is the sum over them, and one thread's step moves the sum by what that thread gains
or loses (`tally_set`).
-/

namespace Pool

variable {τ : Type*}

/-- What the threads hold together. -/
def tally (f : τ → ℕ) (threads : List τ) : ℕ := (threads.map f).sum

variable {f g : τ → ℕ}

@[simp] theorem tally_nil : tally f [] = 0 := rfl

@[simp] theorem tally_cons (t : τ) (threads : List τ) :
    tally f (t :: threads) = f t + tally f threads := by
  rw [tally, List.map_cons, List.sum_cons, tally]

@[simp] theorem tally_concat (threads : List τ) (t : τ) :
    tally f (threads ++ [t]) = tally f threads + f t := by
  simp [tally]

theorem tally_set {t : τ} (t' : τ) : ∀ {threads : List τ} {i : ℕ}, threads[i]? = some t →
    tally f (threads.set i t') + f t = tally f threads + f t'
  | u :: threads, 0, h => by
    cases h
    simp only [List.set_cons_zero, tally_cons]
    omega
  | u :: threads, i + 1, h => by
    have ih := tally_set t' (show threads[i]? = some t from h)
    simp only [List.set_cons_succ, tally_cons]
    omega

theorem tally_le_tally (h : ∀ t, f t ≤ g t) (threads : List τ) :
    tally f threads ≤ tally g threads :=
  List.sum_le_sum fun t _ => h t

theorem le_tally {threads : List τ} {t : τ} (h : t ∈ threads) : f t ≤ tally f threads :=
  List.single_le_sum (fun _ _ => Nat.zero_le _) _ (List.mem_map_of_mem h)

theorem tally_add (threads : List τ) :
    tally (fun t => f t + g t) threads = tally f threads + tally g threads := by
  induction threads with
  | nil => rfl
  | cons t threads ih =>
    rw [tally_cons, tally_cons, tally_cons, ih]
    omega

theorem tally_eq_zero {threads : List τ} (h : ∀ t ∈ threads, f t = 0) : tally f threads = 0 := by
  induction threads with
  | nil => rfl
  | cons t threads ih =>
    rw [tally_cons, h t List.mem_cons_self, ih fun u hu => h u (List.mem_cons_of_mem t hu)]

end Pool
