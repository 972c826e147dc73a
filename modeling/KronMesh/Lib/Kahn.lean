import Mathlib.Data.Finset.Max
import Mathlib.Data.Fintype.EquivFin
import Mathlib.Data.Fintype.Sets
import Mathlib.Data.List.Nodup
import Mathlib.Logic.Relation
import Mathlib.Tactic.Common

/-!
# Sorting by what is waited for

Items are taken one by one when they wait for none of those left. The queue holds exactly those
(`Ready`): taking its first keeps that when the items that waited for it wait for one fewer and
those that now wait for none are queued (`Ready.pop`), and the queue does not run dry before the
items do where no item waits in a circle (`Ready.queue_ne_nil`, `Ready.exists_cycle`).
-/

namespace Kahn

variable {α : Type*} [DecidableEq α]

/-- How many of those left `x` waits for. -/
def pending (parents : α → List α) (left : List α) (x : α) : ℕ :=
  (parents x).countP fun p => left.contains p

/-- The queue holds those left that wait for none of those left. -/
structure Ready (parents : α → List α) (left queue : List α) (indeg : α → ℕ) : Prop where
  nodup : left.Nodup
  queue_nodup : queue.Nodup
  indeg_eq : ∀ x ∈ left, indeg x = pending parents left x
  mem_queue : ∀ x, x ∈ queue ↔ x ∈ left ∧ indeg x = 0
  taken : ∀ x, x ∉ left → ∀ p ∈ parents x, p ∉ left

variable {parents : α → List α} {left queue : List α} {indeg : α → ℕ} {x : α}

theorem pending_eq_zero : pending parents left x = 0 ↔ ∀ p ∈ parents x, p ∉ left := by
  unfold pending
  simp only [List.countP_eq_zero, List.contains_iff_mem]

/-- One that is taken is waited for no longer. -/
theorem pending_erase (hleft : left.Nodup) (hx : x ∈ left) {y : α} (hy : (parents y).Nodup) :
    pending parents (left.erase x) y
      = if x ∈ parents y then pending parents left y - 1 else pending parents left y := by
  have hmem : ∀ p, (left.erase x).contains p = (left.contains p && !(p == x)) := by
    intro p
    rw [Bool.eq_iff_iff]
    simp [hleft.mem_erase_iff, and_comm]
  have hother : ∀ l : List α, x ∉ l → (l.countP fun p => left.contains p && !(p == x))
      = l.countP fun p => left.contains p := by
    intro l hl
    refine List.countP_congr fun p hp => ?_
    have hne : p ≠ x := fun h => hl (h ▸ hp)
    simp [hne]
  unfold pending
  simp only [hmem]
  split_ifs with hpar
  · obtain ⟨l₁, l₂, hl⟩ := List.append_of_mem hpar
    rw [hl] at hy ⊢
    have hy' := (List.nodup_middle.1 hy)
    obtain ⟨hnot, -⟩ := List.nodup_cons.1 hy'
    rw [List.mem_append, not_or] at hnot
    rw [List.countP_append, List.countP_append, List.countP_cons, List.countP_cons,
      hother _ hnot.1, hother _ hnot.2]
    simp only [beq_self_eq_true, Bool.not_true, Bool.and_false, Bool.false_eq_true, if_false,
      List.contains_iff_mem, hx, if_true]
    omega
  · exact hother _ hpar

/-- Taking the first of the queue. -/
theorem Ready.pop {newly : List α} {indeg' : α → ℕ}
    (h : Ready parents left (x :: queue) indeg) (hnd : ∀ y ∈ left, (parents y).Nodup)
    (hindeg : ∀ y, indeg' y = if x ∈ parents y then indeg y - 1 else indeg y)
    (hnewly : newly.Nodup) (hmem : ∀ y, y ∈ newly ↔ x ∈ parents y ∧ indeg' y = 0) :
    Ready parents (left.erase x) (queue ++ newly) indeg' := by
  obtain ⟨hx, hx0⟩ := (h.mem_queue x).1 List.mem_cons_self
  obtain ⟨hxq, hq⟩ := List.nodup_cons.1 h.queue_nodup
  have hfree : ∀ p ∈ parents x, p ∉ left := by
    rw [← pending_eq_zero, ← h.indeg_eq x hx]
    exact hx0
  -- who waits for `x` is left, and neither queued nor `x`
  have hleft : ∀ y, x ∈ parents y → y ∈ left := fun y hxy => by
    by_contra hy
    exact h.taken y hy x hxy hx
  have hwaits : ∀ y, x ∈ parents y → indeg y ≠ 0 := by
    intro y hxy h0
    rw [h.indeg_eq y (hleft y hxy), pending_eq_zero] at h0
    exact h0 x hxy hx
  have hself : ∀ y, x ∈ parents y → y ≠ x := by
    rintro y hxy rfl
    exact hwaits y hxy hx0
  refine ⟨h.nodup.erase x, ?_, fun y hy => ?_, fun y => ?_, fun y hy p hp hpl => ?_⟩
  · refine List.nodup_append.2 ⟨hq, hnewly, ?_⟩
    rintro y hyq z hyn rfl
    exact hwaits y ((hmem y).1 hyn).1 ((h.mem_queue y).1 (List.mem_cons_of_mem _ hyq)).2
  · obtain ⟨-, hyl⟩ := h.nodup.mem_erase_iff.1 hy
    rw [hindeg, pending_erase h.nodup hx (hnd y hyl), h.indeg_eq y hyl]
  · rw [List.mem_append, hmem, h.nodup.mem_erase_iff]
    constructor
    · rintro (hyq | ⟨hxy, h0⟩)
      · obtain ⟨hyl, h0⟩ := (h.mem_queue y).1 (List.mem_cons_of_mem _ hyq)
        have hne : y ≠ x := fun he => hxq (he ▸ hyq)
        have hno : x ∉ parents y := fun hxy => hwaits y hxy h0
        exact ⟨⟨hne, hyl⟩, by rw [hindeg, if_neg hno, h0]⟩
      · exact ⟨⟨hself y hxy, hleft y hxy⟩, h0⟩
    · rintro ⟨⟨hne, hyl⟩, h0⟩
      by_cases hxy : x ∈ parents y
      · exact .inr ⟨hxy, h0⟩
      · refine .inl (List.mem_of_ne_of_mem hne ((h.mem_queue y).2 ⟨hyl, ?_⟩))
        rwa [hindeg, if_neg hxy] at h0
  · have hpl' := List.mem_of_mem_erase hpl
    by_cases hyx : y = x
    · exact hfree p (hyx ▸ hp) hpl'
    · exact h.taken y (fun hyl => hy (h.nodup.mem_erase_iff.2 ⟨hyx, hyl⟩)) p hp hpl'

/-- Of items that do not wait in a circle some can be taken. -/
theorem Ready.queue_ne_nil (h : Ready parents left queue indeg) {rank : α → ℕ}
    (hrank : ∀ y ∈ left, ∀ p ∈ parents y, p ∈ left → rank p < rank y) (hne : left ≠ []) :
    queue ≠ [] := by
  obtain ⟨x, hx, hmin⟩ := Finset.exists_min_image left.toFinset rank
    (List.toFinset_nonempty_iff left |>.2 hne)
  rw [List.mem_toFinset] at hx
  refine List.ne_nil_of_mem ((h.mem_queue x).2 ⟨hx, ?_⟩)
  rw [h.indeg_eq x hx, pending_eq_zero]
  intro p hp hpl
  exact absurd (hrank x hx p hp hpl) (Nat.not_lt.2 (hmin p (List.mem_toFinset.2 hpl)))

/-- Where the queue has run dry before the items, some of them wait in a circle. -/
theorem Ready.exists_cycle (h : Ready parents left [] indeg) (hne : left ≠ []) :
    ∃ x, Relation.TransGen (fun p x => p ∈ parents x ∧ p ∈ left ∧ x ∈ left) x x := by
  by_contra! hno
  set waits : {x // x ∈ left} → {x // x ∈ left} → Prop := fun p x =>
    Relation.TransGen (fun p x => p ∈ parents x ∧ p ∈ left ∧ x ∈ left) p.1 x.1 with hwaits
  have : IsTrans _ waits := ⟨fun _ _ _ hpx hxy => hpx.trans hxy⟩
  have : Std.Irrefl waits := ⟨fun x => hno x.1⟩
  obtain ⟨x₀, hx₀⟩ := List.exists_mem_of_ne_nil _ hne
  have hwf : WellFounded waits := Finite.wellFounded_of_trans_of_irrefl waits
  obtain ⟨⟨x, hx⟩, -, hmin⟩ := hwf.has_min Set.univ ⟨⟨x₀, hx₀⟩, trivial⟩
  -- the least of them waits for none that is left, so it is queued
  have hx0 : indeg x = 0 := by
    rw [h.indeg_eq x hx, pending_eq_zero]
    intro p hp hpl
    exact hmin ⟨p, hpl⟩ trivial (Relation.TransGen.single ⟨hp, hpl, hx⟩)
  exact List.not_mem_nil ((h.mem_queue x).2 ⟨hx, hx0⟩)

end Kahn
