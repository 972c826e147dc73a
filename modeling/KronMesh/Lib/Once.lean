import Mathlib.Data.Finset.Insert
import Mathlib.Data.List.Nodup
import Mathlib.Tactic.Common

/-!
# Each key once

Items come one after the other, some with a key. The first item with a key is taken, later ones
with that key are not, and none at all whose key was known from the start. What is taken stays the
same when more items come (`firsts_append`), and an item is taken exactly when no item before it has
its key (`mem_firsts_iff`).
-/

namespace Once

variable {α κ : Type*} [DecidableEq κ] (key : α → Option κ)

/-- The keys known after the items. -/
def known (seen : Finset κ) : List α → Finset κ
  | [] => seen
  | x :: l =>
    match key x with
    | some k => known (insert k seen) l
    | none => known seen l

/-- The items taken. -/
def firsts (seen : Finset κ) : List α → List α
  | [] => []
  | x :: l =>
    match key x with
    | some k => if k ∈ seen then firsts seen l else x :: firsts (insert k seen) l
    | none => firsts seen l

variable {key} {seen : Finset κ} {x : α} {k : κ}

theorem known_cons_some (h : key x = some k) (l : List α) :
    known key seen (x :: l) = known key (insert k seen) l := by
  simp only [known, h]

theorem known_cons_none (h : key x = none) (l : List α) :
    known key seen (x :: l) = known key seen l := by
  simp only [known, h]

theorem firsts_cons_none (h : key x = none) (l : List α) :
    firsts key seen (x :: l) = firsts key seen l := by
  simp only [firsts, h]

theorem firsts_cons_known (h : key x = some k) (hk : k ∈ seen) (l : List α) :
    firsts key seen (x :: l) = firsts key seen l := by
  simp only [firsts, h, if_pos hk]

theorem firsts_cons_new (h : key x = some k) (hk : k ∉ seen) (l : List α) :
    firsts key seen (x :: l) = x :: firsts key (insert k seen) l := by
  simp only [firsts, h, if_neg hk]

theorem known_append (seen : Finset κ) (l l' : List α) :
    known key seen (l ++ l') = known key (known key seen l) l' := by
  induction l generalizing seen with
  | nil => rfl
  | cons x l ih =>
    rw [List.cons_append]
    rcases h : key x with _ | k
    · rw [known_cons_none h, known_cons_none h, ih]
    · rw [known_cons_some h, known_cons_some h, ih]

theorem firsts_append (seen : Finset κ) (l l' : List α) :
    firsts key seen (l ++ l') = firsts key seen l ++ firsts key (known key seen l) l' := by
  induction l generalizing seen with
  | nil => rfl
  | cons x l ih =>
    rw [List.cons_append]
    rcases h : key x with _ | k
    · rw [firsts_cons_none h, firsts_cons_none h, known_cons_none h, ih]
    · rw [known_cons_some h]
      by_cases hk : k ∈ seen
      · rw [firsts_cons_known h hk, firsts_cons_known h hk, Finset.insert_eq_of_mem hk, ih]
      · rw [firsts_cons_new h hk, firsts_cons_new h hk, ih, List.cons_append]

theorem mem_known {l : List α} : k ∈ known key seen l ↔ k ∈ seen ∨ ∃ x ∈ l, key x = some k := by
  induction l generalizing seen with
  | nil => simp [known]
  | cons x l ih =>
    rcases h : key x with _ | k'
    · simp [known_cons_none h, ih, h]
    · simp only [known_cons_some h, ih, Finset.mem_insert, List.exists_mem_cons_iff, h,
        Option.some.injEq, eq_comm (a := k')]
      tauto

/-- One more item, when its key is new. -/
theorem firsts_concat_new {l : List α} (h : key x = some k) (hk : k ∉ known key seen l) :
    firsts key seen (l ++ [x]) = firsts key seen l ++ [x] := by
  rw [firsts_append, firsts_cons_new h hk]
  rfl

theorem firsts_concat_known {l : List α} (h : key x = some k) (hk : k ∈ known key seen l) :
    firsts key seen (l ++ [x]) = firsts key seen l := by
  rw [firsts_append, firsts_cons_known h hk]
  exact List.append_nil _

theorem firsts_concat_none {l : List α} (h : key x = none) :
    firsts key seen (l ++ [x]) = firsts key seen l := by
  rw [firsts_append, firsts_cons_none h]
  exact List.append_nil _

theorem known_concat_some {l : List α} (h : key x = some k) :
    known key seen (l ++ [x]) = insert k (known key seen l) := by
  rw [known_append, known_cons_some h]
  rfl

theorem known_concat_none {l : List α} (h : key x = none) :
    known key seen (l ++ [x]) = known key seen l := by
  rw [known_append, known_cons_none h]
  rfl

/-- An item is taken when it has a new key that no item before it has. -/
theorem mem_firsts_iff {l : List α} : x ∈ firsts key seen l ↔
    ∃ k l₁ l₂, key x = some k ∧ l = l₁ ++ x :: l₂ ∧ k ∉ known key seen l₁ := by
  constructor
  · intro hx
    induction l generalizing seen with
    | nil => exact absurd hx List.not_mem_nil
    | cons y l ih =>
      rcases h : key y with _ | k'
      · rw [firsts_cons_none h] at hx
        obtain ⟨k, l₁, l₂, hk, rfl, hnew⟩ := ih hx
        exact ⟨k, y :: l₁, l₂, hk, rfl, by rwa [known_cons_none h]⟩
      · by_cases hy : k' ∈ seen
        · rw [firsts_cons_known h hy] at hx
          obtain ⟨k, l₁, l₂, hk, rfl, hnew⟩ := ih hx
          exact ⟨k, y :: l₁, l₂, hk, rfl, by rwa [known_cons_some h, Finset.insert_eq_of_mem hy]⟩
        · rw [firsts_cons_new h hy] at hx
          rcases List.mem_cons.1 hx with rfl | hx
          · exact ⟨k', [], l, h, rfl, hy⟩
          · obtain ⟨k, l₁, l₂, hk, rfl, hnew⟩ := ih hx
            exact ⟨k, y :: l₁, l₂, hk, rfl, by rwa [known_cons_some h]⟩
  · rintro ⟨k, l₁, l₂, hk, rfl, hnew⟩
    rw [firsts_append, firsts_cons_new hk hnew]
    exact List.mem_append_right _ List.mem_cons_self

/-- What is taken came with a key that was not known. -/
theorem key_of_mem_firsts {l : List α} (h : x ∈ firsts key seen l) :
    ∃ k, key x = some k ∧ k ∉ seen := by
  obtain ⟨k, l₁, -, hk, -, hnew⟩ := mem_firsts_iff.1 h
  exact ⟨k, hk, fun hseen => hnew (mem_known.2 (.inl hseen))⟩

/-- Whoever comes with a new key, one item with this key is taken. -/
theorem exists_mem_firsts {l : List α} (hx : x ∈ l) (h : key x = some k) (hk : k ∉ seen) :
    ∃ y ∈ firsts key seen l, key y = some k := by
  induction l generalizing seen with
  | nil => exact absurd hx List.not_mem_nil
  | cons y l ih =>
    rcases hy : key y with _ | k'
    · rw [firsts_cons_none hy]
      refine ih ((List.mem_cons.1 hx).resolve_left ?_) hk
      rintro rfl
      exact nomatch h.symm.trans hy
    · by_cases hk' : k' ∈ seen
      · rw [firsts_cons_known hy hk']
        refine ih ((List.mem_cons.1 hx).resolve_left ?_) hk
        rintro rfl
        cases h.symm.trans hy
        exact hk hk'
      · rw [firsts_cons_new hy hk']
        by_cases hkk : k = k'
        · exact ⟨y, List.mem_cons_self, hkk ▸ hy⟩
        · obtain ⟨z, hz, hkz⟩ := ih ((List.mem_cons.1 hx).resolve_left (by
            rintro rfl
            exact hkk (Option.some.inj (h.symm.trans hy))))
            fun hmem => (Finset.mem_insert.1 hmem).elim hkk hk
          exact ⟨z, List.mem_cons_of_mem _ hz, hkz⟩

/-- No two of what is taken have one key. -/
theorem pairwise_firsts (l : List α) : (firsts key seen l).Pairwise fun x y => key x ≠ key y := by
  induction l generalizing seen with
  | nil => exact List.Pairwise.nil
  | cons x l ih =>
    rcases h : key x with _ | k
    · rw [firsts_cons_none h]
      exact ih
    · by_cases hk : k ∈ seen
      · rw [firsts_cons_known h hk]
        exact ih
      · rw [firsts_cons_new h hk]
        refine List.pairwise_cons.2 ⟨fun y hy heq => ?_, ih⟩
        obtain ⟨k', hk', hnew⟩ := key_of_mem_firsts hy
        cases h.symm.trans (heq.trans hk')
        exact hnew (Finset.mem_insert_self _ _)

theorem eq_of_mem_firsts {l : List α} {y : α} (hx : x ∈ firsts key seen l)
    (hy : y ∈ firsts key seen l) (h : key x = key y) : x = y :=
  List.inj_on_of_nodup_map (List.pairwise_map.2 (pairwise_firsts l)) hx hy h

end Once
