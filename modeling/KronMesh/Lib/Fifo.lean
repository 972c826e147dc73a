import Mathlib.Data.List.AList
import Mathlib.Tactic.Common

/-!
# A map that forgets the oldest

A map beside the queue of its keys, filled up to a cap: one more key pushes out the one that has
been there longest. The map and the queue stay in step (`Fifo.InStep`), and a key stays until as
many others have come in as the cap allows (`Fifo.retained_insert`).
-/

structure Fifo (K V : Type*) [DecidableEq K] where
  store : AList fun _ : K => V
  order : List K

namespace Fifo

variable {K V : Type*} [DecidableEq K] {f : Fifo K V} {cap : ℕ} {k j : K} {v w : V}

/-- The oldest goes. -/
def popFront (f : Fifo K V) : Fifo K V :=
  match f.order with
  | [] => f
  | old :: rest => { store := f.store.erase old, order := rest }

def insert (cap : ℕ) (f : Fifo K V) (k : K) (v : V) : Fifo K V :=
  if k ∈ f.store then f
  else
    let kept := if cap ≤ f.order.length then f.popFront else f
    { store := kept.store.insert k v, order := kept.order ++ [k] }

/-- The keys are those in the queue, once each and no more than the cap. -/
structure InStep (cap : ℕ) (f : Fifo K V) : Prop where
  keys : ∀ k, k ∈ f.store ↔ k ∈ f.order
  nodup : f.order.Nodup
  length_le : f.order.length ≤ cap

theorem inStep_empty : InStep cap (⟨∅, []⟩ : Fifo K V) :=
  ⟨fun k => iff_of_false (AList.notMem_empty k) List.not_mem_nil, .nil, Nat.zero_le _⟩

theorem insert_of_mem (h : k ∈ f.store) : f.insert cap k v = f := if_pos h

/-- A new key goes to the end, after the oldest has made room when there was none. -/
theorem insert_of_notMem (h : k ∉ f.store) (hstep : InStep cap f) (hcap : 0 < cap) :
    ∃ gone kept, f.order = gone ++ kept ∧ (f.insert cap k v).order = kept ++ [k]
      ∧ kept.length < cap ∧ (gone = [] ∨ gone.length = 1 ∧ f.order.length = cap)
      ∧ ∀ j, (f.insert cap k v).store.lookup j
        = if j = k then some v else if j ∈ gone then none else f.store.lookup j := by
  have hlookup : ∀ (m : AList fun _ : K => V) j,
      (m.insert k v).lookup j = if j = k then some v else m.lookup j := by
    intro m j
    split_ifs with hj
    · rw [hj, AList.lookup_insert]
    · exact AList.lookup_insert_ne hj
  unfold insert
  rw [if_neg h]
  by_cases hfull : cap ≤ f.order.length
  · obtain ⟨old, rest, horder⟩ := List.exists_cons_of_length_pos (Nat.lt_of_lt_of_le hcap hfull)
    have hlen : f.order.length = cap := Nat.le_antisymm hstep.length_le hfull
    have hrest : rest.length < cap := by
      rw [horder, List.length_cons] at hlen
      omega
    have hpop : (if cap ≤ f.order.length then f.popFront else f) = ⟨f.store.erase old, rest⟩ := by
      rw [if_pos hfull, popFront, horder]
    refine ⟨[old], rest, horder, ?_, hrest, .inr ⟨rfl, hlen⟩, fun j => ?_⟩
    · simp only [hpop]
    · simp only [hpop, hlookup, List.mem_singleton]
      split_ifs with hjk hjold
      · rfl
      · rw [hjold, AList.lookup_erase]
      · exact AList.lookup_erase_ne hjold
  · refine ⟨[], f.order, rfl, ?_, Nat.lt_of_not_le hfull, .inl rfl, fun j => ?_⟩
    · simp only [hfull, if_false]
    · simp only [hfull, if_false, hlookup, List.not_mem_nil]

theorem InStep.insert (hstep : InStep cap f) (hcap : 0 < cap) (k : K) (v : V) :
    InStep cap (f.insert cap k v) := by
  by_cases hk : k ∈ f.store
  · rw [insert_of_mem hk]
    exact hstep
  · obtain ⟨gone, kept, horder, hnew, hlen, -, hlookup⟩ :=
      insert_of_notMem (v := v) hk hstep hcap
    have hnodup := hstep.nodup
    rw [horder, List.nodup_append] at hnodup
    have hkeys : ∀ j, j ∈ f.store ↔ j ∈ gone ∨ j ∈ kept := by
      intro j
      rw [hstep.keys, horder, List.mem_append]
    refine ⟨fun j => ?_, ?_, ?_⟩
    · rw [hnew, List.mem_append, List.mem_singleton, ← AList.lookup_isSome, hlookup]
      split_ifs with hjk hgone
      · exact iff_of_true rfl (.inr hjk)
      · refine iff_of_false Bool.false_ne_true ?_
        rintro (hkept | hjk')
        · exact hnodup.2.2 j hgone j hkept rfl
        · exact hjk hjk'
      · rw [AList.lookup_isSome, hkeys, or_iff_right hgone, or_iff_left hjk]
    · rw [hnew]
      refine List.nodup_append.2 ⟨hnodup.2.1, List.nodup_singleton k, ?_⟩
      rintro j hj j' hj' rfl
      rw [List.mem_singleton.1 hj'] at hj
      exact hk ((hkeys k).2 (.inr hj))
    · rw [hnew, List.length_append, List.length_singleton]
      exact hlen

theorem lookup_insert_cases (hstep : InStep cap f) (hcap : 0 < cap)
    (h : (f.insert cap k v).store.lookup j = some w) :
    j = k ∧ w = v ∨ f.store.lookup j = some w := by
  by_cases hk : k ∈ f.store
  · rw [insert_of_mem hk] at h
    exact .inr h
  · obtain ⟨gone, kept, -, -, -, -, hlookup⟩ := insert_of_notMem (v := v) hk hstep hcap
    rw [hlookup] at h
    split_ifs at h with hjk hgone
    · exact .inl ⟨hjk, (Option.some.inj h).symm⟩
    · exact .inr h

/-- Where there is room nothing goes. -/
theorem lookup_insert_of_lt (hstep : InStep cap f) (hroom : k ∉ f.store → f.order.length < cap)
    (hk : ∀ w, f.store.lookup k = some w → w = v) (j : K) :
    (f.insert cap k v).store.lookup j = if j = k then some v else f.store.lookup j := by
  by_cases hmem : k ∈ f.store
  · rw [insert_of_mem hmem]
    split_ifs with hj
    · obtain ⟨w, hw⟩ := Option.isSome_iff_exists.1 (AList.lookup_isSome.2 hmem)
      rw [hj, hw, hk w hw]
    · rfl
  · have hlen := hroom hmem
    obtain ⟨gone, kept, -, -, -, hgone, hlookup⟩ :=
      insert_of_notMem (v := v) hmem hstep (Nat.zero_lt_of_lt hlen)
    rcases hgone with rfl | ⟨-, hfull⟩
    · rw [hlookup, if_neg List.not_mem_nil]
    · omega

/-- What a key has had come in behind it. -/
def Behind (f : Fifo K V) (k : K) (since : List K) : Prop := ∃ front, f.order = front ++ k :: since

theorem behind_insert (h : k ∉ f.store) (hstep : InStep cap f) (hcap : 0 < cap) :
    (f.insert cap k v).Behind k [] ∧ (f.insert cap k v).store.lookup k = some v := by
  obtain ⟨gone, kept, -, hnew, -, -, hlookup⟩ := insert_of_notMem (v := v) h hstep hcap
  exact ⟨⟨kept, hnew⟩, (hlookup k).trans (if_pos rfl)⟩

theorem nodup_behind (hstep : InStep cap f) {since : List K} (hk : f.Behind k since)
    (hj : j ∉ f.store) : (since ++ [j]).Nodup := by
  obtain ⟨front, hfront⟩ := hk
  have hnodup := hstep.nodup
  rw [hfront, List.nodup_append, List.nodup_cons] at hnodup
  refine List.nodup_append.2 ⟨hnodup.2.1.2, List.nodup_singleton _, ?_⟩
  rintro i hi i' hi' rfl
  rw [List.mem_singleton.1 hi'] at hi
  refine hj ((hstep.keys _).2 ?_)
  rw [hfront]
  exact List.mem_append_right _ (List.mem_cons_of_mem _ hi)

/-- A key is there as long as fewer than the cap have come in behind it. -/
theorem retained_insert (hstep : InStep cap f) {since : List K} (hk : f.Behind k since)
    (hv : f.store.lookup k = some v) (hj : j ∉ f.store) (hroom : since.length + 1 < cap) :
    (f.insert cap j w).Behind k (since ++ [j]) ∧ (f.insert cap j w).store.lookup k = some v := by
  obtain ⟨front, hfront⟩ := hk
  have hkmem : k ∈ f.store := AList.lookup_isSome.1 (by rw [hv, Option.isSome_some])
  have hjk : k ≠ j := by
    rintro rfl
    exact hj hkmem
  obtain ⟨gone, kept, horder, hnew, hlen, hgone, hlookup⟩ :=
    insert_of_notMem (v := w) hj hstep (by omega)
  rcases hgone with rfl | ⟨hone, hfull⟩
  · rw [List.nil_append] at horder
    refine ⟨⟨front, ?_⟩, ?_⟩
    · rw [hnew, ← horder, hfront, List.append_assoc, List.cons_append]
    · rw [hlookup, if_neg hjk, if_neg List.not_mem_nil, hv]
  · -- the queue is full, so something stands before the key
    obtain ⟨old, rfl⟩ := List.length_eq_one_iff.1 hone
    rcases front with _ | ⟨old', front⟩
    · rw [hfront, List.nil_append, List.length_cons] at hfull
      omega
    · rw [horder, List.singleton_append, List.cons_append, List.cons.injEq] at hfront
      obtain ⟨rfl, hkept⟩ := hfront
      have hnodup := hstep.nodup
      rw [horder, hkept, List.nodup_append] at hnodup
      have hne : k ≠ old := by
        rintro rfl
        exact hnodup.2.2 k (List.mem_singleton_self k) k (by simp) rfl
      refine ⟨⟨front, ?_⟩, ?_⟩
      · rw [hnew, hkept, List.append_assoc, List.cons_append]
      · rw [hlookup, if_neg hjk, if_neg (fun h => hne (List.mem_singleton.1 h)), hv]

end Fifo
