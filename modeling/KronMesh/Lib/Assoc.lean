import Mathlib.Data.List.AList
import Mathlib.Data.List.Induction
import Mathlib.Data.List.Sort
import Mathlib.Tactic.Common

/-!
# Maps filled by a loop

A finite map filled from a list of pairs, and a map of lists filled by appending: what such a loop
leaves under a key, read off the list it ran over. And the last of a sorted list, its greatest.
-/

namespace Assoc

variable {K V α : Type*} [DecidableEq K]

theorem lookup_erase_eq_some {m : AList fun _ : K => V} {k j : K} {v : V} :
    (m.erase k).lookup j = some v ↔ j ≠ k ∧ m.lookup j = some v := by
  by_cases h : j = k
  · rw [h, AList.lookup_erase]
    simp
  · rw [AList.lookup_erase_ne h]
    simp [h]

/-- `map.entry(k).or_default().push(v)` -/
def pushAt (m : AList fun _ : K => List V) (k : K) (v : V) : AList fun _ : K => List V :=
  m.insert k ((m.lookup k).getD [] ++ [v])

theorem getD_pushAt (m : AList fun _ : K => List V) (k j : K) (v : V) :
    ((pushAt m k v).lookup j).getD []
      = if j = k then (m.lookup k).getD [] ++ [v] else (m.lookup j).getD [] := by
  unfold pushAt
  split_ifs with h
  · rw [h, AList.lookup_insert, Option.getD_some]
  · rw [AList.lookup_insert_ne h]

/-- A loop that pushes some items under their keys leaves under `j` those of key `j`, in order. -/
theorem getD_foldl_pushAt (skip : α → Prop) [DecidablePred skip] (key : α → K) (val : α → V)
    (j : K) : ∀ (l : List α) (m : AList fun _ : K => List V),
    ((l.foldl (fun m x => if skip x then m else pushAt m (key x) (val x)) m).lookup j).getD []
      = (m.lookup j).getD [] ++ (l.filter fun x => ¬ skip x ∧ key x = j).map val
  | [], m => by simp
  | x :: l, m => by
    rw [List.foldl_cons, getD_foldl_pushAt skip key val j l]
    by_cases hs : skip x
    · simp [hs]
    · by_cases hk : key x = j
      · simp [hs, hk, getD_pushAt]
      · simp [hs, hk, getD_pushAt, Ne.symm hk]

/-- Pushes under `k` what is not there yet. -/
def pushNewAt [DecidableEq V] (m : AList fun _ : K => List V) (k : K) (v : V) :
    AList fun _ : K => List V :=
  if v ∈ (m.lookup k).getD [] then m.insert k ((m.lookup k).getD []) else pushAt m k v

/-- What is new under its key is pushed. -/
theorem getD_pushNewAt [DecidableEq V] {m : AList fun _ : K => List V} {k : K} {v : V}
    (h : v ∉ (m.lookup k).getD []) (j : K) : ((pushNewAt m k v).lookup j).getD []
      = (m.lookup j).getD [] ++ if j = k then [v] else [] := by
  rw [pushNewAt, if_neg h, getD_pushAt]
  split_ifs with hj
  · rw [hj]
  · rw [List.append_nil]

/-- The map of a list of pairs, of which the last of a key counts. -/
def ofPairs (l : List (K × V)) : AList fun _ : K => V :=
  l.foldl (fun m p => m.insert p.1 p.2) ∅

/-- A list that gives each key one value is read back from its map. -/
theorem lookup_ofPairs {l : List (K × V)}
    (hfun : ∀ k v v', (k, v) ∈ l → (k, v') ∈ l → v = v') (k : K) (v : V) :
    (ofPairs l).lookup k = some v ↔ (k, v) ∈ l := by
  induction l using List.reverseRecOn with
  | nil => simp [ofPairs]
  | append_singleton l p ih =>
    have ih := ih fun k v v' h h' => hfun k v v' (List.mem_append_left _ h)
      (List.mem_append_left _ h')
    have hstep : ofPairs (l ++ [p]) = (ofPairs l).insert p.1 p.2 := by
      unfold ofPairs
      rw [List.foldl_append]
      rfl
    rw [hstep]
    by_cases hk : k = p.1
    · subst hk
      rw [AList.lookup_insert]
      constructor
      · intro h
        cases h
        exact List.mem_append_right _ (List.mem_singleton.2 rfl)
      · intro h
        exact congrArg some (hfun _ _ _ (List.mem_append_right _ (List.mem_singleton.2 rfl)) h)
    · rw [AList.lookup_insert_ne hk, ih, List.mem_append, List.mem_singleton]
      constructor
      · exact .inl
      · rintro (h | h)
        · exact h
        · exact absurd (congrArg Prod.fst h) hk

/-- A list that names each key once is read as it is written. -/
theorem lookup_eq_some_iff_mem {l : List (K × V)} (h : (l.map Prod.fst).Nodup) {k : K} {v : V} :
    l.lookup k = some v ↔ (k, v) ∈ l := by
  rw [List.lookup_eq_some_iff]
  constructor
  · rintro ⟨pre, post, rfl, -⟩
    exact List.mem_append_right _ List.mem_cons_self
  · intro hmem
    obtain ⟨pre, post, rfl⟩ := List.append_of_mem hmem
    rw [List.map_append, List.nodup_append] at h
    refine ⟨pre, post, rfl, fun p hp => bne_iff_ne.2 fun heq => ?_⟩
    exact h.2.2 _ (List.mem_map_of_mem hp) _ (List.mem_map_of_mem List.mem_cons_self) heq.symm

/-- The last of a sorted list is one of its items and is above them all. -/
theorem getLast?_insertionSort {r : α → α → Prop} [DecidableRel r] [Std.Total r] [IsTrans α r]
    {l : List α} {w : α} (h : (l.insertionSort r).getLast? = some w) :
    w ∈ l ∧ ∀ x ∈ l, x = w ∨ r x w := by
  obtain ⟨ys, hys⟩ := List.getLast?_eq_some_iff.1 h
  have hp := List.perm_insertionSort r l
  have hs := List.pairwise_insertionSort r l
  rw [hys] at hp hs
  refine ⟨hp.subset (by simp), fun x hx => ?_⟩
  rcases List.mem_append.1 (hp.symm.subset hx) with hx | hx
  · exact .inr ((List.pairwise_append.1 hs).2.2 x hx w (by simp))
  · exact .inl (List.mem_singleton.1 hx)

/-! ### Every value changed -/

section MapValues

variable {V' : Type*} (f : V → V')

/-- The entries in their order, each with its value changed. -/
def mapValues (m : AList fun _ : K => V) : AList fun _ : K => V' where
  entries := m.entries.map fun e => ⟨e.1, f e.2⟩
  nodupKeys := by
    have hkeys : (m.entries.map fun e => (⟨e.1, f e.2⟩ : Sigma fun _ : K => V')).keys
        = m.entries.keys := by
      rw [List.keys, List.keys, List.map_map]
      rfl
    rw [List.NodupKeys, hkeys]
    exact m.nodupKeys

omit [DecidableEq K] in
theorem entries_mapValues (m : AList fun _ : K => V) :
    (mapValues f m).entries = m.entries.map fun e => ⟨e.1, f e.2⟩ := rfl

theorem lookup_mapValues (m : AList fun _ : K => V) (k : K) :
    (mapValues f m).lookup k = (m.lookup k).map f :=
  @List.dlookup_map₂ _ _ (fun _ => V) (fun _ => V') m.entries (fun _ => f) k

theorem mapValues_insert (m : AList fun _ : K => V) (k : K) (v : V) :
    mapValues f (m.insert k v) = (mapValues f m).insert k (f v) := by
  apply AList.ext
  rw [entries_mapValues, AList.entries_insert, AList.entries_insert, entries_mapValues,
    List.map_cons, List.kerase, List.kerase, List.eraseP_map]
  rfl

end MapValues

end Assoc
