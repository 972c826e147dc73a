import Mathlib.Data.List.AList
import Mathlib.Algebra.BigOperators.Group.List.Basic
import Mathlib.Algebra.GroupWithZero.Nat
import Mathlib.Algebra.Order.BigOperators.Group.List
import Mathlib.Tactic.Common

/-!
# Maps of counters

A finite map to naturals in which an absent key counts zero, and the sum of all its values.
Setting a key moves the sum by what the key gains or loses (`total_set`), so a sum is kept by
keeping, at every set, what the key held before.
-/

/-- A finite map of counters. -/
abbrev Tally (K : Type*) := AList fun _ : K => ℕ

namespace Tally

variable {K : Type*} [DecidableEq K]

/-- What `k` counts, zero when it is absent. -/
def get (t : Tally K) (k : K) : ℕ := (t.lookup k).getD 0

/-- The map with `k` counting `n`. -/
def set (t : Tally K) (k : K) (n : ℕ) : Tally K := t.insert k n

/-- The sum of all counters. -/
def total (t : Tally K) : ℕ := (t.entries.map Sigma.snd).sum

@[simp] theorem get_empty (k : K) : get (∅ : Tally K) k = 0 := rfl

theorem get_set (t : Tally K) (k j : K) (n : ℕ) :
    get (t.set k n) j = if j = k then n else get t j := by
  unfold get set
  split_ifs with h
  · rw [h, AList.lookup_insert, Option.getD_some]
  · rw [AList.lookup_insert_ne h]

@[simp] theorem get_set_self (t : Tally K) (k : K) (n : ℕ) : get (t.set k n) k = n := by
  rw [get_set, if_pos rfl]

theorem get_set_ne (t : Tally K) {k j : K} (n : ℕ) (h : j ≠ k) :
    get (t.set k n) j = get t j := by
  rw [get_set, if_neg h]

/-- A bound of all counters is kept by setting one within it. -/
theorem get_set_le {t : Tally K} {m : ℕ} (h : ∀ j, get t j ≤ m) (k : K) {n : ℕ} (hn : n ≤ m)
    (j : K) : get (t.set k n) j ≤ m := by
  rw [get_set]
  split_ifs
  · exact hn
  · exact h j

/-- What erasing a key takes from the sum of a list of entries. -/
theorem sum_kerase (k : K) : ∀ l : List (Sigma fun _ : K => ℕ),
    ((l.kerase k).map Sigma.snd).sum + (l.dlookup k).getD 0 = (l.map Sigma.snd).sum
  | [] => rfl
  | ⟨j, n⟩ :: l => by
    by_cases h : k = j
    · subst h
      simp only [List.kerase_cons_eq, List.dlookup_cons_eq, Option.getD_some, List.map_cons,
        List.sum_cons]
      omega
    · have ih := sum_kerase k l
      rw [List.kerase_cons_ne h, List.dlookup_cons_ne _ _ h]
      simp only [List.map_cons, List.sum_cons]
      omega

theorem total_set (t : Tally K) (k : K) (n : ℕ) : total (t.set k n) + get t k = total t + n := by
  have h := sum_kerase k t.entries
  unfold total set get
  rw [AList.entries_insert, List.map_cons, List.sum_cons]
  change n + _ + (t.entries.dlookup k).getD 0 = _
  omega

theorem get_le_total (t : Tally K) (k : K) : get t k ≤ total t := by
  have h := total_set t k 0
  omega

/-- Two keys together count no more than the sum. -/
theorem get_add_get_le_total (t : Tally K) {j k : K} (h : j ≠ k) :
    get t j + get t k ≤ total t := by
  have h1 := total_set t k 0
  have h2 := get_le_total (t.set k 0) j
  rw [get_set_ne _ _ h] at h2
  omega

/-! ## Maps filled from their entries -/

/-- The map of a list of entries, of which the last of a key counts. -/
def ofEntries (es : List (Sigma fun _ : K => ℕ)) : Tally K := es.foldl (fun t e => t.set e.1 e.2) ∅

theorem perm_entries_foldl_set : ∀ (es : List (Sigma fun _ : K => ℕ)) (t : Tally K), es.NodupKeys →
    (∀ e ∈ es, e.1 ∉ t) →
    ((es.foldl (fun t e => t.set e.1 e.2) t).entries).Perm (es ++ t.entries)
  | [], t, _, _ => .refl _
  | e :: es, t, hnd, hfresh => by
    obtain ⟨he, hes⟩ := List.forall_mem_cons.1 hfresh
    have hkey := (List.nodupKeys_cons.1 hnd).1
    have hset : (t.set e.1 e.2).entries = e :: t.entries := AList.entries_insert_of_notMem he
    have hfresh' : ∀ e' ∈ es, e'.1 ∉ t.set e.1 e.2 := by
      intro e' he' hm
      rcases (AList.mem_insert _).1 hm with heq | hm
      · exact hkey (heq ▸ List.mem_keys_of_mem he')
      · exact hes e' he' hm
    have ih := perm_entries_foldl_set es (t.set e.1 e.2) (List.nodupKeys_cons.1 hnd).2 hfresh'
    rw [hset] at ih
    exact ih.trans List.perm_middle

/-- A list that gives each key one value has these entries in its map. -/
theorem perm_entries_ofEntries {es : List (Sigma fun _ : K => ℕ)} (h : es.NodupKeys) :
    (ofEntries es).entries.Perm es := by
  have hp := perm_entries_foldl_set es ∅ h fun _ _ hm => absurd hm (AList.notMem_empty _)
  rwa [AList.empty_entries, List.append_nil] at hp

theorem get_eq_of_perm {t t' : Tally K} (h : t.entries.Perm t'.entries) (k : K) :
    get t k = get t' k := by
  unfold get
  rw [AList.perm_lookup h]

/-- A counter is an entry, or it is zero. -/
theorem get_of_mem {t : Tally K} {e : Sigma fun _ : K => ℕ} (h : e ∈ t.entries) :
    get t e.1 = e.2 := by
  unfold get
  rw [AList.mem_lookup_iff.2 h, Option.getD_some]

end Tally
