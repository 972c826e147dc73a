import Mathlib.Algebra.BigOperators.Fin
import Mathlib.Algebra.BigOperators.Group.Finset.Basic
import Mathlib.Algebra.Group.Hom.End
import Mathlib.Data.Finset.Sort
import Mathlib.Data.List.GetD
import Mathlib.Tactic.Common
import Mathlib.Tactic.FinCases

/-!
# How many changed symbols a check sees

A check takes in a word symbol by symbol, through an injective additive map between two of them, so
what is left of a changed word is the syndrome of the change. When any four columns are independent
(`Independent`), a change of at most four symbols has a syndrome (`eq_zero_of_syndrome`). Four
columns are independent when for every two of them there is a map that drops both and under which
no other is a multiple of a third (`independent_of_drops`).
-/

namespace Syndrome

variable {V : Type*} [AddCommGroup V] {M : AddMonoid.End V} {S : Set V} {n : ℕ}

/-- What a word leaves of the check, its last symbol first. -/
def syndrome (M : AddMonoid.End V) : List V → V
  | [] => 0
  | e :: es => e + M (syndrome M es)

theorem injective_pow (hM : Function.Injective M) (k : ℕ) : Function.Injective (M ^ k) := by
  rw [AddMonoid.End.coe_pow]
  exact hM.iterate k

theorem eq_zero_of_pow (hM : Function.Injective M) {k : ℕ} {v : V} (h : (M ^ k) v = 0) : v = 0 :=
  injective_pow hM k (h.trans (map_zero _).symm)

theorem syndrome_eq_sum : ∀ es : List V,
    syndrome M es = ∑ i ∈ Finset.range es.length, (M ^ i) (es.getD i 0)
  | [] => rfl
  | e :: es => by
    rw [syndrome, syndrome_eq_sum es, map_sum, List.length_cons, Finset.sum_range_succ', add_comm]
    refine congrArg₂ _ (Finset.sum_congr rfl fun i _ => ?_) rfl
    rw [pow_succ', List.getD_cons_succ]
    rfl

/-- The places outside of `T` do not count when they are zero. -/
theorem syndrome_eq_sum_on {T : Finset ℕ} {es : List V} (hout : ∀ i ∉ T, es.getD i 0 = 0) :
    syndrome M es = ∑ i ∈ T, (M ^ i) (es.getD i 0) := by
  have hlong : ∑ i ∈ Finset.range es.length, (M ^ i) (es.getD i 0)
      = ∑ i ∈ Finset.range es.length ∪ T, (M ^ i) (es.getD i 0) := by
    refine Finset.sum_subset Finset.subset_union_left fun i _ hi => ?_
    have hpast : es.length ≤ i := Nat.le_of_not_lt fun hlt => hi (Finset.mem_range.2 hlt)
    rw [List.getD_eq_default _ _ hpast, map_zero]
  have hshort : ∑ i ∈ T, (M ^ i) (es.getD i 0)
      = ∑ i ∈ Finset.range es.length ∪ T, (M ^ i) (es.getD i 0) :=
    Finset.sum_subset Finset.subset_union_right fun i _ hi => by rw [hout i hi, map_zero]
  rw [syndrome_eq_sum, hlong, hshort]

theorem card_support [DecidableEq V] : ∀ es : List V,
    ((Finset.range es.length).filter fun i => es.getD i 0 ≠ 0).card = es.countP (· ≠ 0)
  | [] => rfl
  | e :: es => by
    have ih := card_support es
    rw [Finset.card_filter] at ih ⊢
    rw [List.length_cons, Finset.sum_range_succ', List.countP_cons]
    simp only [List.getD_cons_succ, List.getD_cons_zero, ih, decide_eq_true_eq]

/-- The symbols of four places, the last of them the first of all, cancel only when they are
zero. -/
def Independent (M : AddMonoid.End V) (S : Set V) (n : ℕ) : Prop :=
  ∀ q r s, 0 < q → q < r → r < s → s < n → ∀ a ∈ S, ∀ b ∈ S, ∀ c ∈ S, ∀ d ∈ S,
    a + (M ^ q) b + (M ^ r) c + (M ^ s) d = 0 → a = 0 ∧ b = 0 ∧ c = 0 ∧ d = 0

/-- Four places anywhere are four places from the first of them on. -/
theorem Independent.four (h : Independent M S n) (hM : Function.Injective M) {f : ℕ → V}
    (hf : ∀ i, f i ∈ S) {p q r s : ℕ} (hpq : p < q) (hqr : q < r) (hrs : r < s) (hs : s < n)
    (hsum : (M ^ p) (f p) + (M ^ q) (f q) + (M ^ r) (f r) + (M ^ s) (f s) = 0) :
    f p = 0 ∧ f q = 0 ∧ f r = 0 ∧ f s = 0 := by
  have hshift : ∀ {i}, p < i → ∀ v, (M ^ i) v = (M ^ p) ((M ^ (i - p)) v) := by
    intro i hi v
    have hpow : M ^ i = M ^ p * M ^ (i - p) := by rw [← pow_add, Nat.add_sub_cancel' hi.le]
    rw [hpow]
    rfl
  rw [hshift hpq, hshift (hpq.trans hqr), hshift (hpq.trans (hqr.trans hrs)), ← map_add, ← map_add,
    ← map_add] at hsum
  exact h _ _ _ (by omega) (by omega) (by omega) (by omega) _ (hf p) _ (hf q) _ (hf r) _ (hf s)
    (eq_zero_of_pow hM hsum)

theorem Independent.card_four (h : Independent M S n) (hM : Function.Injective M) {f : ℕ → V}
    (hf : ∀ i, f i ∈ S) {T : Finset ℕ} (hcard : T.card = 4) (hT : T ⊆ Finset.range n)
    (hsum : ∑ i ∈ T, (M ^ i) (f i) = 0) : ∀ i ∈ T, f i = 0 := by
  have hmem : ∀ j, T.orderEmbOfFin hcard j < n :=
    fun j => Finset.mem_range.1 (hT (Finset.orderEmbOfFin_mem T hcard j))
  have hlt : ∀ {j k : Fin 4}, j < k → T.orderEmbOfFin hcard j < T.orderEmbOfFin hcard k :=
    fun hjk => (T.orderEmbOfFin hcard).strictMono hjk
  rw [← Finset.map_orderEmbOfFin_univ T hcard, Finset.sum_map, Fin.sum_univ_four] at hsum
  obtain ⟨hp, hq, hr, hs⟩ := h.four hM hf (hlt (show (0 : Fin 4) < 1 by decide))
    (hlt (show (1 : Fin 4) < 2 by decide)) (hlt (show (2 : Fin 4) < 3 by decide)) (hmem 3) hsum
  intro i hi
  rw [← Finset.map_orderEmbOfFin_univ T hcard, Finset.mem_map] at hi
  obtain ⟨j, -, rfl⟩ := hi
  fin_cases j
  · exact hp
  · exact hq
  · exact hr
  · exact hs

/-- A change of at most four symbols that leaves no syndrome is no change. -/
theorem eq_zero_of_syndrome [DecidableEq V] (hind : Independent M S n)
    (hM : Function.Injective M) (hn : 4 ≤ n) (h0 : (0 : V) ∈ S) {es : List V}
    (hS : ∀ e ∈ es, e ∈ S) (hlen : es.length ≤ n) (hw : es.countP (· ≠ 0) ≤ 4)
    (h : syndrome M es = 0) : ∀ e ∈ es, e = 0 := by
  have hf : ∀ i, es.getD i 0 ∈ S := by
    intro i
    rw [List.getD_eq_getElem?_getD]
    rcases he : es[i]? with _ | e
    · exact h0
    · exact hS e (List.mem_of_getElem? he)
  -- the changed places, and as many others as make four
  have hsub : ((Finset.range es.length).filter fun i => es.getD i 0 ≠ 0) ⊆ Finset.range n :=
    (Finset.filter_subset _ _).trans (Finset.range_subset_range.2 hlen)
  obtain ⟨T, hT, hTn, hcard⟩ := Finset.exists_subsuperset_card_eq hsub
    ((card_support es).trans_le hw) (by rwa [Finset.card_range])
  have hout : ∀ i ∉ T, es.getD i 0 = 0 := by
    intro i hi
    by_contra hne
    refine hi (hT (Finset.mem_filter.2 ⟨Finset.mem_range.2 ?_, hne⟩))
    by_contra hle
    exact hne (List.getD_eq_default _ _ (Nat.le_of_not_lt hle))
  have hin := hind.card_four hM hf hcard hTn ((syndrome_eq_sum_on hout).symm.trans h)
  intro e he
  obtain ⟨i, hi, rfl⟩ := List.mem_iff_getElem.1 he
  have hget : es.getD i 0 = es[i] := by
    rw [List.getD_eq_getElem?_getD, List.getElem?_eq_getElem hi, Option.getD_some]
  rw [← hget]
  by_cases hiT : i ∈ T
  · exact hin i hiT
  · exact hout i hiT

/-! ## When four columns are independent -/

section Multiples

variable {D f : AddMonoid.End V} {x y v w : V}

/-- Zero, or what `D` makes of `x`. -/
def Multiple (D : AddMonoid.End V) (x v : V) : Prop := v = 0 ∨ ∃ k, v = (D ^ k) x

theorem apply_pow (hf : Commute f D) (k : ℕ) (v : V) : f ((D ^ k) v) = (D ^ k) (f v) :=
  DFunLike.congr_fun (hf.pow_right k).eq v

theorem Multiple.map (hf : Commute f D) (h : Multiple D x v) : Multiple D (f x) (f v) := by
  rcases h with rfl | ⟨k, rfl⟩
  · exact .inl (map_zero f)
  · exact .inr ⟨k, apply_pow hf k x⟩

theorem Multiple.map_eq_zero (hf : Commute f D) (hfx : f x = 0) (h : Multiple D x v) : f v = 0 := by
  rcases h with rfl | ⟨k, rfl⟩
  · exact map_zero f
  · rw [apply_pow hf, hfx, map_zero]

theorem Multiple.eq_zero_of_map (hD : Function.Injective D) (hf : Commute f D) (hfx : f x ≠ 0)
    (h : Multiple D x v) (hv : f v = 0) : v = 0 := by
  rcases h with rfl | ⟨k, rfl⟩
  · rfl
  · rw [apply_pow hf] at hv
    exact absurd (eq_zero_of_pow hD hv) hfx

/-- Multiples of two that have no multiple together cancel only when they are zero. -/
theorem Multiple.both_eq_zero (hD : Function.Injective D) (hv : Multiple D x v)
    (hw : Multiple D y w) (hx : x ≠ 0) (hy : y ≠ 0) (hne : ∀ k l, (D ^ k) x + (D ^ l) y ≠ 0)
    (h : v + w = 0) : v = 0 ∧ w = 0 := by
  rcases hv with rfl | ⟨k, rfl⟩ <;> rcases hw with rfl | ⟨l, rfl⟩
  · exact ⟨rfl, rfl⟩
  · rw [zero_add] at h
    exact absurd (eq_zero_of_pow hD h) hy
  · rw [add_zero] at h
    exact absurd (eq_zero_of_pow hD h) hx
  · exact absurd h (hne k l)

end Multiples

/-- The symbols are zero and what `D` makes of `one`, and `D` goes through `M`. For every column
there is a map that drops it and the first one, under which no later column vanishes and no two of
them are multiples of each other. Then any four columns are independent. -/
theorem independent_of_drops {D : AddMonoid.End V} {one : V} {drop : ℕ → AddMonoid.End V}
    (hD : Function.Injective D) (hMD : Commute M D)
    (hdropD : ∀ q, 0 < q → q < n → Commute (drop q) D) (hone : one ≠ 0) (hM : Function.Injective M)
    (hfirst : ∀ q, 0 < q → q < n → drop q one = 0)
    (hself : ∀ q, 0 < q → q < n → drop q ((M ^ q) one) = 0)
    (hpair : ∀ q, 0 < q → q < n → ∀ k l, (D ^ k) one + (D ^ l) ((M ^ q) one) ≠ 0)
    (hnone : ∀ q r, 0 < q → q < r → r < n → drop q ((M ^ r) one) ≠ 0)
    (htwo : ∀ q r s, 0 < q → q < r → r < s → s < n → ∀ k l,
      (D ^ k) (drop q ((M ^ r) one)) + (D ^ l) (drop q ((M ^ s) one)) ≠ 0) :
    Independent M {v | v = 0 ∨ ∃ k, v = (D ^ k) one} n := by
  intro q r s hq hqr hrs hs a ha b hb c hc d hd hsum
  have hqn : q < n := hqr.trans (hrs.trans hs)
  have hpow : ∀ m, Commute (M ^ m) D := fun m => hMD.pow_left m
  have hdrop : ∀ m, Commute (drop q * M ^ m) D := fun m => (hdropD q hq hqn).mul_left (hpow m)
  have hM0 : (M ^ q) one ≠ 0 := fun h => hone (eq_zero_of_pow hM h)
  -- the map of `q` leaves the columns of `r` and `s`
  have hleft : (drop q * M ^ r) c + (drop q * M ^ s) d = 0 := by
    have ha0 : drop q a = 0 := Multiple.map_eq_zero (hdropD q hq hqn) (hfirst q hq hqn) ha
    have hb0 : (drop q * M ^ q) b = 0 := Multiple.map_eq_zero (hdrop q) (hself q hq hqn) hb
    rw [AddMonoid.End.coe_mul, Function.comp_apply] at hb0
    have h := congrArg (drop q) hsum
    rwa [map_add, map_add, map_add, ha0, hb0, map_zero, zero_add, zero_add] at h
  have hr0 : (drop q * M ^ r) one ≠ 0 := hnone q r hq hqr (hrs.trans hs)
  have hs0 : (drop q * M ^ s) one ≠ 0 := hnone q s hq (hqr.trans hrs) hs
  obtain ⟨hc0, hd0⟩ := Multiple.both_eq_zero hD (Multiple.map (hdrop r) hc)
    (Multiple.map (hdrop s) hd) hr0 hs0 (htwo q r s hq hqr hrs hs) hleft
  obtain rfl := Multiple.eq_zero_of_map hD (hdrop r) hr0 hc hc0
  obtain rfl := Multiple.eq_zero_of_map hD (hdrop s) hs0 hd hd0
  -- and those of the first place and of `q` have no multiple together
  rw [map_zero, map_zero, add_zero, add_zero] at hsum
  obtain ⟨ha0, hb0⟩ := Multiple.both_eq_zero hD ha (Multiple.map (hpow q) hb) hone hM0
    (hpair q hq hqn) hsum
  exact ⟨ha0, eq_zero_of_pow hM hb0, rfl, rfl⟩

end Syndrome
