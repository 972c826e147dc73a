import Mathlib.Data.List.Nodup
import Mathlib.Data.List.Perm.Subperm
import Mathlib.Logic.Relation
import Mathlib.Tactic.Common

/-!
# Walks with a stack

A walk pops an item, and pushes its successors unless it has seen the item before. What it sees is
what can be reached from where it begins (`mem_walk_iff`), when it has turns enough: one for each
item pushed, and one to end. A walk that is cut after so many items (`walkUpTo`) sees the same when
no more can be reached.
-/

namespace Search

open Relation

variable {α : Type*}

theorem nodup_concat {l : List α} {x : α} (h : l.Nodup) (hx : x ∉ l) : (l ++ [x]).Nodup := by
  rw [List.nodup_append]
  refine ⟨h, List.nodup_singleton x, ?_⟩
  rintro a ha b hb rfl
  exact hx (List.mem_singleton.1 hb ▸ ha)

/-- An item of `U` that is not in a part of it leaves room for it. -/
theorem length_lt_of_notMem {U l : List α} {x : α} (h : l.Nodup) (hl : l ⊆ U) (hx : x ∈ U)
    (hxl : x ∉ l) : l.length < U.length := by
  have hsub : (l ++ [x]) ⊆ U :=
    List.append_subset.2 ⟨hl, List.cons_subset.2 ⟨hx, List.nil_subset _⟩⟩
  have := ((nodup_concat h hxl).subperm hsub).length_le
  rw [List.length_append, List.length_singleton] at this
  omega

/-- A set with the successors of all its items, within a list. -/
structure Within (next : α → List α) (S : α → Prop) (U : List α) : Prop where
  closed : ∀ x, S x → ∀ y ∈ next x, S y
  mem : ∀ x, S x → x ∈ U

theorem Within.room {next : α → List α} {S : α → Prop} {U : List α}
    (hS : Within next S U) {seen : List α} {x : α} (hnd : seen.Nodup)
    (hseen : ∀ y ∈ seen, S y) (hx : S x) (hmem : x ∉ seen) : seen.length < U.length :=
  length_lt_of_notMem hnd (fun y hy => hS.mem y (hseen y hy)) (hS.mem x hx) hmem

variable [DecidableEq α] (next : α → List α)

/-- The first argument bounds the turns of the loop. -/
def walk : ℕ → List α → List α → List α
  | 0, _, seen => seen
  | _ + 1, [], seen => seen
  | fuel + 1, x :: stack, seen =>
    if x ∈ seen then walk fuel stack seen else walk fuel (next x ++ stack) (seen ++ [x])

/-- The walk that ends at the first item past `bound` of them. -/
def walkUpTo (bound : ℕ) : ℕ → List α → List α → List α
  | 0, _, seen => seen
  | _ + 1, [], seen => seen
  | fuel + 1, x :: stack, seen =>
    if x ∈ seen then walkUpTo bound fuel stack seen
    else if bound ≤ seen.length then seen ++ [x]
    else walkUpTo bound fuel (next x ++ stack) (seen ++ [x])

/-- `y` can be reached from `x`. -/
def Reaches (x y : α) : Prop := ReflTransGen (fun a b => b ∈ next a) x y

variable {next}

theorem subset_walk : ∀ (fuel : ℕ) (stack seen : List α), seen ⊆ walk next fuel stack seen
  | 0, _, _ => List.Subset.refl _
  | _ + 1, [], _ => List.Subset.refl _
  | fuel + 1, x :: stack, seen => by
    rw [walk]
    split_ifs
    · exact subset_walk fuel stack seen
    · exact List.Subset.trans (List.subset_append_left _ _) (subset_walk fuel _ _)

theorem nodup_walk : ∀ (fuel : ℕ) (stack seen : List α), seen.Nodup →
    (walk next fuel stack seen).Nodup
  | 0, _, _, h => h
  | _ + 1, [], _, h => h
  | fuel + 1, x :: stack, seen, h => by
    rw [walk]
    split_ifs with hx
    · exact nodup_walk fuel stack seen h
    · exact nodup_walk fuel _ _ (nodup_concat h hx)

/-- What a walk sees it can reach. -/
theorem reaches_of_mem_walk {y : α} : ∀ (fuel : ℕ) (stack seen : List α),
    y ∈ walk next fuel stack seen → y ∈ seen ∨ ∃ x ∈ stack, Reaches next x y
  | 0, _, _, h => .inl h
  | _ + 1, [], _, h => .inl h
  | fuel + 1, x :: stack, seen, h => by
    rw [walk] at h
    split_ifs at h with hx
    · rcases reaches_of_mem_walk fuel stack seen h with h | ⟨z, hz, h⟩
      · exact .inl h
      · exact .inr ⟨z, List.mem_cons_of_mem _ hz, h⟩
    · rcases reaches_of_mem_walk fuel _ _ h with h | ⟨z, hz, h⟩
      · rcases List.mem_append.1 h with h | h
        · exact .inl h
        · exact .inr ⟨x, List.mem_cons_self, List.mem_singleton.1 h ▸ ReflTransGen.refl⟩
      · rcases List.mem_append.1 hz with hz | hz
        · exact .inr ⟨x, List.mem_cons_self, h.head hz⟩
        · exact .inr ⟨z, List.mem_cons_of_mem _ hz, h⟩

section Closed

variable {S : α → Prop} {U : List α}

/-- A walk with turns enough sees all of its stack, and the successors of all it sees. -/
theorem closed_walk {k : ℕ} (hS : Within next S U) (hk : ∀ x, (next x).length ≤ k) :
    ∀ (fuel : ℕ) (stack seen : List α), seen.Nodup → (∀ x ∈ seen, S x) → (∀ x ∈ stack, S x) →
      k * (U.length - seen.length) + stack.length + 1 ≤ fuel →
      (∀ x ∈ seen, ∀ y ∈ next x, y ∈ seen ∨ y ∈ stack) →
        stack ⊆ walk next fuel stack seen
          ∧ ∀ x ∈ walk next fuel stack seen, ∀ y ∈ next x, y ∈ walk next fuel stack seen
  | 0, _, _, _, _, _, h, _ => by omega
  | fuel + 1, [], seen, _, _, _, _, hin =>
    ⟨List.nil_subset _, fun x hx y hy => (hin x hx y hy).resolve_right List.not_mem_nil⟩
  | fuel + 1, x :: stack, seen, hnd, hseen, hstack, hf, hin => by
    obtain ⟨hx, hstack⟩ := List.forall_mem_cons.1 hstack
    rw [List.length_cons] at hf
    rw [walk]
    split_ifs with hmem
    · have hin' : ∀ z ∈ seen, ∀ y ∈ next z, y ∈ seen ∨ y ∈ stack := by
        intro z hz y hy
        rcases hin z hz y hy with h | h
        · exact .inl h
        · rcases List.mem_cons.1 h with rfl | h
          · exact .inl hmem
          · exact .inr h
      obtain ⟨h1, h2⟩ := closed_walk hS hk fuel stack seen hnd hseen hstack (by omega) hin'
      exact ⟨List.cons_subset.2 ⟨subset_walk _ _ _ hmem, h1⟩, h2⟩
    · have hlt := hS.room hnd hseen hx hmem
      have hseen' : ∀ y ∈ seen ++ [x], S y :=
        List.forall_mem_append.2 ⟨hseen, List.forall_mem_singleton.2 hx⟩
      have hstack' : ∀ y ∈ next x ++ stack, S y :=
        List.forall_mem_append.2 ⟨hS.closed x hx, hstack⟩
      have hf' : k * (U.length - (seen ++ [x]).length) + (next x ++ stack).length + 1 ≤ fuel := by
        obtain ⟨m, hm⟩ := Nat.exists_eq_add_of_lt hlt
        have h1 : U.length - seen.length = m + 1 := by omega
        have h2 : U.length - (seen ++ [x]).length = m := by
          rw [List.length_append, List.length_singleton]
          omega
        have h3 := hk x
        rw [h1, Nat.mul_succ] at hf
        rw [h2, List.length_append]
        omega
      have hin' : ∀ z ∈ seen ++ [x], ∀ y ∈ next z, y ∈ seen ++ [x] ∨ y ∈ next x ++ stack := by
        intro z hz y hy
        rcases List.mem_append.1 hz with hz | hz
        · rcases hin z hz y hy with h | h
          · exact .inl (List.mem_append_left _ h)
          · rcases List.mem_cons.1 h with rfl | h
            · exact .inl (List.mem_append_right _ (List.mem_singleton.2 rfl))
            · exact .inr (List.mem_append_right _ h)
        · rw [List.mem_singleton.1 hz] at hy
          exact .inr (List.mem_append_left _ hy)
      obtain ⟨h1, h2⟩ := closed_walk hS hk fuel _ _ (nodup_concat hnd hmem) hseen' hstack' hf' hin'
      refine ⟨List.cons_subset.2 ⟨?_, (List.append_subset.1 h1).2⟩, h2⟩
      exact subset_walk _ _ _ (List.mem_append_right _ (List.mem_singleton.2 rfl))

/-- Walks from several items, one after the other, see what can be reached from one of them. -/
theorem mem_foldl_walk_iff {k fuel : ℕ} (hS : Within next S U) (hk : ∀ x, (next x).length ≤ k)
    (hf : k * U.length + 2 ≤ fuel) {starts : List α} (hstarts : ∀ x ∈ starts, S x) (y : α) :
    y ∈ starts.foldl (fun seen x => walk next fuel [x] seen) [] ↔
      ∃ x ∈ starts, Reaches next x y := by
  have hkey : ∀ (starts seen : List α), (∀ x ∈ starts, S x) → seen.Nodup → (∀ x ∈ seen, S x) →
      (∀ x ∈ seen, ∀ y ∈ next x, y ∈ seen) → ∀ y,
        y ∈ starts.foldl (fun seen x => walk next fuel [x] seen) seen ↔
          y ∈ seen ∨ ∃ x ∈ starts, Reaches next x y := by
    intro starts
    induction starts with
    | nil => simp
    | cons x starts ih =>
      intro seen hstarts hnd hseen hclosed y
      obtain ⟨hx, hstarts⟩ := List.forall_mem_cons.1 hstarts
      have hturns : k * (U.length - seen.length) + [x].length + 1 ≤ fuel := by
        have := Nat.mul_le_mul_left k (Nat.sub_le U.length seen.length)
        rw [List.length_singleton]
        omega
      obtain ⟨hstart, hclosed'⟩ := closed_walk hS hk fuel [x] seen hnd hseen
        (List.forall_mem_singleton.2 hx) hturns fun z hz y hy => .inl (hclosed z hz y hy)
      have hsound : ∀ z ∈ walk next fuel [x] seen, z ∈ seen ∨ Reaches next x z := by
        intro z hz
        rcases reaches_of_mem_walk fuel [x] seen hz with h | ⟨w, hw, h⟩
        · exact .inl h
        · exact .inr (List.mem_singleton.1 hw ▸ h)
      have hreach : ∀ z, Reaches next x z → z ∈ walk next fuel [x] seen := by
        intro z hz
        induction hz with
        | refl => exact hstart List.mem_cons_self
        | tail _ hy ih => exact hclosed' _ ih _ hy
      have hS' : ∀ z, Reaches next x z → S z := by
        intro z hz
        induction hz with
        | refl => exact hx
        | tail _ hy ih => exact hS.closed _ ih _ hy
      rw [List.foldl_cons, ih _ hstarts (nodup_walk _ _ _ hnd)
        (fun z hz => (hsound z hz).elim (hseen z) (hS' z)) hclosed']
      constructor
      · rintro (h | ⟨w, hw, h⟩)
        · exact (hsound y h).imp_right fun h => ⟨x, List.mem_cons_self, h⟩
        · exact .inr ⟨w, List.mem_cons_of_mem _ hw, h⟩
      · rintro (h | ⟨w, hw, h⟩)
        · exact .inl (subset_walk _ _ _ h)
        · rcases List.mem_cons.1 hw with rfl | hw
          · exact .inl (hreach y h)
          · exact .inr ⟨w, hw, h⟩
  refine (hkey starts [] hstarts List.nodup_nil (fun _ h => absurd h List.not_mem_nil)
    (fun _ h => absurd h List.not_mem_nil) y).trans ?_
  simp

/-- From an empty `seen`, a walk with turns enough sees what can be reached. -/
theorem mem_walk_iff {k fuel : ℕ} (hS : Within next S U) (hk : ∀ x, (next x).length ≤ k)
    (hf : k * U.length + 2 ≤ fuel) {x : α} (hx : S x) (y : α) :
    y ∈ walk next fuel [x] [] ↔ Reaches next x y := by
  have := mem_foldl_walk_iff hS hk hf (List.forall_mem_singleton.2 hx) y
  simpa using this

/-- A walk over no more items than its bound is not cut. -/
theorem walkUpTo_eq_walk {bound : ℕ} (hS : Within next S U) (hbound : U.length ≤ bound) :
    ∀ (fuel : ℕ) (stack seen : List α), seen.Nodup → (∀ x ∈ seen, S x) → (∀ x ∈ stack, S x) →
      walkUpTo next bound fuel stack seen = walk next fuel stack seen
  | 0, _, _, _, _, _ => rfl
  | _ + 1, [], _, _, _, _ => rfl
  | fuel + 1, x :: stack, seen, hnd, hseen, hstack => by
    obtain ⟨hx, hstack⟩ := List.forall_mem_cons.1 hstack
    rw [walkUpTo, walk]
    split_ifs with hmem hfull
    · exact walkUpTo_eq_walk hS hbound fuel stack seen hnd hseen hstack
    · have := hS.room hnd hseen hx hmem
      omega
    · exact walkUpTo_eq_walk hS hbound fuel _ _ (nodup_concat hnd hmem)
        (List.forall_mem_append.2 ⟨hseen, List.forall_mem_singleton.2 hx⟩)
        (List.forall_mem_append.2 ⟨hS.closed x hx, hstack⟩)

end Closed

/-- What a cut walk sees it can reach, too. -/
theorem reaches_of_mem_walkUpTo {bound : ℕ} {y : α} : ∀ (fuel : ℕ) (stack seen : List α),
    y ∈ walkUpTo next bound fuel stack seen → y ∈ seen ∨ ∃ x ∈ stack, Reaches next x y
  | 0, _, _, h => .inl h
  | _ + 1, [], _, h => .inl h
  | fuel + 1, x :: stack, seen, h => by
    have hself : ∀ z ∈ seen ++ [x], z ∈ seen ∨ ∃ w ∈ x :: stack, Reaches next w z := by
      intro z hz
      rcases List.mem_append.1 hz with h | h
      · exact .inl h
      · exact .inr ⟨x, List.mem_cons_self, List.mem_singleton.1 h ▸ ReflTransGen.refl⟩
    rw [walkUpTo] at h
    split_ifs at h with hx hfull
    · rcases reaches_of_mem_walkUpTo fuel stack seen h with h | ⟨z, hz, h⟩
      · exact .inl h
      · exact .inr ⟨z, List.mem_cons_of_mem _ hz, h⟩
    · exact hself _ h
    · rcases reaches_of_mem_walkUpTo fuel _ _ h with h | ⟨z, hz, h⟩
      · exact hself _ h
      · rcases List.mem_append.1 hz with hz | hz
        · exact .inr ⟨x, List.mem_cons_self, h.head hz⟩
        · exact .inr ⟨z, List.mem_cons_of_mem _ hz, h⟩

theorem subset_walkUpTo {bound : ℕ} : ∀ (fuel : ℕ) (stack seen : List α),
    seen ⊆ walkUpTo next bound fuel stack seen
  | 0, _, _ => List.Subset.refl _
  | _ + 1, [], _ => List.Subset.refl _
  | fuel + 1, x :: stack, seen => by
    rw [walkUpTo]
    split_ifs
    · exact subset_walkUpTo fuel stack seen
    · exact List.subset_append_left _ _
    · exact List.Subset.trans (List.subset_append_left _ _) (subset_walkUpTo fuel _ _)

end Search
