import Mathlib.Data.List.Perm.Basic
import Mathlib.Data.List.Nodup
import Mathlib.Data.Multiset.AddSub
import Mathlib.Data.Set.Insert
import Mathlib.Tactic.Common

/-!
# Greedy replays

A list of items is replayed against a state that may refuse an item. A refused item is skipped
and leaves no trace: replaying what was kept, in order, refuses nothing and ends in the same
state (`all_kept`). Which items are kept is decided item by item, each at its own place
(`kept_eq_filter`).

Two orders of the same items end in the same state when they only reorder items that commute
(`foldl_perm_of_indep`): the first item of the one order is carried to the front of the other
past items it commutes with, and the rest follows by induction.
-/

namespace Replay

variable {σ α : Type*} (act : σ → α → Option σ)

/-- One item, skipped when the state refuses it. -/
def step (s : σ) (x : α) : σ := (act s x).getD s

/-- The state after a replay that skips what is refused. -/
def greedy (s : σ) (l : List α) : σ := l.foldl (step act) s

/-- The items a replay does not skip. -/
def kept : σ → List α → List α
  | _, [] => []
  | s, x :: l =>
    match act s x with
    | some s' => x :: kept s' l
    | none => kept s l

/-- The items a replay skips. -/
def skipped : σ → List α → List α
  | _, [] => []
  | s, x :: l =>
    match act s x with
    | some s' => skipped s' l
    | none => x :: skipped s l

/-- A replay that stops at the first refusal. -/
def all : σ → List α → Option σ
  | s, [] => some s
  | s, x :: l => (act s x).bind fun s' => all s' l

variable {act}

@[simp] theorem greedy_nil (s : σ) : greedy act s [] = s := rfl

@[simp] theorem greedy_cons (s : σ) (x : α) (l : List α) :
    greedy act s (x :: l) = greedy act (step act s x) l := rfl

theorem step_some {s s' : σ} {x : α} (h : act s x = some s') : step act s x = s' := by
  rw [step, h, Option.getD_some]

theorem step_none {s : σ} {x : α} (h : act s x = none) : step act s x = s := by
  rw [step, h, Option.getD_none]

theorem kept_cons_some {s s' : σ} {x : α} (h : act s x = some s') (l : List α) :
    kept act s (x :: l) = x :: kept act s' l := by
  simp only [kept, h]

theorem kept_cons_none {s : σ} {x : α} (h : act s x = none) (l : List α) :
    kept act s (x :: l) = kept act s l := by
  simp only [kept, h]

theorem all_append (s : σ) (l l' : List α) :
    all act s (l ++ l') = (all act s l).bind fun s' => all act s' l' := by
  induction l generalizing s with
  | nil => rfl
  | cons x l ih =>
    simp only [List.cons_append, all, Option.bind_assoc]
    exact congrArg _ (funext fun s' => ih s')

theorem all_concat (s : σ) (l : List α) (x : α) :
    all act s (l ++ [x]) = (all act s l).bind fun s' => act s' x := by
  rw [all_append]
  refine congrArg _ (funext fun s' => ?_)
  exact Option.bind_fun_some _

/-- What every item that is taken keeps, a replay keeps. -/
theorem all_keeps {Inv : σ → Prop}
    (hstep : ∀ {s x s'}, act s x = some s' → Inv s → Inv s') : ∀ {l : List α} {s s' : σ},
    all act s l = some s' → Inv s → Inv s'
  | [], _, _, h, hs => Option.some.inj h ▸ hs
  | x :: l, s, s', h, hs => by
    obtain ⟨t, ht, hl⟩ := Option.bind_eq_some_iff.1 h
    exact all_keeps hstep hl (hstep ht hs)

theorem kept_sublist (s : σ) (l : List α) : (kept act s l).Sublist l := by
  induction l generalizing s with
  | nil => exact List.Sublist.slnil
  | cons x l ih =>
    rcases h : act s x with _ | s'
    · rw [kept_cons_none h]
      exact (ih s).cons x
    · rw [kept_cons_some h]
      exact (ih s').cons_cons x

theorem skipped_cons_some {s s' : σ} {x : α} (h : act s x = some s') (l : List α) :
    skipped act s (x :: l) = skipped act s' l := by
  simp only [skipped, h]

theorem skipped_cons_none {s : σ} {x : α} (h : act s x = none) (l : List α) :
    skipped act s (x :: l) = x :: skipped act s l := by
  simp only [skipped, h]

/-- Of a list without repetitions, what is not kept is skipped. -/
theorem mem_skipped {x : α} : ∀ {l : List α} {s : σ}, l.Nodup →
    (x ∈ skipped act s l ↔ x ∈ l ∧ x ∉ kept act s l)
  | [], _, _ => by simp [skipped]
  | y :: l, s, h => by
    obtain ⟨hy, hl⟩ := List.nodup_cons.1 h
    rcases hs : act s y with _ | s'
    · have hk : y ∉ kept act s l := fun hm => hy ((kept_sublist s l).subset hm)
      rw [skipped_cons_none hs, kept_cons_none hs, List.mem_cons, List.mem_cons, mem_skipped hl]
      constructor
      · rintro (rfl | ⟨h1, h2⟩)
        · exact ⟨.inl rfl, hk⟩
        · exact ⟨.inr h1, h2⟩
      · rintro ⟨rfl | h1, h2⟩
        · exact .inl rfl
        · exact .inr ⟨h1, h2⟩
    · rw [skipped_cons_some hs, kept_cons_some hs, List.mem_cons, List.mem_cons, mem_skipped hl]
      constructor
      · rintro ⟨h1, h2⟩
        refine ⟨.inr h1, ?_⟩
        rintro (rfl | h3)
        · exact hy h1
        · exact h2 h3
      · rintro ⟨rfl | h1, h2⟩
        · exact absurd (.inl rfl) h2
        · exact ⟨h1, fun h3 => h2 (.inr h3)⟩

/-- Of a list without repetitions, what is not skipped is kept. -/
theorem kept_eq_filter_not_skipped {l : List α} {s : σ} (h : l.Nodup) (p : α → Bool)
    (hp : ∀ x ∈ l, p x = true ↔ x ∉ skipped act s l) : kept act s l = l.filter p := by
  induction l generalizing s with
  | nil => rfl
  | cons x l ih =>
    obtain ⟨hx, hl⟩ := List.nodup_cons.1 h
    have hsub : ∀ s', x ∉ skipped act s' l := fun s' hm => hx ((mem_skipped hl).1 hm).1
    rcases hs : act s x with _ | s'
    · rw [skipped_cons_none hs] at hp
      have hpx : ¬ p x = true := fun h => (hp x List.mem_cons_self).1 h List.mem_cons_self
      rw [kept_cons_none hs, List.filter_cons_of_neg hpx]
      refine ih hl fun y hy => ?_
      rw [hp y (List.mem_cons_of_mem _ hy), List.mem_cons, not_or]
      exact and_iff_right (fun h => hx (h ▸ hy))
    · rw [skipped_cons_some hs] at hp
      have hpx : p x = true := (hp x List.mem_cons_self).2 (hsub s')
      rw [kept_cons_some hs, List.filter_cons_of_pos hpx]
      congr 1
      exact ih hl fun y hy => hp y (List.mem_cons_of_mem _ hy)

theorem kept_append (s : σ) (l l' : List α) :
    kept act s (l ++ l') = kept act s l ++ kept act (greedy act s l) l' := by
  induction l generalizing s with
  | nil => rfl
  | cons x l ih =>
    rcases h : act s x with _ | s'
    · rw [List.cons_append, kept_cons_none h, kept_cons_none h, ih, greedy_cons, step_none h]
    · rw [List.cons_append, kept_cons_some h, kept_cons_some h, ih, greedy_cons, step_some h,
        List.cons_append]

/-- What was skipped leaves no trace. -/
theorem all_kept (s : σ) (l : List α) : all act s (kept act s l) = some (greedy act s l) := by
  induction l generalizing s with
  | nil => rfl
  | cons x l ih =>
    rcases h : act s x with _ | s'
    · rw [kept_cons_none h, ih, greedy_cons, step_none h]
    · rw [kept_cons_some h, all, h, Option.bind_some, ih, greedy_cons, step_some h]

/-- An item that occurs once is kept when the state at its place takes it. -/
theorem mem_kept_iff {s : σ} {l₁ l₂ : List α} {x : α} (h₁ : x ∉ l₁) (h₂ : x ∉ l₂) :
    x ∈ kept act s (l₁ ++ x :: l₂) ↔ (act (greedy act s l₁) x).isSome := by
  have hk : ∀ {l : List α} {s}, x ∉ l → x ∉ kept act s l := fun hx hm =>
    hx ((kept_sublist _ _).subset hm)
  rw [kept_append, List.mem_append]
  rcases hact : act (greedy act s l₁) x with _ | s'
  · rw [kept_cons_none hact]
    simp [hk h₁, hk h₂]
  · rw [kept_cons_some hact]
    simp

section Places

variable {ι : Type*}

/-- A statement about every place of a list, at its head and behind it. -/
theorem forall_places_cons {Q : List ι → ι → Prop} {i : ι} {order : List ι} :
    (∀ pre j post, i :: order = pre ++ j :: post → Q pre j) ↔
      Q [] i ∧ ∀ pre j post, order = pre ++ j :: post → Q (i :: pre) j := by
  refine ⟨fun h => ⟨h [] i order rfl, fun pre j post ho => h (i :: pre) j post (by rw [ho]; rfl)⟩,
    ?_⟩
  rintro ⟨h₁, h₂⟩ pre j post ho
  rcases pre with _ | ⟨k, pre⟩
  · cases ho
    exact h₁
  · cases ho
    exact h₂ pre j post rfl

/-- A place of a list with one more item at its end. -/
theorem concat_eq_append_cons {l pre post : List ι} {x y : ι}
    (h : l ++ [x] = pre ++ y :: post) :
    (y = x ∧ pre = l ∧ post = []) ∨ ∃ post', post = post' ++ [x] ∧ l = pre ++ y :: post' := by
  rcases List.eq_nil_or_concat post with rfl | ⟨post', z, rfl⟩
  · obtain ⟨rfl, hx⟩ := List.append_inj' h rfl
    exact .inl ⟨(List.singleton_inj.1 hx).symm, rfl, rfl⟩
  · rw [List.concat_eq_append, ← List.cons_append, ← List.append_assoc] at h
    obtain ⟨rfl, hz⟩ := List.append_inj' h rfl
    exact .inr ⟨post', by rw [List.concat_eq_append, List.singleton_inj.1 hz], rfl⟩

/-- Of the items `f` names, a replay keeps those `g` names, which it does not refuse, exactly when
`f` names them all, and each other item of `f` is refused at its place behind those of `g`. -/
theorem kept_filterMap_iff {f g : ι → Option α} (key : α → ι) (hf : ∀ i x, f i = some x → key x = i)
    (hg : ∀ i x, g i = some x → key x = i) (hfg : ∀ i x y, f i = some x → g i = some y → x = y) :
    ∀ (order : List ι) {s s₁ : σ}, order.Nodup → all act s (order.filterMap g) = some s₁ →
      (kept act s (order.filterMap f) = order.filterMap g ↔
        ∀ pre i post, order = pre ++ i :: post →
          (∀ x, g i = some x → f i = some x) ∧
          ∀ x s', f i = some x → g i = none → all act s (pre.filterMap g) = some s' →
            act s' x = none)
  | [], s, s₁, _, _ => by simp [kept]
  | i :: order, s, s₁, hnd, hall => by
    obtain ⟨hi, hnd⟩ := List.nodup_cons.1 hnd
    -- an item of this place is not among those behind it
    have hnot : ∀ {h : ι → Option α} {x}, (∀ j y, h j = some y → key y = j) → key x = i →
        x ∉ order.filterMap h := by
      intro h x hh hx hm
      obtain ⟨j, hj, hjx⟩ := List.mem_filterMap.1 hm
      exact hi (hx ▸ hh j x hjx ▸ hj)
    rw [forall_places_cons]
    rcases hfi : f i with _ | x <;> rcases hgi : g i with _ | y
    · rw [List.filterMap_cons_none hfi, List.filterMap_cons_none hgi]
      rw [List.filterMap_cons_none hgi] at hall
      rw [kept_filterMap_iff key hf hg hfg order hnd hall]
      simp [hgi]
    · rw [List.filterMap_cons_none hfi, List.filterMap_cons_some hgi]
      refine iff_of_false (fun h => ?_) (fun h => ?_)
      · have hsub : kept act s (order.filterMap f) ⊆ order.filterMap f := (kept_sublist _ _).subset
        rw [h] at hsub
        exact hnot hf (hg i y hgi) (hsub List.mem_cons_self)
      · have := h.1.1 y rfl
        cases this
    · rw [List.filterMap_cons_some hfi, List.filterMap_cons_none hgi]
      rw [List.filterMap_cons_none hgi] at hall
      rcases hact : act s x with _ | s'
      · rw [kept_cons_none hact, kept_filterMap_iff key hf hg hfg order hnd hall]
        simp [List.filterMap_cons_none hgi, all, hact]
      · rw [kept_cons_some hact]
        refine iff_of_false (fun h => ?_) (fun h => ?_)
        · refine hnot hg (hf i x hfi) ?_
          rw [← h]
          exact List.mem_cons_self
        · have := h.1.2 x s rfl rfl rfl
          rw [hact] at this
          cases this
    · obtain rfl := hfg i x y hfi hgi
      rw [List.filterMap_cons_some hfi, List.filterMap_cons_some hgi]
      rw [List.filterMap_cons_some hgi] at hall
      obtain ⟨s', hact, hall⟩ := Option.bind_eq_some_iff.1 hall
      rw [kept_cons_some hact, List.cons.injEq, kept_filterMap_iff key hf hg hfg order hnd hall]
      have hpre : ∀ pre : List ι, all act s ((i :: pre).filterMap g)
          = all act s' (pre.filterMap g) := by
        intro pre
        rw [List.filterMap_cons_some hgi, all, hact, Option.bind_some]
      simp [hpre]
end Places

/-! ## Orders that differ in items that commute -/

section Perm

variable {f : σ → α → σ} (indep : α → α → Prop) (Inv : Multiset α → σ → Prop)

/-- An item commutes to the front past items it is independent of. What is known of the state is
said in terms of the items still to come. -/
theorem foldl_bubble (hstep : ∀ R s x, Inv (x ::ₘ R) s → Inv R (f s x))
    (hcomm : ∀ R s x y, Inv (x ::ₘ y ::ₘ R) s → indep x y → f (f s y) x = f (f s x) y) (u : α) :
    ∀ (p : List α) (R : Multiset α) (s : σ), Inv (u ::ₘ (↑p + R)) s → (∀ v ∈ p, indep u v) →
      f (p.foldl f s) u = p.foldl f (f s u)
  | [], _, _, _, _ => rfl
  | v :: p, R, s, hI, hind => by
    rw [← Multiset.cons_coe, Multiset.cons_add] at hI
    have hI' := hI
    rw [Multiset.cons_swap] at hI'
    have ih := foldl_bubble hstep hcomm u p R _ (hstep _ s v hI')
      fun w hw => hind w (List.mem_cons_of_mem _ hw)
    rw [List.foldl_cons, ih, hcomm _ s u v hI (hind v List.mem_cons_self), List.foldl_cons]

/-- Two orders of the same items, in which items that do not commute keep their order, end in the
same state. -/
theorem foldl_perm_of_indep (hstep : ∀ R s x, Inv (x ::ₘ R) s → Inv R (f s x))
    (hcomm : ∀ R s x y, Inv (x ::ₘ y ::ₘ R) s → indep x y → f (f s y) x = f (f s x) y) :
    ∀ (l₁ l₂ : List α) (s : σ), Inv ↑l₁ s → l₁.Perm l₂ →
      (∀ x y, [x, y].Sublist l₁ → [y, x].Sublist l₂ → indep x y) → l₁.foldl f s = l₂.foldl f s
  | [], l₂, _, _, hp, _ => by rw [List.nil_perm.1 hp]
  | u :: t, l₂, s, hI, hp, hind => by
    obtain ⟨p, q, rfl⟩ := List.append_of_mem (hp.subset List.mem_cons_self)
    have hpq : t.Perm (p ++ q) := List.perm_cons u |>.1 (hp.trans List.perm_middle)
    have hfront : ∀ v ∈ p, indep u v := by
      intro v hv
      refine hind u v ?_ ?_
      · exact (List.singleton_sublist.2 (hpq.symm.subset (List.mem_append_left _ hv))).cons_cons u
      · exact (List.singleton_sublist.2 hv).append
          (List.singleton_sublist.2 List.mem_cons_self)
    rw [← Multiset.cons_coe] at hI
    have ih := foldl_perm_of_indep hstep hcomm t (p ++ q) (f s u) (hstep _ s u hI) hpq ?_
    · rw [Multiset.coe_eq_coe.2 hpq, ← Multiset.coe_add] at hI
      rw [List.foldl_cons, ih, List.foldl_append, List.foldl_append, List.foldl_cons,
        foldl_bubble indep Inv hstep hcomm u p q s hI hfront]
    · intro x y hx hy
      refine hind x y (hx.cons u) (hy.trans ?_)
      exact (List.sublist_cons_self u q).append_left p

/-- A step that also notes what it skips. -/
def noteStep (act : σ → α → Option σ) (s : σ × Set α) (x : α) : σ × Set α :=
  match act s.1 x with
  | some s' => (s', s.2)
  | none => (s.1, insert x s.2)

theorem foldl_noteStep : ∀ (l : List α) (s : σ) (S : Set α),
    l.foldl (noteStep act) (s, S) = (greedy act s l, S ∪ {x | x ∈ skipped act s l})
  | [], s, S => by simp [skipped]
  | x :: l, s, S => by
    rcases h : act s x with _ | s'
    · rw [List.foldl_cons, noteStep, h, foldl_noteStep l, greedy_cons, step_none h,
        skipped_cons_none h]
      refine Prod.ext rfl (Set.ext fun y => ?_)
      simp [or_assoc, or_left_comm]
    · rw [List.foldl_cons, noteStep, h, foldl_noteStep l, greedy_cons, step_some h,
        skipped_cons_some h]

/-- Two orders of the same items, in which items that bear on each other keep their order, end in
the same state and skip the same items. -/
theorem greedy_perm_of_indep (hstep : ∀ R s x, Inv (x ::ₘ R) s → Inv R (step act s x))
    (hbear : ∀ R s x y, Inv (x ::ₘ y ::ₘ R) s → indep x y →
      ((act (step act s y) x).isSome ↔ (act s x).isSome)
        ∧ ((act (step act s x) y).isSome ↔ (act s y).isSome))
    (hcomm : ∀ R s x y, Inv (x ::ₘ y ::ₘ R) s → indep x y →
      step act (step act s y) x = step act (step act s x) y)
    {l₁ l₂ : List α} {s : σ} (hI : Inv ↑l₁ s) (hp : l₁.Perm l₂)
    (hind : ∀ x y, [x, y].Sublist l₁ → [y, x].Sublist l₂ → indep x y) :
    greedy act s l₁ = greedy act s l₂ ∧ ∀ x, x ∈ skipped act s l₁ ↔ x ∈ skipped act s l₂ := by
  have hnote : ∀ (s : σ × Set α) x, noteStep act s x
      = (step act s.1 x, if (act s.1 x).isSome then s.2 else insert x s.2) := by
    intro s x
    unfold noteStep
    rcases h : act s.1 x with _ | s'
    · rw [step_none h]
      rfl
    · rw [step_some h]
      rfl
  have h := foldl_perm_of_indep (f := noteStep act) indep (fun R s => Inv R s.1)
    (fun R s x h => by rw [hnote]; exact hstep R s.1 x h)
    (fun R s x y h hxy => by
      obtain ⟨h1, h2⟩ := hbear R s.1 x y h hxy
      simp only [hnote, hcomm R s.1 x y h hxy, h1, h2]
      split_ifs
      · rfl
      · rfl
      · rfl
      · rw [Set.insert_comm])
    l₁ l₂ (s, ∅) hI hp hind
  rw [foldl_noteStep, foldl_noteStep, Set.empty_union, Set.empty_union] at h
  obtain ⟨h1, h2⟩ := Prod.ext_iff.1 h
  exact ⟨h1, fun x => Set.ext_iff.1 h2 x⟩

end Perm

end Replay
