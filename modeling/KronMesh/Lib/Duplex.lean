import Mathlib.Data.List.Basic
import Mathlib.Logic.Relation
import Mathlib.Tactic.Common

/-!
# Two parties and a queue each way

Each of two parties writes, reads or has stopped, as its state says; what is written waits in order
until the other side reads it, and a party with nothing to read waits. The order in which the two
take turns makes no difference (`Step.diamond`): when one run ends, every run can be continued to
the same end, and none is longer (`ends_of_reaches`). So it is enough to follow one of them, one
party at a time (`Moves.left_turn`, `Moves.right_turn`).
-/

namespace Duplex

open Relation

/-- What a party does next. -/
inductive Act (σ μ ρ : Type*)
  | write (m : μ) (s : σ)
  | read (k : μ → σ)
  | stop (r : ρ)

/-- Both parties, and the messages under way to each. -/
structure Config (σ μ : Type*) where
  left : σ
  right : σ
  toLeft : List μ
  toRight : List μ

variable {σ μ ρ : Type*} (act : σ → Act σ μ ρ)

/-- One turn of a party: what it reads, and what it writes. -/
inductive Move : σ → List μ → List μ → σ → Prop
  | write {s s' : σ} {m : μ} : act s = .write m s' → Move s [] [m] s'
  | read {s : σ} {k : μ → σ} {m : μ} : act s = .read k → Move s [m] [] (k m)

inductive Step : Config σ μ → Config σ μ → Prop
  | left {c : Config σ μ} {l : σ} {ins outs rest : List μ} : Move act c.left ins outs l →
    c.toLeft = ins ++ rest → Step c ⟨l, c.right, rest, c.toRight ++ outs⟩
  | right {c : Config σ μ} {r : σ} {ins outs rest : List μ} : Move act c.right ins outs r →
    c.toRight = ins ++ rest → Step c ⟨c.left, r, c.toLeft ++ outs, rest⟩

/-- A run of so many turns. -/
inductive Steps : ℕ → Config σ μ → Config σ μ → Prop
  | refl (c : Config σ μ) : Steps 0 c c
  | head {n : ℕ} {c c' f : Config σ μ} : Step act c c' → Steps n c' f → Steps (n + 1) c f

/-- Every run from `c` is the beginning of one to `f`, and all of these take as many turns. -/
def Ends (c f : Config σ μ) : Prop :=
  ∃ n, ∀ k c', Steps act k c c' → k ≤ n ∧ Steps act (n - k) c' f

/-- Several turns of a party: all it reads, and all it writes. -/
inductive Moves : σ → List μ → List μ → σ → Prop
  | refl (s : σ) : Moves s [] [] s
  | head {s s' t : σ} {i i' o o' : List μ} :
    Move act s i o s' → Moves s' i' o' t → Moves s (i ++ i') (o ++ o') t

variable {act} {c c₁ c₂ f : Config σ μ} {n : ℕ}

/-- What a party does is settled by what waits for it. -/
theorem Move.unique {s s₁ s₂ : σ} {i₁ i₂ o₁ o₂ q₁ q₂ : List μ} (h₁ : Move act s i₁ o₁ s₁)
    (h₂ : Move act s i₂ o₂ s₂) (hq : i₁ ++ q₁ = i₂ ++ q₂) : s₁ = s₂ ∧ o₁ = o₂ ∧ q₁ = q₂ := by
  cases h₁ with
  | write h =>
    cases h₂ with
    | write h' =>
      rw [h] at h'
      cases h'
      exact ⟨rfl, rfl, hq⟩
    | read h' =>
      rw [h] at h'
      cases h'
  | read h =>
    cases h₂ with
    | write h' =>
      rw [h] at h'
      cases h'
    | read h' =>
      rw [h] at h'
      cases h'
      cases hq
      exact ⟨rfl, rfl, rfl⟩

theorem Move.length {s s' : σ} {i o : List μ} (h : Move act s i o s') :
    i.length + o.length = 1 := by
  cases h with
  | write _ => rfl
  | read _ => rfl

/-- Two turns from one configuration are the same, or those of two parties, which come to the same
in either order. -/
theorem Step.diamond (h₁ : Step act c c₁) (h₂ : Step act c c₂) :
    c₁ = c₂ ∨ ∃ c₃, Step act c₁ c₃ ∧ Step act c₂ c₃ := by
  cases h₁ with
  | left hm hq =>
    cases h₂ with
    | left hm' hq' =>
      obtain ⟨rfl, rfl, rfl⟩ := hm.unique hm' (hq.symm.trans hq')
      exact .inl rfl
    | right hm' hq' =>
      exact .inr ⟨_, .right hm' (by rw [hq', List.append_assoc]),
        .left hm (by rw [hq, List.append_assoc])⟩
  | right hm hq =>
    cases h₂ with
    | left hm' hq' =>
      exact .inr ⟨_, .left hm' (by rw [hq', List.append_assoc]),
        .right hm (by rw [hq, List.append_assoc])⟩
    | right hm' hq' =>
      obtain ⟨rfl, rfl, rfl⟩ := hm.unique hm' (hq.symm.trans hq')
      exact .inl rfl

theorem Steps.trans {m : ℕ} (h : Steps act n c c₁) (h' : Steps act m c₁ c₂) :
    Steps act (n + m) c c₂ := by
  induction h with
  | refl =>
    rw [Nat.zero_add]
    exact h'
  | head hstep _ ih =>
    rw [Nat.succ_add]
    exact .head hstep (ih h')

theorem Steps.concat (h : Steps act n c c₁) (hstep : Step act c₁ c₂) : Steps act (n + 1) c c₂ :=
  h.trans (.head hstep (.refl _))

theorem Steps.of_eq {m : ℕ} (h : Steps act n c c₁) (hn : n = m) : Steps act m c c₁ := hn ▸ h

theorem Steps.reaches (h : Steps act n c c₁) : ReflTransGen (Step act) c c₁ := by
  induction h with
  | refl => exact .refl
  | head hstep _ ih => exact .head hstep ih

/-- A run to an end loses nothing by any first turn. -/
theorem Steps.strip (hf : ∀ c', ¬ Step act f c') : ∀ {n : ℕ} {c c' : Config σ μ},
    Steps act n c f → Step act c c' → ∃ m, n = m + 1 ∧ Steps act m c' f
  | 0, _, _, .refl _, hstep => absurd hstep (hf _)
  | n + 1, c, c', .head hfirst hrest, hstep => by
    refine ⟨n, rfl, ?_⟩
    rcases hfirst.diamond hstep with rfl | ⟨c₃, h₁, h₂⟩
    · exact hrest
    · obtain ⟨m, rfl, hm⟩ := Steps.strip hf hrest h₁
      exact .head h₂ hm

/-- Any run from `c` can be continued to `f`, where a run of so many turns ends. -/
theorem Steps.to_end (h : Steps act n c f) (hf : ∀ c', ¬ Step act f c') {k : ℕ} {c' : Config σ μ}
    (hk : Steps act k c c') : k ≤ n ∧ Steps act (n - k) c' f := by
  induction hk generalizing n with
  | refl => exact ⟨Nat.zero_le n, h⟩
  | head hstep _ ih =>
    obtain ⟨m, rfl, hm⟩ := h.strip hf hstep
    obtain ⟨hle, hto⟩ := ih hm
    exact ⟨Nat.succ_le_succ hle, by rwa [Nat.add_sub_add_right]⟩

theorem ends_of_steps (h : Steps act n c f) (hf : ∀ c', ¬ Step act f c') : Ends act c f :=
  ⟨n, fun _ _ hk => h.to_end hf hk⟩

theorem exists_steps (h : ReflTransGen (Step act) c f) : ∃ n, Steps act n c f := by
  induction h using ReflTransGen.head_induction_on with
  | refl => exact ⟨0, .refl f⟩
  | head hstep _ ih =>
    obtain ⟨n, hn⟩ := ih
    exact ⟨n + 1, .head hstep hn⟩

/-- Where one run ends, all do. -/
theorem ends_of_reaches (h : ReflTransGen (Step act) c f) (hf : ∀ c', ¬ Step act f c') :
    Ends act c f := by
  obtain ⟨n, hn⟩ := exists_steps h
  exact ends_of_steps hn hf

/-- There is one end. -/
theorem Ends.unique {f' : Config σ μ} (h : Ends act c f) (h' : Ends act c f') : f = f' := by
  obtain ⟨n, hn⟩ := h
  obtain ⟨m, hm⟩ := h'
  have hf := (hn 0 c (.refl c)).2
  have hf' := (hm 0 c (.refl c)).2
  have hnm := (hm n f hf).1
  obtain ⟨hmn, hlast⟩ := hn m f' hf'
  have heq : m = n := Nat.le_antisymm hmn hnm
  rw [heq, Nat.sub_self] at hlast
  cases hlast
  rfl

theorem not_step_of_stop {r r' : ρ} (hl : act c.left = .stop r) (hr : act c.right = .stop r')
    (c' : Config σ μ) : ¬ Step act c c' := by
  intro h
  cases h with
  | left hm _ => cases hm with
    | write h | read h =>
      rw [hl] at h
      cases h
  | right hm _ => cases hm with
    | write h | read h =>
      rw [hr] at h
      cases h

/-- A party that has stopped reads no more of what is under way to it. -/
theorem not_step_of_rest_stop {l r : σ} {q : ρ} {tr : List μ} (hl : ∀ m s, act l ≠ .write m s)
    (hr : act r = .stop q) (c' : Config σ μ) : ¬ Step act ⟨l, r, [], tr⟩ c' := by
  intro h
  cases h with
  | left hm hq => cases hm with
    | write h => exact hl _ _ h
    | read h => cases hq
  | right hm hq => cases hm with
    | write h | read h =>
      rw [hr] at h
      cases h

/-! ## Renaming the states -/

section Map

variable {τ : Type*} {act' : τ → Act τ μ ρ} {F : σ → τ}

def Act.map (F : σ → τ) : Act σ μ ρ → Act τ μ ρ
  | .write m s => .write m (F s)
  | .read k => .read fun m => F (k m)
  | .stop r => .stop r

def Config.map (F : σ → τ) (c : Config σ μ) : Config τ μ :=
  ⟨F c.left, F c.right, c.toLeft, c.toRight⟩

theorem Move.map (hF : ∀ s, act' (F s) = (act s).map F) {s s' : σ} {i o : List μ}
    (h : Move act s i o s') : Move act' (F s) i o (F s') := by
  cases h with
  | write h =>
    refine .write ?_
    rw [hF, h]
    rfl
  | @read k m h =>
    have hread : act' (F s) = .read fun m => F (k m) := by
      rw [hF, h]
      rfl
    exact .read hread

/-- Where the states of one system stand for those of another, its runs are runs there. -/
theorem Steps.map (hF : ∀ s, act' (F s) = (act s).map F) (h : Steps act n c f) :
    Steps act' n (c.map F) (f.map F) := by
  induction h with
  | refl => exact .refl _
  | head hstep _ ih =>
    refine .head ?_ ih
    cases hstep with
    | left hm hq => exact .left (hm.map hF) hq
    | right hm hq => exact .right (hm.map hF) hq

end Map

/-! ## One party at a time -/

section Local

variable {s s' t : σ} {i i' o o' ins outs : List μ} {m : μ}

theorem Moves.write (h : act s = .write m s') (hrest : Moves act s' ins outs t) :
    Moves act s ins (m :: outs) t :=
  .head (.write h) hrest

theorem Moves.read {k : μ → σ} (h : act s = .read k) (hrest : Moves act (k m) ins outs t) :
    Moves act s (m :: ins) outs t :=
  .head (.read h) hrest

theorem Moves.trans (h : Moves act s i o s') (h' : Moves act s' i' o' t) :
    Moves act s (i ++ i') (o ++ o') t := by
  induction h with
  | refl => exact h'
  | head hm _ ih =>
    rw [List.append_assoc, List.append_assoc]
    exact .head hm (ih h')

/-- The left party takes its turns: one for each message that it reads or writes. -/
theorem Moves.left_steps {l r : σ} (h : Moves act s ins outs l) : ∀ tl tr : List μ,
    Steps act (ins.length + outs.length) ⟨s, r, ins ++ tl, tr⟩ ⟨l, r, tl, tr ++ outs⟩ := by
  induction h with
  | refl =>
    intro tl tr
    rw [List.append_nil]
    exact .refl _
  | @head _ _ _ i i' o o' hm _ ih =>
    intro tl tr
    have hone := hm.length
    have hlen : (i ++ i').length + (o ++ o').length = (i'.length + o'.length) + 1 := by
      rw [List.length_append, List.length_append]
      omega
    rw [hlen]
    refine .head (.left hm (List.append_assoc ..)) ?_
    have hrest := ih tl (tr ++ o)
    rwa [List.append_assoc] at hrest

theorem Moves.right_steps {l r : σ} (h : Moves act s ins outs r) : ∀ tl tr : List μ,
    Steps act (ins.length + outs.length) ⟨l, s, tl, ins ++ tr⟩ ⟨l, r, tl ++ outs, tr⟩ := by
  induction h with
  | refl =>
    intro tl tr
    rw [List.append_nil]
    exact .refl _
  | @head _ _ _ i i' o o' hm _ ih =>
    intro tl tr
    have hone := hm.length
    have hlen : (i ++ i').length + (o ++ o').length = (i'.length + o'.length) + 1 := by
      rw [List.length_append, List.length_append]
      omega
    rw [hlen]
    refine .head (.right hm (List.append_assoc ..)) ?_
    have hrest := ih (tl ++ o) tr
    rwa [List.append_assoc] at hrest

/-- A party reads all that waits for it, and nothing waits for the other. -/
theorem Moves.left_turn_steps {l r : σ} (h : Moves act s ins outs l) :
    Steps act (ins.length + outs.length) ⟨s, r, ins, []⟩ ⟨l, r, [], outs⟩ := by
  have hsteps := h.left_steps (r := r) [] []
  rwa [List.append_nil, List.nil_append] at hsteps

theorem Moves.right_turn_steps {l r : σ} (h : Moves act s ins outs r) :
    Steps act (ins.length + outs.length) ⟨l, s, [], ins⟩ ⟨l, r, outs, []⟩ := by
  have hsteps := h.right_steps (l := l) [] []
  rwa [List.append_nil, List.nil_append] at hsteps

theorem Moves.left_turn {l r : σ} (h : Moves act s ins outs l) :
    ReflTransGen (Step act) ⟨s, r, ins, []⟩ ⟨l, r, [], outs⟩ := h.left_turn_steps.reaches

theorem Moves.right_turn {l r : σ} (h : Moves act s ins outs r) :
    ReflTransGen (Step act) ⟨l, s, [], ins⟩ ⟨l, r, outs, []⟩ := h.right_turn_steps.reaches

end Local

end Duplex
