import Mathlib.Tactic.Common

/-!
# Mutation that may fail

A function on `&mut self` that returns a `Result` leaves a state behind also when it fails. Its
outcome is the pair of both; `andThen` is the `?` between two of them.
-/

/-- The state left behind, and the result. -/
abbrev Outcome (σ ε : Type*) := σ × Except ε Unit

namespace Outcome

variable {σ ε ε' : Type*}

/-- `r?; f` -/
def andThen (r : Outcome σ ε) (f : σ → Outcome σ ε) : Outcome σ ε :=
  match r.2 with
  | .ok () => f r.1
  | .error e => (r.1, .error e)

/-- `r.map_err(g)` -/
def mapErr (r : Outcome σ ε) (g : ε → ε') : Outcome σ ε' :=
  match r.2 with
  | .ok () => (r.1, .ok ())
  | .error e => (r.1, .error (g e))

@[simp] theorem andThen_ok (s : σ) (f : σ → Outcome σ ε) : andThen (s, .ok ()) f = f s := rfl

@[simp] theorem andThen_error (s : σ) (e : ε) (f : σ → Outcome σ ε) :
    andThen (s, .error e) f = (s, .error e) := rfl

theorem of_snd_ok {r : Outcome σ ε} (h : r.2 = .ok ()) : ∃ s, r = (s, .ok ()) :=
  ⟨r.1, Prod.ext rfl h⟩

theorem andThen_eq_ok {r : Outcome σ ε} {f : σ → Outcome σ ε} {s' : σ} :
    andThen r f = (s', .ok ()) ↔ ∃ s, r = (s, .ok ()) ∧ f s = (s', .ok ()) := by
  obtain ⟨s, e | ⟨⟨⟩⟩⟩ := r <;> simp

/-- What the first part keeps, and the second from any state the first may leave, is kept. -/
theorem andThen_fst (Inv : σ → Prop) {r : Outcome σ ε} {f : σ → Outcome σ ε} (h : Inv r.1)
    (hf : ∀ s, r = (s, .ok ()) → Inv (f s).1) : Inv (andThen r f).1 := by
  obtain ⟨s, e | ⟨⟨⟩⟩⟩ := r
  · exact h
  · exact hf s rfl

@[simp] theorem mapErr_fst (r : Outcome σ ε) (g : ε → ε') : (mapErr r g).1 = r.1 := by
  obtain ⟨s, e | ⟨⟨⟩⟩⟩ := r <;> rfl

theorem mapErr_eq_ok {r : Outcome σ ε} {g : ε → ε'} {s : σ} :
    mapErr r g = (s, .ok ()) ↔ r = (s, .ok ()) := by
  obtain ⟨s', e | ⟨⟨⟩⟩⟩ := r <;> simp [mapErr]

end Outcome
