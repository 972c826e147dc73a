import Mathlib.Tactic.Common

/-!
# Programs that ask

A program asks its environment, goes on with what it is told, and returns or fails. What holds of
every run that returns, whatever it is told, is found along the text of the program (`Ensures`, with
a rule for each way a program is put together), and holds of all that the program comes to be on the
way (`Run.ensures`). Runs are put together as programs are (`Run.bind`).
-/

/-- A program. `R q` is what a question `q` is answered with. -/
inductive Dialog {Q : Type} (R : Q → Type) (ε α : Type)
  | ret (r : Except ε α)
  | ask (q : Q) (k : R q → Dialog R ε α)

namespace Dialog

variable {Q : Type} {R : Q → Type} {ε α β : Type}

/-- The first failure ends the program. -/
def bind : Dialog R ε α → (α → Dialog R ε β) → Dialog R ε β
  | ret (.ok a), f => f a
  | ret (.error e), _ => ret (.error e)
  | ask q k, f => ask q fun r => (k r).bind f

instance : Monad (Dialog R ε) where
  pure a := ret (.ok a)
  bind := bind

/-- One question. -/
def query (q : Q) : Dialog R ε (R q) := ask q fun r => ret (.ok r)

def lift (x : Except ε α) : Dialog R ε α := ret x

/-- The program, and then nothing, whether it failed or not. -/
def ignore : Dialog R ε α → Dialog R ε Unit
  | ret _ => ret (.ok ())
  | ask q k => ask q fun r => (k r).ignore

/-! ## What every run ensures -/

/-- Behind the answers so far, every run that returns leaves `post` of all answers and its
result. -/
def Ensures (post : List (Sigma R) → α → Prop) : Dialog R ε α → List (Sigma R) → Prop
  | ret (.ok a), trace => post trace a
  | ret (.error _), _ => True
  | ask q k, trace => ∀ r, (k r).Ensures post (trace ++ [⟨q, r⟩])

variable {post : List (Sigma R) → β → Prop} {trace : List (Sigma R)}

theorem ensures_pure {a : β} :
    (pure a : Dialog R ε β).Ensures post trace ↔ post trace a := Iff.rfl

theorem ensures_lift {x : Except ε β} :
    (lift x : Dialog R ε β).Ensures post trace ↔ ∀ a, x = .ok a → post trace a := by
  rcases x with e | a
  · exact iff_of_true trivial nofun
  · exact ⟨fun h _ he => Except.ok.inj he ▸ h, fun h => h a rfl⟩

theorem ensures_query {q : Q} {post : List (Sigma R) → R q → Prop} :
    (query q : Dialog R ε (R q)).Ensures post trace ↔ ∀ r, post (trace ++ [⟨q, r⟩]) r := Iff.rfl

theorem ensures_bind : ∀ {x : Dialog R ε α} {f : α → Dialog R ε β} {trace : List (Sigma R)},
    (x >>= f).Ensures post trace ↔ x.Ensures (fun trace a => (f a).Ensures post trace) trace
  | ret (.ok _), _, _ => Iff.rfl
  | ret (.error _), _, _ => Iff.rfl
  | ask _ k, _, _ => forall_congr' fun r => ensures_bind (x := k r)

/-- A program that cannot return ensures anything behind it. -/
theorem ensures_of_forall (h : ∀ trace a, post trace a) : ∀ (x : Dialog R ε β)
    (trace : List (Sigma R)), x.Ensures post trace
  | ret (.ok a), trace => h trace a
  | ret (.error _), _ => trivial
  | ask q k, trace => fun r => ensures_of_forall h (k r) (trace ++ [⟨q, r⟩])

/-! ## Runs -/

/-- What a program comes to be, answer by answer. -/
inductive Run (p : Dialog R ε α) : List (Sigma R) → Dialog R ε α → Prop
  | nil : Run p [] p
  | step {trace : List (Sigma R)} {q : Q} {k : R q → Dialog R ε α} :
    Run p trace (ask q k) → ∀ r, Run p (trace ++ [⟨q, r⟩]) (k r)

/-- What a program ensures, all that it comes to be ensures. -/
theorem Run.ensures {p p' : Dialog R ε β} (h : p.Run trace p') (hp : p.Ensures post []) :
    p'.Ensures post trace := by
  induction h with
  | nil => exact hp
  | step _ r ih => exact ih r

theorem Run.query (q : Q) (r : R q) :
    (Dialog.query q : Dialog R ε (R q)).Run [⟨q, r⟩] (ret (.ok r)) :=
  .step .nil r

theorem Run.trans {p p' p'' : Dialog R ε α} {trace' : List (Sigma R)} (h : p.Run trace p')
    (h' : p'.Run trace' p'') : p.Run (trace ++ trace') p'' := by
  induction h' with
  | nil => rwa [List.append_nil]
  | step _ r ih =>
    rw [← List.append_assoc]
    exact ih.step r

theorem Run.bind_left {p p' : Dialog R ε α} (h : p.Run trace p') (f : α → Dialog R ε β) :
    (p >>= f).Run trace (p' >>= f) := by
  induction h with
  | nil => exact .nil
  | step _ r ih => exact ih.step r

/-- A run of a part, and behind it one of the rest. -/
theorem Run.bind {p : Dialog R ε α} {a : α} {f : α → Dialog R ε β} {p' : Dialog R ε β}
    {trace' : List (Sigma R)} (h : p.Run trace (ret (.ok a))) (h' : (f a).Run trace' p') :
    (p >>= f).Run (trace ++ trace') p' :=
  (h.bind_left f).trans h'

/-- A part that asks nothing. -/
theorem Run.lift {x : Except ε α} {a : α} {f : α → Dialog R ε β} {p' : Dialog R ε β} (h : x = .ok a)
    (h' : (f a).Run trace p') : (Dialog.lift x >>= f).Run trace p' := by
  subst h
  exact h'

end Dialog
