import KronMesh.Lib.Dialog
import KronMesh.Lib.Duplex

/-!
# Two programs that talk

A program that asks is a party of `Duplex` once it is said which of its questions are answered on
the spot, which write to the other side and which read from it. A program that fails closes its end:
behind all that it has written the other side reads that there is no more. What such a party does is
found along the text of the program, with a rule for each way it goes on.
-/

namespace Dialog

open Duplex

/-- How a question is answered: on the spot, once a message is out, or by the message that is read,
which is `none` when there is no more. -/
inductive Answer (μ ρ : Type)
  | here (r : ρ)
  | send (m : μ) (r : ρ)
  | recv (k : Option μ → ρ)

/-- What is left to be written and read. -/
inductive Talk (μ ρ : Type)
  | stop (r : ρ)
  | send (m : Option μ) (t : Talk μ ρ)
  | recv (k : Option μ → Talk μ ρ)

variable {Q : Type} {R : Q → Type} {ε α β μ ρ : Type}

/-- A program with its answers. -/
def talk (answer : ∀ q, Answer μ (R q)) : Dialog R ε α → Talk μ (Except ε α)
  | ret (.ok a) => .stop (.ok a)
  | ret (.error e) => .send none (.stop (.error e))
  | ask q k =>
    match answer q with
    | .here r => talk answer (k r)
    | .send m r => .send (some m) (talk answer (k r))
    | .recv f => .recv fun m => talk answer (k (f m))

def talkAct : Talk μ ρ → Act (Talk μ ρ) (Option μ) ρ
  | .stop r => .stop r
  | .send m t => .write m t
  | .recv k => .read k

/-- From this program the other one reads and writes so much, and is there. -/
abbrev Talks (answer : ∀ q, Answer μ (R q)) (p : Dialog R ε α) (ins outs : List (Option μ))
    (t : Talk μ (Except ε α)) : Prop :=
  Moves talkAct (talk answer p) ins outs t

variable {answer : ∀ q, Answer μ (R q)} {q : Q} {f : R q → Dialog R ε α} {g : β → Dialog R ε α}
  {x : Except ε β} {ins outs : List (Option μ)} {t : Talk μ (Except ε α)}

theorem talks_ok {a : α} : Talks answer (ret (.ok a) : Dialog R ε α) [] [] (.stop (.ok a)) :=
  .refl _

/-- A part that fails ends the program, and closes. -/
theorem talks_error {e : ε} (h : x = .error e) :
    Talks answer (lift x >>= g) [] [none] (.stop (.error e)) := by
  subst h
  exact .write rfl (.refl _)

theorem talks_lift {b : β} (h : x = .ok b) (hrest : Talks answer (g b) ins outs t) :
    Talks answer (lift x >>= g) ins outs t := by
  subst h
  exact hrest

theorem talks_here {r : R q} (h : answer q = .here r) (hrest : Talks answer (f r) ins outs t) :
    Talks answer (query q >>= f) ins outs t := by
  change Moves talkAct (talk answer (ask q f)) _ _ _
  rw [talk, h]
  exact hrest

theorem talks_send {m : μ} {r : R q} (h : answer q = .send m r)
    (hrest : Talks answer (f r) ins outs t) :
    Talks answer (query q >>= f) ins (some m :: outs) t := by
  change Moves talkAct (talk answer (ask q f)) _ _ _
  rw [talk, h]
  exact .write rfl hrest

theorem talks_recv {k : Option μ → R q} {m : Option μ} (h : answer q = .recv k)
    (hrest : Talks answer (f (k m)) ins outs t) :
    Talks answer (query q >>= f) (m :: ins) outs t := by
  change Moves talkAct (talk answer (ask q f)) _ _ _
  rw [talk, h]
  exact .read rfl hrest

end Dialog
