import KronMesh.Lib.Duplex
import Mathlib.Algebra.Order.BigOperators.Group.Finset
import Mathlib.Data.Fintype.Basic
import Mathlib.Data.List.Infix
import Mathlib.Logic.Function.Basic

/-!
# Threads over a shared state

Each thread serves a peer of its own, to which a queue joins it each way, and all threads reach one
state, one access at a time: between two accesses of a thread the others may make something else of
it. What a thread does is settled by what its accesses find, its views. So for given views a thread
and its peer are two parties as in `Duplex`, and a run of the whole system is a run of the two for
each of them (`steps_of_reaches`). Threads that do their part for all views that are good and grow
then do it beside each other (`Contract.safe`, `Contract.stopped`).
-/

namespace Serving

open Duplex Relation

/-- What is left of a thread: an access finds the shared state and leaves another. -/
inductive Thread (ι γ μ ρ : Type*)
  | stop (r : ρ)
  | write (m : μ) (k : Thread ι γ μ ρ)
  | read (k : μ → Thread ι γ μ ρ)
  | access (f : γ → γ) (k : γ → Thread ι γ μ ρ)
  /-- Back to the head of a loop, where a message is read. -/
  | loop (i : ι)

/-- A thread and its peer, and the messages under way to each. -/
structure Session (ι γ μ ρ σ : Type*) where
  thread : Thread ι γ μ ρ
  /-- What every access has found, and what it has left. -/
  log : List (γ × γ)
  peer : σ
  toThread : List μ
  toPeer : List μ
  turns : ℕ

structure System (κ ι γ μ ρ σ : Type*) where
  shared : γ
  session : κ → Session ι γ μ ρ σ

variable {κ ι γ μ ρ σ : Type*} (body : ι → μ → Thread ι γ μ ρ) (act : σ → Act σ μ ρ)

/-- A turn of a thread or of its peer. -/
inductive Turn : γ → Session ι γ μ ρ σ → γ → Session ι γ μ ρ σ → Prop
  | access {g : γ} {s : Session ι γ μ ρ σ} {f : γ → γ} {k : γ → Thread ι γ μ ρ} :
    s.thread = .access f k →
      Turn g s (f g) { s with thread := k g, log := s.log ++ [(g, f g)], turns := s.turns + 1 }
  | write {g : γ} {s : Session ι γ μ ρ σ} {m : μ} {k : Thread ι γ μ ρ} : s.thread = .write m k →
      Turn g s g { s with thread := k, toPeer := s.toPeer ++ [m], turns := s.turns + 1 }
  | read {g : γ} {s : Session ι γ μ ρ σ} {k : μ → Thread ι γ μ ρ} {m : μ} {rest : List μ} :
    s.thread = .read k → s.toThread = m :: rest →
      Turn g s g { s with thread := k m, toThread := rest, turns := s.turns + 1 }
  | loop {g : γ} {s : Session ι γ μ ρ σ} {i : ι} {m : μ} {rest : List μ} :
    s.thread = .loop i → s.toThread = m :: rest →
      Turn g s g { s with thread := body i m, toThread := rest, turns := s.turns + 1 }
  | peer {g : γ} {s : Session ι γ μ ρ σ} {p : σ} {ins outs rest : List μ} :
    Move act s.peer ins outs p → s.toPeer = ins ++ rest →
      Turn g s g { s with
        peer := p, toPeer := rest, toThread := s.toThread ++ outs, turns := s.turns + 1 }

/-- A turn in one of the sessions, or what `other` makes of the shared state. -/
inductive Step [DecidableEq κ] (other : γ → γ → Prop) :
    System κ ι γ μ ρ σ → System κ ι γ μ ρ σ → Prop
  | turn {c : System κ ι γ μ ρ σ} {i : κ} {g : γ} {s : Session ι γ μ ρ σ} :
    Turn body act c.shared (c.session i) g s → Step other c ⟨g, Function.update c.session i s⟩
  | other {c : System κ ι γ μ ρ σ} {g : γ} : other c.shared g → Step other c ⟨g, c.session⟩

/-! ## Given views -/

/-- A thread that has made all its accesses up to where it reads, writes or stops. -/
def settle (V : ℕ → γ) : List (γ × γ) → Thread ι γ μ ρ → List (γ × γ) × Act (Thread ι γ μ ρ) μ ρ
  | log, .stop r => (log, .stop r)
  | log, .write m k => (log, .write m k)
  | log, .read k => (log, .read k)
  | log, .loop i => (log, .read (body i))
  | log, .access f k =>
    settle V (log ++ [(V log.length, f (V log.length))]) (k (V log.length))

abbrev Party (ι γ μ ρ σ : Type*) := σ ⊕ List (γ × γ) × Act (Thread ι γ μ ρ) μ ρ

/-- What a party does next: the peer, or a thread with the views `V`. -/
def partyAct (V : ℕ → γ) : Party ι γ μ ρ σ → Act (Party ι γ μ ρ σ) μ ρ
  | .inl p =>
    match act p with
    | .write m p' => .write m (.inl p')
    | .read k => .read fun m => .inl (k m)
    | .stop r => .stop r
  | .inr (log, .write m k) => .write m (.inr (settle body V log k))
  | .inr (log, .read k) => .read fun m => .inr (settle body V log (k m))
  | .inr (_, .stop r) => .stop r

/-- A session as two parties, the peer on the left. -/
def view (V : ℕ → γ) (s : Session ι γ μ ρ σ) : Config (Party ι γ μ ρ σ) μ :=
  ⟨.inl s.peer, .inr (settle body V s.log s.thread), s.toPeer, s.toThread⟩

/-- The accesses have found what `V` says. -/
def Sees (V : ℕ → γ) (log : List (γ × γ)) : Prop := ∀ n e, log[n]? = some e → V n = e.1

/-- What the accesses have found, and `g` from then on. -/
def viewsOf (log : List (γ × γ)) (g : γ) (n : ℕ) : γ := (log[n]?).elim g Prod.fst

variable {body act} {V : ℕ → γ} {log : List (γ × γ)} {t : Thread ι γ μ ρ} {g g' : γ}
  {s s' : Session ι γ μ ρ σ}

theorem sees_viewsOf (log : List (γ × γ)) (g : γ) : Sees (viewsOf log g) log := by
  intro n e he
  rw [viewsOf, he]
  rfl

theorem viewsOf_length (log : List (γ × γ)) (g : γ) : viewsOf log g log.length = g := by
  rw [viewsOf, List.getElem?_eq_none le_rfl]
  rfl

theorem viewsOf_cases (log : List (γ × γ)) (g : γ) (n : ℕ) :
    (∃ e ∈ log, viewsOf log g n = e.1) ∨ viewsOf log g n = g := by
  unfold viewsOf
  cases he : log[n]? with
  | some e => exact .inl ⟨e, List.mem_of_getElem? he, rfl⟩
  | none => exact .inr rfl

theorem Sees.of_append {more : List (γ × γ)} (h : Sees V (log ++ more)) : Sees V log := by
  intro n e he
  refine h n e ?_
  rw [List.getElem?_append_left (List.getElem?_eq_some_iff.1 he).1, he]

theorem Sees.last {e : γ × γ} (h : Sees V (log ++ [e])) : V log.length = e.1 :=
  h _ e List.getElem?_concat_length

/-- No access is undone. -/
theorem prefix_settle (V : ℕ → γ) : ∀ (t : Thread ι γ μ ρ) (log : List (γ × γ)),
    log <+: (settle body V log t).1
  | .stop _, _ | .write _ _, _ | .read _, _ | .loop _, _ => List.prefix_rfl
  | .access _ k, log => (List.prefix_append log _).trans (prefix_settle V (k _) _)

theorem peer_move {p p' : σ} {ins outs : List μ} (h : Move act p ins outs p') :
    Move (partyAct body act V) (.inl p) ins outs (.inl p') := by
  cases h with
  | write h =>
    refine .write ?_
    rw [partyAct, h]
  | @read k m h =>
    have hact : partyAct body act V (.inl p) = .read fun m => .inl (k m) := by rw [partyAct, h]
    exact .read hact

theorem peer_moves {p p' : σ} {ins outs : List μ} (h : Moves act p ins outs p') :
    Moves (partyAct body act V) (.inl p) ins outs (.inl p') := by
  induction h with
  | refl => exact .refl _
  | head hm _ ih => exact .head (peer_move hm) ih

/-- A turn is an access, which changes nothing for the two parties, or a step of theirs. -/
theorem Turn.view (h : Turn body act g s g' s') (hV : Sees V s'.log) :
    s'.turns = s.turns + 1 ∧
      (s'.log = s.log ++ [(g, g')] ∧ Serving.view body V s' = Serving.view body V s
        ∨ s'.log = s.log ∧ g' = g
          ∧ Duplex.Step (partyAct body act V) (Serving.view body V s)
            (Serving.view body V s')) := by
  cases h with
  | access ht =>
    refine ⟨rfl, .inl ⟨rfl, ?_⟩⟩
    unfold Serving.view
    rw [ht, settle, hV.last]
  | write ht =>
    refine ⟨rfl, .inr ⟨rfl, rfl, ?_⟩⟩
    refine Duplex.Step.right (Move.write ?_) rfl
    unfold Serving.view
    rw [ht, settle, partyAct]
  | @read k m rest ht hin =>
    refine ⟨rfl, .inr ⟨rfl, rfl, ?_⟩⟩
    have hact : partyAct body act V (Serving.view body V s).right
        = .read fun m => .inr (settle body V s.log (k m)) := by
      unfold Serving.view
      rw [ht, settle, partyAct]
    have hstep := Duplex.Step.right (c := Serving.view body V s) (.read hact) hin
    rwa [List.append_nil] at hstep
  | @loop i m rest ht hin =>
    refine ⟨rfl, .inr ⟨rfl, rfl, ?_⟩⟩
    have hact : partyAct body act V (Serving.view body V s).right
        = .read fun m => .inr (settle body V s.log (body i m)) := by
      unfold Serving.view
      rw [ht, settle, partyAct]
    have hstep := Duplex.Step.right (c := Serving.view body V s) (.read hact) hin
    rwa [List.append_nil] at hstep
  | peer hm hin => exact ⟨rfl, .inr ⟨rfl, rfl, .left (peer_move hm) hin⟩⟩

theorem Turn.shared (h : Turn body act g s g' s') :
    (∃ f k, s.thread = .access f k ∧ g' = f g) ∨ g' = g := by
  cases h with
  | access ht => exact .inl ⟨_, _, ht, rfl⟩
  | write _ | read _ _ | loop _ _ | peer _ _ => exact .inr rfl

theorem Turn.log_eq (h : Turn body act g s g' s') :
    s'.log = s.log ++ [(g, g')] ∨ s'.log = s.log := by
  cases h with
  | access _ => exact .inl rfl
  | write _ | read _ _ | loop _ _ | peer _ _ => exact .inr rfl

/-- A step of the two parties, where the thread has no access to make, is a turn. -/
theorem exists_turn {c : Config (Party ι γ μ ρ σ) μ} (g : γ)
    (h : Duplex.Step (partyAct body act V) (Serving.view body V s) c) :
    ∃ g' s', Turn body act g s g' s' := by
  cases h with
  | @left l ins outs rest hm hin =>
    cases hact : act s.peer with
    | write m p => exact ⟨g, _, .peer (.write hact) rfl⟩
    | read k =>
      cases hm with
      | write h =>
        change partyAct body act V (.inl s.peer) = _ at h
        rw [partyAct, hact] at h
        cases h
      | read h => exact ⟨g, _, .peer (.read hact) hin⟩
    | stop r =>
      cases hm with
      | write h | read h =>
        change partyAct body act V (.inl s.peer) = _ at h
        rw [partyAct, hact] at h
        cases h
  | @right r ins outs rest hm hin =>
    have hact : ∀ {q : List (γ × γ) × Act (Thread ι γ μ ρ) μ ρ}, settle body V s.log s.thread = q →
        (Serving.view body V s).right = .inr q := fun hq => congrArg Sum.inr hq
    cases ht : s.thread with
    | access f k => exact ⟨_, _, .access ht⟩
    | write m k => exact ⟨_, _, .write ht⟩
    | read k =>
      rw [hact (by rw [ht, settle])] at hm
      cases hm with
      | write h => cases h
      | read h => exact ⟨_, _, .read ht hin⟩
    | loop i =>
      rw [hact (by rw [ht, settle])] at hm
      cases hm with
      | write h => cases h
      | read h => exact ⟨_, _, .loop ht hin⟩
    | stop r =>
      rw [hact (by rw [ht, settle])] at hm
      cases hm with
      | write h | read h => cases h

/-- The log of a party. -/
def logOf : Party ι γ μ ρ σ → List (γ × γ)
  | .inl _ => []
  | .inr (log, _) => log

theorem prefix_step {c c' : Config (Party ι γ μ ρ σ) μ}
    (h : Duplex.Step (partyAct body act V) c c') : logOf c.right <+: logOf c'.right := by
  cases h with
  | left _ _ => exact List.prefix_rfl
  | right hm _ =>
    obtain ⟨l, r, tl, tr⟩ := c
    rcases r with p | ⟨log, a⟩
    · exact List.nil_prefix
    · cases hm with
      | write h =>
        cases a <;> cases h
        exact prefix_settle ..
      | read h =>
        cases a <;> cases h
        exact prefix_settle ..

theorem prefix_steps {c c' : Config (Party ι γ μ ρ σ) μ} {n : ℕ}
    (h : Steps (partyAct body act V) n c c') : logOf c.right <+: logOf c'.right := by
  induction h with
  | refl => exact List.prefix_rfl
  | head hstep _ ih => exact (prefix_step hstep).trans ih

/-! ## Guarded threads -/

/-- A thread that makes one more access, `f`, when it stops: what its guard does when it is
dropped. -/
def Thread.guarded (f : γ → γ) : Thread ι γ μ ρ → Thread ι γ μ ρ
  | .stop r => .access f fun _ => .stop r
  | .write m k => .write m (k.guarded f)
  | .read k => .read fun m => (k m).guarded f
  | .access g k => .access g fun s => (k s).guarded f
  | .loop i => .loop i

section Guarded

variable (body) (f : γ → γ) (pre : List (γ × γ))

/-- A settled thread, guarded and behind the accesses `pre`. -/
def guard (V : ℕ → γ) : List (γ × γ) × Act (Thread ι γ μ ρ) μ ρ →
    List (γ × γ) × Act (Thread ι γ μ ρ) μ ρ
  | (log, .stop r) =>
    (pre ++ log ++ [(V (pre ++ log).length, f (V (pre ++ log).length))], .stop r)
  | (log, .write m k) => (pre ++ log, .write m (k.guarded f))
  | (log, .read k) => (pre ++ log, .read fun m => (k m).guarded f)

theorem settle_guarded (V : ℕ → γ) : ∀ (t : Thread ι γ μ ρ) (log : List (γ × γ)),
    settle (fun i m => (body i m).guarded f) V (pre ++ log) (t.guarded f)
      = guard f pre V (settle body (fun n => V (pre.length + n)) log t)
  | .stop _, _ | .write _ _, _ | .read _, _ | .loop _, _ => rfl
  | .access g k, log => by
    have hrest := settle_guarded V (k (V (pre ++ log).length))
      (log ++ [(V (pre ++ log).length, g (V (pre ++ log).length))])
    rw [← List.append_assoc] at hrest
    rw [Thread.guarded, settle, hrest, settle, List.length_append]

theorem partyAct_guard (V : ℕ → γ) (p : Party ι γ μ ρ σ) :
    partyAct (fun i m => (body i m).guarded f) act V (p.map id (guard f pre V))
      = (partyAct body act (fun n => V (pre.length + n)) p).map (Sum.map id (guard f pre V)) := by
  rcases p with p | ⟨log, _ | _ | _⟩
  · change partyAct _ act V (.inl p) = _
    rw [partyAct, partyAct]
    cases act p <;> rfl
  · simp only [Sum.map_inr, guard, partyAct, Act.map, settle_guarded]
  · simp only [Sum.map_inr, guard, partyAct, Act.map, settle_guarded]
  · rfl

/-- Behind the accesses `pre`, a guarded thread and its peer come to the same end, with one access
more. -/
theorem guarded_steps {V : ℕ → γ} {t : Thread ι γ μ ρ} {p p' : σ} {n : ℕ} {r : ρ}
    {log : List (γ × γ)} {ins outs ins' outs' : List μ}
    (h : Steps (partyAct body act fun n => V (pre.length + n)) n
      ⟨.inl p, .inr (settle body (fun n => V (pre.length + n)) [] t), ins, outs⟩
      ⟨.inl p', .inr (log, .stop r), ins', outs'⟩) :
    Steps (partyAct (fun i m => (body i m).guarded f) act V) n
      ⟨.inl p, .inr (settle (fun i m => (body i m).guarded f) V pre (t.guarded f)), ins, outs⟩
      ⟨.inl p', .inr (pre ++ log ++ [(V (pre ++ log).length, f (V (pre ++ log).length))], .stop r),
        ins', outs'⟩ := by
  have hmap := h.map (partyAct_guard body f pre V)
  have hstart := settle_guarded body f pre V t []
  rw [List.append_nil] at hstart
  rw [hstart]
  exact hmap

/-- A thread of which no access changes what `q` says, up to the head of a loop. -/
inductive Thread.Leaves {β : Type*} (q : γ → β) : Thread ι γ μ ρ → Prop
  | stop (r : ρ) : Leaves q (.stop r)
  | write {m : μ} {k : Thread ι γ μ ρ} : k.Leaves q → Leaves q (.write m k)
  | read {k : μ → Thread ι γ μ ρ} : (∀ m, (k m).Leaves q) → Leaves q (.read k)
  | access {f : γ → γ} {k : γ → Thread ι γ μ ρ} : (∀ g, q (f g) = q g) → (∀ g, (k g).Leaves q) →
    Leaves q (.access f k)
  | loop (i : ι) : Leaves q (.loop i)

def Thread.hasStopped : Thread ι γ μ ρ → Bool
  | .stop _ => true
  | .write _ _ | .read _ | .access _ _ | .loop _ => false

/-- Before it stops, a guarded thread has its last access to make. -/
theorem hasStopped_guarded (t : Thread ι γ μ ρ) : (t.guarded f).hasStopped = false := by
  cases t <;> rfl

end Guarded

/-! ## Contracts -/

/-- The views are good, and grow. -/
structure Growing (Inv : γ → Prop) (le : γ → γ → Prop) (V : ℕ → γ) : Prop where
  inv : ∀ n, Inv (V n)
  mono : ∀ n m, n ≤ m → le (V n) (V m)

theorem Growing.behind {Inv : γ → Prop} {le : γ → γ → Prop} {V : ℕ → γ} (h : Growing Inv le V)
    (k : ℕ) : Growing Inv le fun n => V (k + n) :=
  ⟨fun n => h.inv (k + n), fun _ _ hnm => h.mono _ _ (Nat.add_le_add_left hnm k)⟩

/-- What each session does for all views that are good and grow: its thread stops with `res`, its
peer comes to `peerEnd` and goes no further, the log is `logEnd`, the thread has left `unread`, and
no access in that log spoils or loses anything; nor does `other`. -/
structure Contract (body : ι → μ → Thread ι γ μ ρ) (act : σ → Act σ μ ρ) (other : γ → γ → Prop)
    (Inv : γ → Prop) (le : γ → γ → Prop) (start : κ → Session ι γ μ ρ σ) (len : κ → (ℕ → γ) → ℕ)
    (res : κ → (ℕ → γ) → ρ) (peerEnd : κ → (ℕ → γ) → σ) (logEnd : κ → (ℕ → γ) → List (γ × γ))
    (unread : κ → (ℕ → γ) → List μ) : Prop where
  refl : ∀ a, le a a
  trans : ∀ {a b c}, le a b → le b c → le a c
  other : ∀ {a b}, Inv a → other a b → Inv b ∧ le a b
  steps : ∀ i V, Growing Inv le V → Steps (partyAct body act V) (len i V)
    (view body V (start i))
      ⟨.inl (peerEnd i V), .inr (logEnd i V, .stop (res i V)), [], unread i V⟩
  rests : ∀ i V, Growing Inv le V → ∀ m p, act (peerEnd i V) ≠ .write m p
  keeps : ∀ i V, Growing Inv le V → ∀ e ∈ logEnd i V, Inv e.1 → Inv e.2 ∧ le e.1 e.2

/-- The state is good, and each access has found what those before it have left, or more. -/
structure Safe (Inv : γ → Prop) (le : γ → γ → Prop) (c : System κ ι γ μ ρ σ) : Prop where
  inv : Inv c.shared
  found : ∀ i, ∀ e ∈ (c.session i).log, Inv e.1
  left : ∀ i, ∀ e ∈ (c.session i).log, le e.1 e.2 ∧ le e.2 c.shared
  order : ∀ i, (c.session i).log.Pairwise fun e e' => le e.2 e'.1

variable {other : γ → γ → Prop} {c c' : System κ ι γ μ ρ σ} {Inv : γ → Prop}
  {le : γ → γ → Prop} {start : κ → Session ι γ μ ρ σ} {len : κ → (ℕ → γ) → ℕ}
  {res : κ → (ℕ → γ) → ρ} {peerEnd : κ → (ℕ → γ) → σ}
  {logEnd : κ → (ℕ → γ) → List (γ × γ)} {unread : κ → (ℕ → γ) → List μ} {i : κ}

/-- What a session has found so far is good and grows, up to the state as it is. -/
theorem Safe.growing (h : Safe Inv le c)
    (hc : Contract body act other Inv le start len res peerEnd logEnd unread) (i : κ) :
    Growing Inv le (viewsOf (c.session i).log c.shared) := by
  have hcases : ∀ n, (∃ e ∈ (c.session i).log, (c.session i).log[n]? = some e) ∨
      viewsOf (c.session i).log c.shared n = c.shared ∧ (c.session i).log[n]? = none := by
    intro n
    cases he : (c.session i).log[n]? with
    | some e => exact .inl ⟨e, List.mem_of_getElem? he, rfl⟩
    | none => exact .inr ⟨by rw [viewsOf, he]; rfl, rfl⟩
  have hsees := sees_viewsOf (c.session i).log c.shared
  refine ⟨fun n => ?_, fun n m hnm => ?_⟩
  · rcases hcases n with ⟨e, he, hn⟩ | ⟨hn, -⟩
    · rw [hsees n e hn]
      exact h.found i e he
    · rw [hn]
      exact h.inv
  · rcases hcases m with ⟨e', he', hm⟩ | ⟨hm, -⟩
    · rw [hsees m e' hm]
      have hmlen := (List.getElem?_eq_some_iff.1 hm).1
      have hn : (c.session i).log[n]? = some (c.session i).log[n] := List.getElem?_eq_getElem _
      rw [hsees n _ hn]
      rcases Nat.lt_or_eq_of_le hnm with hlt | rfl
      · have hleft := (h.left i _ (List.mem_of_getElem? hn)).1
        have hp := List.pairwise_iff_getElem.1 (h.order i) n m (hnm.trans_lt hmlen) hmlen hlt
        obtain ⟨-, rfl⟩ := List.getElem?_eq_some_iff.1 hm
        exact hc.trans hleft hp
      · rw [hn, Option.some.injEq] at hm
        rw [hm]
        exact hc.refl _
    · rw [hm]
      rcases hcases n with ⟨e, he, hn⟩ | ⟨hn, -⟩
      · rw [hsees n e hn]
        exact hc.trans (h.left i e he).1 (h.left i e he).2
      · rw [hn]
        exact hc.refl _

/-! ## The whole system -/

/-- Nobody has taken a turn. -/
def Fresh (c : System κ ι γ μ ρ σ) : Prop :=
  ∀ i, (c.session i).log = [] ∧ (c.session i).turns = 0

section Reached

variable [DecidableEq κ] {c₀ : System κ ι γ μ ρ σ}

theorem Step.cases (h : Step body act other c c') :
    (other c.shared c'.shared ∧ c'.session = c.session)
      ∨ ∃ j, Turn body act c.shared (c.session j) c'.shared (c'.session j)
        ∧ ∀ i, i ≠ j → c'.session i = c.session i := by
  cases h with
  | other h => exact .inl ⟨h, rfl⟩
  | @turn j g s h =>
    refine .inr ⟨j, ?_, fun i hi => Function.update_of_ne hi _ _⟩
    change Turn body act c.shared (c.session j) g (Function.update c.session j s j)
    rwa [Function.update_self]

/-- A run of the system is a run of each thread with its peer, for any views that the thread has
seen. -/
theorem steps_of_reaches (hfresh : Fresh c₀) (h : ReflTransGen (Step body act other) c₀ c) (i : κ)
    (V : ℕ → γ) (hV : Sees V (c.session i).log) :
    ∃ m, Steps (partyAct body act V) m (view body V (c₀.session i)) (view body V (c.session i))
      ∧ (c.session i).turns = m + (c.session i).log.length := by
  induction h with
  | refl => exact ⟨0, .refl _, by rw [(hfresh i).1, (hfresh i).2]; rfl⟩
  | tail _ hstep ih =>
    rcases hstep.cases with ⟨-, hsame⟩ | ⟨j, h, hsame⟩
    · rw [hsame] at hV ⊢
      exact ih hV
    · by_cases hij : i = j
      · subst hij
        obtain ⟨hturns, ⟨hlog, hview⟩ | ⟨hlog, -, hview⟩⟩ := h.view hV
        · rw [hlog] at hV
          obtain ⟨m, hm, hcount⟩ := ih hV.of_append
          refine ⟨m, hview ▸ hm, ?_⟩
          rw [hturns, hcount, hlog, List.length_append, List.length_singleton, Nat.add_assoc]
        · rw [hlog] at hV
          obtain ⟨m, hm, hcount⟩ := ih hV
          exact ⟨m + 1, hm.concat hview, by rw [hturns, hcount, hlog]; omega⟩
      · rw [hsame i hij] at hV ⊢
        exact ih hV

/-- A session that has come so far goes on to its end, in so many steps. -/
theorem Contract.steps_to_end
    (hc : Contract body act other Inv le c₀.session len res peerEnd logEnd unread)
    (hfresh : Fresh c₀) (hreach : ReflTransGen (Step body act other) c₀ c) (i : κ) (V : ℕ → γ)
    (hV : Sees V (c.session i).log) (hg : Growing Inv le V) :
    ∃ m k, (c.session i).turns = m + (c.session i).log.length ∧ m + k = len i V
      ∧ Steps (partyAct body act V) k (view body V (c.session i))
        ⟨.inl (peerEnd i V), .inr (logEnd i V, .stop (res i V)), [], unread i V⟩ := by
  obtain ⟨m, hm, hturns⟩ := steps_of_reaches hfresh hreach i V hV
  have hstop : ∀ c', ¬ Duplex.Step (partyAct body act V)
      ⟨.inl (peerEnd i V), .inr (logEnd i V, .stop (res i V)), [], unread i V⟩ c' := by
    have hwrites : ∀ m p, partyAct body act V (.inl (peerEnd i V)) ≠ .write m p := by
      intro m p h
      rw [partyAct] at h
      cases hact : act (peerEnd i V) with
      | write m' p' => exact hc.rests i V hg _ _ hact
      | read k | stop r =>
        rw [hact] at h
        cases h
    exact not_step_of_rest_stop hwrites rfl
  obtain ⟨hle, hrest⟩ := (hc.steps i V hg).to_end hstop hm
  exact ⟨m, _, hturns, Nat.add_sub_cancel' hle, hrest⟩

/-- An access of a thread is one of those in the log at its end. -/
theorem Safe.access (h : Safe Inv le c)
    (hc : Contract body act other Inv le c₀.session len res peerEnd logEnd unread)
    (hfresh : Fresh c₀)
    (hreach : ReflTransGen (Step body act other) c₀ c) {f : γ → γ} {k : γ → Thread ι γ μ ρ}
    (ht : (c.session i).thread = .access f k) : Inv (f c.shared) ∧ le c.shared (f c.shared) := by
  have hg := h.growing hc i
  obtain ⟨-, n, -, -, hsteps⟩ := hc.steps_to_end hfresh hreach i _ (sees_viewsOf _ _) hg
  have hpre := prefix_steps hsteps
  rw [view, ht, settle, viewsOf_length] at hpre
  have hmem : (c.shared, f c.shared) ∈ logEnd i (viewsOf (c.session i).log c.shared) :=
    ((prefix_settle _ _ _).trans hpre).subset (List.mem_append_right _ (List.mem_singleton.2 rfl))
  exact hc.keeps i _ hg _ hmem h.inv

/-- Sessions that keep to their contracts beside each other are safe in every state reached. -/
theorem Contract.safe (hc : Contract body act other Inv le c₀.session len res peerEnd logEnd unread)
    (hfresh : Fresh c₀) (hinv : Inv c₀.shared) (hreach : ReflTransGen (Step body act other) c₀ c) :
    Safe Inv le c ∧ le c₀.shared c.shared ∧ ∀ i, ∀ e ∈ (c.session i).log, le c₀.shared e.1 := by
  induction hreach with
  | refl =>
    have hlog : ∀ i, (c₀.session i).log = [] := fun i => (hfresh i).1
    refine ⟨⟨hinv, fun i e he => ?_, fun i e he => ?_, fun i => ?_⟩, hc.refl _, fun i e he => ?_⟩
    · rw [hlog] at he
      cases he
    · rw [hlog] at he
      cases he
    · rw [hlog]
      exact .nil
    · rw [hlog] at he
      cases he
  | @tail c c' hreach hstep ih =>
    obtain ⟨hs, hle, hsince⟩ := ih
    -- whatever the step has made of the state, it is good and nothing is lost
    have hgood : Inv c'.shared ∧ le c.shared c'.shared := by
      rcases hstep.cases with ⟨h, -⟩ | ⟨j, h, -⟩
      · exact hc.other hs.inv h
      · rcases h.shared with ⟨f, k, ht, heq⟩ | heq
        · rw [heq]
          exact hs.access hc hfresh hreach ht
        · rw [heq]
          exact ⟨hs.inv, hc.refl _⟩
    have hlog : ∀ i, (c'.session i).log = (c.session i).log
        ∨ (c'.session i).log = (c.session i).log ++ [(c.shared, c'.shared)] := by
      intro i
      rcases hstep.cases with ⟨-, hsame⟩ | ⟨j, h, hsame⟩
      · exact .inl (by rw [hsame])
      · by_cases hij : i = j
        · subst hij
          exact h.log_eq.symm
        · exact .inl (by rw [hsame i hij])
    have hmem : ∀ i, ∀ e ∈ (c'.session i).log,
        e ∈ (c.session i).log ∨ e = (c.shared, c'.shared) := by
      intro i e he
      rcases hlog i with h | h
      · exact .inl (h ▸ he)
      · rw [h] at he
        exact (List.mem_append.1 he).imp_right List.mem_singleton.1
    refine ⟨⟨hgood.1, fun i e he => ?_, fun i e he => ?_, fun i => ?_⟩, hc.trans hle hgood.2,
      fun i e he => ?_⟩
    · rcases hmem i e he with he | rfl
      · exact hs.found i e he
      · exact hs.inv
    · rcases hmem i e he with he | rfl
      · exact ⟨(hs.left i e he).1, hc.trans (hs.left i e he).2 hgood.2⟩
      · exact ⟨hgood.2, hc.refl _⟩
    · rcases hlog i with h | h
      · rw [h]
        exact hs.order i
      · rw [h]
        refine List.pairwise_append.2
          ⟨hs.order i, List.pairwise_singleton _ _, fun e he e' he' => ?_⟩
        rw [List.mem_singleton.1 he']
        exact (hs.left i e he).2
    · rcases hmem i e he with he | rfl
      · exact hsince i e he
      · exact hle

/-- No session takes more turns than it has steps and accesses. -/
theorem Safe.turns_le (h : Safe Inv le c)
    (hc : Contract body act other Inv le c₀.session len res peerEnd logEnd unread)
    (hfresh : Fresh c₀)
    (hreach : ReflTransGen (Step body act other) c₀ c) (i : κ) :
    (c.session i).turns ≤ len i (viewsOf (c.session i).log c.shared)
      + (logEnd i (viewsOf (c.session i).log c.shared)).length := by
  obtain ⟨m, k, hturns, hlen, hsteps⟩ :=
    hc.steps_to_end hfresh hreach i _ (sees_viewsOf _ _) (h.growing hc i)
  have hlog : (c.session i).log.length
      ≤ (logEnd i (viewsOf (c.session i).log c.shared)).length :=
    ((prefix_settle _ _ _).trans (prefix_steps hsteps)).length_le
  omega

/-- A session in which nobody can take a turn has come to its end. -/
theorem Safe.stopped (h : Safe Inv le c)
    (hc : Contract body act other Inv le c₀.session len res peerEnd logEnd unread)
    (hfresh : Fresh c₀)
    (hreach : ReflTransGen (Step body act other) c₀ c)
    (hstuck : ∀ g s, ¬ Turn body act c.shared (c.session i) g s) :
    (c.session i).thread = .stop (res i (viewsOf (c.session i).log c.shared))
      ∧ (c.session i).peer = peerEnd i (viewsOf (c.session i).log c.shared)
      ∧ (c.session i).log = logEnd i (viewsOf (c.session i).log c.shared)
      ∧ (c.session i).toPeer = []
      ∧ (c.session i).toThread = unread i (viewsOf (c.session i).log c.shared) := by
  set V := viewsOf (c.session i).log c.shared with hV
  obtain ⟨-, k, -, -, hsteps⟩ :=
    hc.steps_to_end hfresh hreach i V (sees_viewsOf _ _) (h.growing hc i)
  generalize hfin : (⟨.inl (peerEnd i V), .inr (logEnd i V, .stop (res i V)), [], unread i V⟩ :
    Config (Party ι γ μ ρ σ) μ) = fin at hsteps
  cases hsteps with
  | head hstep _ =>
    obtain ⟨g, s, hturn⟩ := exists_turn c.shared hstep
    exact absurd hturn (hstuck g s)
  | refl =>
    have hpeer := Sum.inl.inj (congrArg Config.left hfin)
    have hthread : (_, _) = settle body _ _ _ := Sum.inr.inj (congrArg Config.right hfin)
    cases ht : (c.session i).thread with
    | access f k => exact absurd (.access ht) (hstuck _ _)
    | write m k => exact absurd (.write ht) (hstuck _ _)
    | read k | loop k =>
      rw [ht, settle] at hthread
      cases (Prod.mk.inj hthread).2
    | stop r' =>
      rw [ht, settle] at hthread
      obtain ⟨hlog, hstop⟩ := Prod.mk.inj hthread
      cases hstop
      exact ⟨rfl, hpeer.symm, hlog.symm, (congrArg Config.toLeft hfin).symm,
        (congrArg Config.toRight hfin).symm⟩

theorem Turn.step [Fintype κ] (other : γ → γ → Prop) {c : System κ ι γ μ ρ σ} {i : κ}
    (h : Turn body act c.shared (c.session i) g s) :
    ∃ c', Step body act other c c' ∧ ∑ j, (c.session j).turns < ∑ j, (c'.session j).turns := by
  refine ⟨⟨g, Function.update c.session i s⟩, .turn h,
    Finset.sum_lt_sum (fun j _ => ?_) ⟨i, Finset.mem_univ i, ?_⟩⟩
  · change _ ≤ (Function.update c.session i s j).turns
    by_cases hj : j = i
    · subst hj
      rw [Function.update_self, (h.view (sees_viewsOf s.log g)).1]
      exact Nat.le_succ _
    · rw [Function.update_of_ne hj]
  · change _ < (Function.update c.session i s i).turns
    rw [Function.update_self, (h.view (sees_viewsOf s.log g)).1]
    exact Nat.lt_succ_self _

/-- Where no session takes more than so many turns, they can be taken until nobody can take one. -/
theorem exists_stuck [Fintype κ] (bound : κ → ℕ) (n : ℕ) {c : System κ ι γ μ ρ σ}
    (hbound : ∀ c', ReflTransGen (Step body act other) c c' →
      ∀ i, (c'.session i).turns ≤ bound i)
    (hn : ∑ i, bound i ≤ n + ∑ i, (c.session i).turns) :
    ∃ c', ReflTransGen (Step body act other) c c'
      ∧ ∀ i g s, ¬ Turn body act c'.shared (c'.session i) g s := by
  induction n generalizing c with
  | zero =>
    refine ⟨c, .refl, fun i g s h => ?_⟩
    obtain ⟨c', hstep, hlt⟩ := h.step other
    have hle := Finset.sum_le_sum fun j (_ : j ∈ Finset.univ) => hbound c' (.single hstep) j
    omega
  | succ n ih =>
    by_cases hstuck : ∀ i g s, ¬ Turn body act c.shared (c.session i) g s
    · exact ⟨c, .refl, hstuck⟩
    simp only [not_forall, not_not] at hstuck
    obtain ⟨i, g, s, h⟩ := hstuck
    obtain ⟨c', hstep, hlt⟩ := h.step other
    obtain ⟨c'', hreach, hend⟩ := ih (fun c'' h' => hbound c'' (.head hstep h')) (by omega)
    exact ⟨c'', .head hstep hreach, hend⟩

end Reached

end Serving
