import KronMesh.Hub
import KronMesh.MeshSync
import KronMesh.StandInRun

/-!
# The rate of new vertices

A hub allows 32 new vertices in ten seconds. Its sessions take turns: in the loop that receives
bodies and in the one of a wallet, every vertex that comes is first asked for. Which vertices are
asked for, and when, is up to the peer that sends them. The answers are not: window and count are
one for the whole hub, so a peer is answered by what all peers have sent (`same_answers_iff`).
-/

namespace KronMesh.RateLimit

open Wire

/-- `VERTEX_RATE_WINDOW`, in nanoseconds. -/
def vertexRateWindow : ℕ := 10 * 1000000000

/-- `MAX_VERTICES_PER_PEER_WINDOW`: new vertices accepted from one peer per rate window. -/
def maxVerticesPerPeerWindow : UInt32 := 32

/-- What a call reads off the clock: for `elapsed`, and after it for `Instant::now`. -/
structure Readings where
  elapsed : ℕ
  now : ℕ
  deriving DecidableEq

/-- `vertex_window_start` and `vertices_in_window`. The lock of the first is held over a call, so
calls come one after the other. -/
structure VertexWindow where
  start : ℕ
  vertices : UInt32

/-- A hub and its window, with the readings for the message at hand. -/
structure HubTurn where
  hub : HubState
  window : VertexWindow
  readings : Readings

/-- The window after a look at the clock: the old one, or a new one from now on. -/
def VertexWindow.current (w : VertexWindow) (r : Readings) : VertexWindow :=
  -- `elapsed` is zero, not negative, when the start is yet to come
  if vertexRateWindow ≤ r.elapsed - w.start then { start := r.now, vertices := 0 } else w

def allowNewVertex (w : VertexWindow) (r : Readings) : VertexWindow × Bool :=
  let w := w.current r
  -- `fetch_add` wraps
  ({ w with vertices := w.vertices + 1 }, w.vertices < maxVerticesPerPeerWindow)

def hubGraph (P : Primitives) : MeshGraph HubTurn where
  inventory g := SyncInventory.fromDag g.hub.dag.toGraph 0
  contains g id := g.hub.dag.contains id
  ingest g tx :=
    let r := g.hub.ingest P tx
    ({ g with hub := r.1 }, r.2)
  bodiesInOrder g ids := g.hub.dag.transactionsForInOrder ids
  applyInventory g _ := g
  needAndHave g remote := computeDagDiff g.hub.dag.toGraph remote
  allowNewVertex g :=
    let r := allowNewVertex g.window g.readings
    ({ g with window := r.1 }, r.2)

/-! ## Sessions -/

/-- The two loops of a session that ask for vertices. -/
inductive SessionLoop
  | recvBodiesUntilDone
  | serveWalletSubmit

/-- Whether a node that has written what it writes next waits for bodies. -/
def waits {γ : Type} : MeshProc γ → Bool
  | .write _ k => waits k
  | .recvBodiesUntilDone _ => true
  | .stop _ => false
  | .read _ => false

/-- A turn of the loop that receives bodies, and whether there is another one. -/
def recvTurn (P : Primitives) (g : HubTurn) (msg : MeshWireMessage) : HubTurn × Bool :=
  let r := MeshProc.onBody (hubGraph P) (.stop (.ok ())) g msg
  (r.1, waits r.2)

/-- A turn of the loop that takes one vertex of a wallet, and whether there is another one. -/
def submitTurn (P : Primitives) (g : HubTurn) : MeshWireMessage → HubTurn × Bool
  | .ping => (g, true)
  | .dagTransaction tx =>
    let r := (hubGraph P).allowNewVertex g
    if r.2 then (((hubGraph P).ingest r.1 tx).1, false) else (r.1, false)
  | _ => (g, false)

def turn (P : Primitives) (g : HubTurn) : SessionLoop → MeshWireMessage → HubTurn × Bool
  | .recvBodiesUntilDone => recvTurn P g
  | .serveWalletSubmit => submitTurn P g

/-- What happens to a session at these loops: it comes to one, it reads a message, or its socket
fails or has been silent for too long. -/
inductive Event (σ : Type)
  | enter (s : σ) (loop : SessionLoop)
  | message (s : σ) (msg : MeshWireMessage) (readings : Readings)
  | leave (s : σ)

def Event.session {σ : Type} : Event σ → σ
  | .enter s _ => s
  | .message s _ _ => s
  | .leave s => s

/-- A hub with the sessions that are at one of the loops. -/
structure Hub (σ : Type) where
  hub : HubState
  window : VertexWindow
  loops : σ → Option SessionLoop

/-- A hub that nobody is connected to. -/
def Hub.new {σ : Type} (hub : HubState) (start : ℕ) : Hub σ where
  hub := hub
  window := { start := start, vertices := 0 }
  loops _ := none

section Run

variable {σ ι : Type} [DecidableEq σ] [DecidableEq ι] (P : Primitives)

def step (h : Hub σ) : Event σ → Hub σ
  | .enter s loop => { h with loops := Function.update h.loops s (some loop) }
  | .leave s => { h with loops := Function.update h.loops s none }
  | .message s msg r =>
    match h.loops s with
    | none => h
    | some loop =>
      let t := turn P ⟨h.hub, h.window, r⟩ loop msg
      { hub := t.1.hub
        window := t.1.window
        loops := if t.2 then h.loops else Function.update h.loops s none }

/-- The vertex that is asked for, and the answer. -/
def answer (h : Hub σ) : Event σ → Option (σ × Readings × Bool)
  | .message s (.dagTransaction _) r =>
    if (h.loops s).isSome then some (s, r, (allowNewVertex h.window r).2) else none
  | _ => none

def answers : Hub σ → List (Event σ) → List (σ × Readings × Bool)
  | _, [] => []
  | h, e :: es => (answer h e).toList ++ answers (step P h e) es

/-! ## What a peer asks for -/

/-- Whether a loop goes on behind a message. -/
def goesOn : SessionLoop → MeshWireMessage → Bool
  | .recvBodiesUntilDone, .done | .recvBodiesUntilDone, .hello _ _
  | .recvBodiesUntilDone, .syncInventory _ => false
  | .recvBodiesUntilDone, _ => true
  | .serveWalletSubmit, .ping => true
  | .serveWalletSubmit, _ => false

def nextLoops (loops : σ → Option SessionLoop) : Event σ → σ → Option SessionLoop
  | .enter s loop => Function.update loops s (some loop)
  | .leave s => Function.update loops s none
  | .message s msg _ =>
    if (loops s).any fun loop => !goesOn loop msg then Function.update loops s none else loops

/-- The vertex that is asked for. -/
def asks (loops : σ → Option SessionLoop) : Event σ → Option (σ × Readings)
  | .message s (.dagTransaction _) r => if (loops s).isSome then some (s, r) else none
  | _ => none

/-- The vertices that are asked for, one after the other. -/
def vertices : (σ → Option SessionLoop) → List (Event σ) → List (σ × Readings)
  | _, [] => []
  | loops, e :: es => (asks loops e).toList ++ vertices (nextLoops loops e) es

/-- The answers to calls one after the other. -/
def replies : VertexWindow → List (σ × Readings) → List (σ × Readings × Bool)
  | _, [] => []
  | w, (s, r) :: calls => (s, r, (allowNewVertex w r).2) :: replies (allowNewVertex w r).1 calls

theorem waits_writeBodies {γ : Type} (txs : List DagTransaction) (k : MeshProc γ) :
    waits (MeshProc.writeBodies txs k) = waits k := by
  induction txs with
  | nil => rfl
  | cons tx txs ih => exact ih

/-- A turn goes on by its message alone, and counts in the window when the message is a vertex. -/
theorem turn_spec (P : Primitives) (g : HubTurn) (loop : SessionLoop) (msg : MeshWireMessage) :
    (turn P g loop msg).2 = goesOn loop msg
      ∧ (turn P g loop msg).1.window = match msg with
        | .dagTransaction _ => (allowNewVertex g.window g.readings).1
        | _ => g.window := by
  cases loop with
  | recvBodiesUntilDone =>
    cases msg with
    | dagTransaction tx =>
      simp only [turn, recvTurn, MeshProc.onBody]
      split_ifs <;> exact ⟨rfl, rfl⟩
    | needIds ids => exact ⟨waits_writeBodies _ _, rfl⟩
    | haveIds ids =>
      simp only [turn, recvTurn, MeshProc.onBody]
      refine ⟨?_, trivial⟩
      split_ifs <;> rfl
    | hello protocol role => exact ⟨rfl, rfl⟩
    | ping => exact ⟨rfl, rfl⟩
    | pong => exact ⟨rfl, rfl⟩
    | syncInventory inv => exact ⟨rfl, rfl⟩
    | done => exact ⟨rfl, rfl⟩
  | serveWalletSubmit =>
    cases msg with
    | dagTransaction tx =>
      simp only [turn, submitTurn]
      split_ifs <;> exact ⟨rfl, rfl⟩
    | _ => exact ⟨rfl, rfl⟩

/-- A step moves the loops on by itself, and the window when a vertex is asked for. -/
theorem step_spec (P : Primitives) (h : Hub σ) (e : Event σ) :
    (step P h e).loops = nextLoops h.loops e
      ∧ answer h e = (asks h.loops e).map (fun c => (c.1, c.2, (allowNewVertex h.window c.2).2))
      ∧ (step P h e).window = match asks h.loops e with
        | some c => (allowNewVertex h.window c.2).1
        | none => h.window := by
  cases e with
  | enter s loop => exact ⟨rfl, rfl, rfl⟩
  | leave s => exact ⟨rfl, rfl, rfl⟩
  | message s msg r =>
    rcases hs : h.loops s with _ | loop
    · cases msg <;> simp [step, nextLoops, answer, asks, hs]
    · obtain ⟨hgoes, hwindow⟩ := turn_spec P ⟨h.hub, h.window, r⟩ loop msg
      refine ⟨?_, ?_, ?_⟩
      · cases hg : goesOn loop msg <;> simp [step, nextLoops, hs, hgoes, hg]
      · cases msg <;> simp [answer, asks, hs]
      · simp only [step, hs, hwindow]
        cases msg <;> simp [asks, hs]

/-- The answers of a run are the answers to what is asked for in it. -/
theorem answers_eq (P : Primitives) : ∀ (es : List (Event σ)) (h : Hub σ),
    answers P h es = replies h.window (vertices h.loops es)
  | [], _ => rfl
  | e :: es, h => by
    obtain ⟨hloops, hanswer, hwindow⟩ := step_spec P h e
    rw [answers, vertices, answers_eq P es, hanswer, hloops, hwindow]
    rcases asks h.loops e with _ | c
    · rfl
    · rfl

/-! ## One peer -/

theorem nextLoops_of_ne {loops : σ → Option SessionLoop} {e : Event σ} {s : σ} (h : s ≠ e.session) :
    nextLoops loops e s = loops s := by
  cases e with
  | enter s' loop => exact Function.update_of_ne h _ _
  | leave s' => exact Function.update_of_ne h _ _
  | message s' msg r =>
    simp only [nextLoops]
    split_ifs
    · exact Function.update_of_ne h _ _
    · rfl

theorem nextLoops_congr {loops loops' : σ → Option SessionLoop} {e : Event σ} {s : σ}
    (hs : loops s = loops' s) (he : loops e.session = loops' e.session) :
    nextLoops loops e s = nextLoops loops' e s := by
  by_cases h : s = e.session
  · cases e with
    | enter s' loop => simp only [nextLoops, Function.update_apply, hs]
    | leave s' => simp only [nextLoops, Function.update_apply, hs]
    | message s' msg r =>
      change loops s' = loops' s' at he
      simp only [nextLoops, he]
      split_ifs
      · simp only [Function.update_apply, hs]
      · exact hs
  · rw [nextLoops_of_ne h, nextLoops_of_ne h, hs]

omit [DecidableEq σ] in
theorem asks_congr {loops loops' : σ → Option SessionLoop} {e : Event σ}
    (he : loops e.session = loops' e.session) : asks loops e = asks loops' e := by
  cases e with
  | enter s loop => rfl
  | leave s => rfl
  | message s msg r =>
    change loops s = loops' s at he
    cases msg <;> simp only [asks, he]

omit [DecidableEq σ] in
theorem session_of_asks {loops : σ → Option SessionLoop} {e : Event σ} {c : σ × Readings}
    (h : asks loops e = some c) : c.1 = e.session := by
  cases e with
  | enter s loop => cases h
  | leave s => cases h
  | message s msg r =>
    cases msg with
    | dagTransaction tx =>
      simp only [asks] at h
      split_ifs at h
      cases h
      rfl
    | _ => cases h

/-- What a peer's sessions ask for is decided by what happens to them. -/
theorem vertices_filter (owner : σ → ι) (p : ι) : ∀ (es : List (Event σ))
    {loops loops' : σ → Option SessionLoop}, (∀ s, owner s = p → loops s = loops' s) →
      (vertices loops es).filter (fun c => owner c.1 = p)
        = vertices loops' (es.filter fun e => owner e.session = p)
  | [], _, _, _ => rfl
  | e :: es, loops, loops', h => by
    rw [vertices, List.filter_append]
    by_cases he : owner e.session = p
    · have hmine : (asks loops e).toList.filter (fun c => owner c.1 = p)
          = (asks loops e).toList := by
        refine List.filter_eq_self.2 fun c hc => decide_eq_true ?_
        rw [session_of_asks (Option.mem_toList.1 hc), he]
      have hkeep : (e :: es).filter (fun e => owner e.session = p)
          = e :: es.filter fun e => owner e.session = p :=
        List.filter_cons_of_pos (by simpa using he)
      rw [hmine, hkeep, vertices, asks_congr (h _ he),
        vertices_filter owner p es fun s hs => nextLoops_congr (h s hs) (h _ he)]
    · have hother : (asks loops e).toList.filter (fun c => owner c.1 = p) = [] := by
        refine List.filter_eq_nil_iff.2 fun c hc => ?_
        rw [decide_eq_true_eq, session_of_asks (Option.mem_toList.1 hc)]
        exact he
      have hskip : (e :: es).filter (fun e => owner e.session = p)
          = es.filter fun e => owner e.session = p :=
        List.filter_cons_of_neg (by simpa using he)
      rw [hother, List.nil_append, hskip, vertices_filter owner p es fun s hs => ?_]
      rw [nextLoops_of_ne fun hse => he (hse ▸ hs), h s hs]

/-! ## Every peer -/

/-- How many vertices the hub has been asked for in the window before each. -/
def loads : ℕ → ℕ → List (σ × Readings) → List (σ × Readings × ℕ)
  | _, _, [] => []
  | start, n, (s, r) :: calls =>
    if vertexRateWindow ≤ r.elapsed - start then (s, r, 0) :: loads r.now 1 calls
    else (s, r, n) :: loads start (n + 1) calls

/-- What a load says is answered: the count is a word of four bytes. -/
def below (n : ℕ) : Bool := n % 2 ^ 32 < 32

omit [DecidableEq σ] in
theorem replies_eq : ∀ (calls : List (σ × Readings)) (w : VertexWindow) (n : ℕ),
    w.vertices.toNat = n % 2 ^ 32 →
      replies w calls = (loads w.start n calls).map fun c => (c.1, c.2.1, below c.2.2)
  | [], _, _, _ => rfl
  | (s, r) :: calls, w, n, hn => by
    have hlt : ∀ v : UInt32, decide (v < maxVerticesPerPeerWindow) = decide (v.toNat < 32) :=
      fun v => rfl
    have hnext : ∀ (v : UInt32) (n : ℕ), v.toNat = n % 2 ^ 32 →
        (v + 1).toNat = (n + 1) % 2 ^ 32 := by
      intro v n hv
      rw [UInt32.toNat_add, hv]
      exact Nat.mod_add_mod n (2 ^ 32) 1
    simp only [replies, loads, allowNewVertex, VertexWindow.current]
    split_ifs with hover
    · rw [List.map_cons, replies_eq calls _ 1 rfl]
      rfl
    · rw [List.map_cons, replies_eq calls _ (n + 1) (hnext _ _ hn), hlt, hn]
      rfl

variable (owner : σ → ι) (p : ι)

/-- The vertices that a peer's sessions ask for. -/
def verticesOf (h : Hub σ) (es : List (Event σ)) : List Readings :=
  ((vertices h.loops es).filter fun c => owner c.1 = p).map Prod.snd

/-- The vertices of a peer with their answers. -/
def answersTo (h : Hub σ) (es : List (Event σ)) : List (Readings × Bool) :=
  ((answers P h es).filter fun a => owner a.1 = p).map Prod.snd

/-- The vertices of a peer with what the hub has been asked for before each. -/
def loadsOf (h : Hub σ) (es : List (Event σ)) : List (Readings × ℕ) :=
  ((loads h.window.start h.window.vertices.toNat (vertices h.loops es)).filter
    fun c => owner c.1 = p).map Prod.snd

/-- No more than 32 vertices in ten seconds. -/
def Sparse (calls : List Readings) : Prop :=
  ∀ t, (calls.countP fun r => t ≤ r.elapsed ∧ r.elapsed < t + vertexRateWindow) ≤ 32

theorem answersTo_eq (P : Primitives) (h : Hub σ) (es : List (Event σ)) :
    answersTo P owner p h es = (loadsOf owner p h es).map fun c => (c.1, below c.2) := by
  have hn : h.window.vertices.toNat = h.window.vertices.toNat % 2 ^ 32 :=
    (Nat.mod_eq_of_lt h.window.vertices.toNat_lt).symm
  rw [answersTo, loadsOf, answers_eq, replies_eq _ _ _ hn, List.filter_map, List.map_map,
    List.map_map]
  rfl

omit [DecidableEq σ] in
theorem map_fst_loads : ∀ (calls : List (σ × Readings)) (start n : ℕ),
    (loads start n calls).map (fun c => (c.1, c.2.1)) = calls
  | [], _, _ => rfl
  | (s, r) :: calls, start, n => by
    rw [loads]
    split_ifs
    · rw [List.map_cons, map_fst_loads calls]
    · rw [List.map_cons, map_fst_loads calls]

theorem map_fst_loadsOf (h : Hub σ) (es : List (Event σ)) :
    (loadsOf owner p h es).map Prod.fst = verticesOf owner p h es := by
  have hcalls := map_fst_loads (vertices h.loops es) h.window.start h.window.vertices.toNat
  rw [verticesOf, loadsOf, ← hcalls, List.filter_map, List.map_map, List.map_map, hcalls]
  rfl

/-- Of the same vertices, the answers are the same when the loads are on the same side. -/
theorem map_below_eq_iff : ∀ {cs cs' : List (Readings × ℕ)}, cs.map Prod.fst = cs'.map Prod.fst →
    (cs.map (fun c => (c.1, below c.2)) = cs'.map (fun c => (c.1, below c.2))
      ↔ List.Forall₂ (fun c c' => c.2 % 2 ^ 32 < 32 ↔ c'.2 % 2 ^ 32 < 32) cs cs')
  | [], [], _ => iff_of_true rfl .nil
  | [], _ :: _, h => by cases h
  | _ :: _, [], h => by cases h
  | c :: cs, c' :: cs', h => by
    obtain ⟨hc, hcs⟩ := List.cons.inj h
    rw [List.map_cons, List.map_cons, List.cons.injEq, List.forall₂_cons, map_below_eq_iff hcs,
      Prod.mk.injEq, and_iff_right hc]
    exact and_congr_left' decide_eq_decide

/-- Two runs of one hub in which the same happens to a peer's sessions answer the peer alike, and
never refuse it when it is sparse, exactly when before each of its vertices the hub's window holds
fewer than 32 of all peers in both runs or in neither, and fewer always when it is sparse. -/
theorem same_answers_iff (P : Primitives) (h : Hub σ) (es es' : List (Event σ))
    (hagree : es.filter (fun e => owner e.session = p) = es'.filter fun e => owner e.session = p) :
    (answersTo P owner p h es = answersTo P owner p h es'
        ∧ (Sparse (verticesOf owner p h es) → ∀ a ∈ answersTo P owner p h es, a.2 = true))
      ↔ List.Forall₂ (fun c c' => c.2 % 2 ^ 32 < 32 ↔ c'.2 % 2 ^ 32 < 32)
          (loadsOf owner p h es) (loadsOf owner p h es')
        ∧ (Sparse (verticesOf owner p h es) → ∀ c ∈ loadsOf owner p h es, c.2 % 2 ^ 32 < 32) := by
  have hvertices : (loadsOf owner p h es).map Prod.fst = (loadsOf owner p h es').map Prod.fst := by
    rw [map_fst_loadsOf, map_fst_loadsOf, verticesOf, verticesOf,
      vertices_filter owner p es fun _ _ => rfl, hagree, vertices_filter owner p es' fun _ _ => rfl]
  rw [answersTo_eq, answersTo_eq, map_below_eq_iff hvertices, List.forall_mem_map]
  exact and_congr_right' (imp_congr_right fun _ => forall₂_congr fun c _ => decide_eq_true_iff)

end Run

/-! ### Two runs

Session 1 sends one vertex, and in the second run that is all that happens. In the first, session 0
has sent `n` before it, and 32 of them are a flood. -/

namespace TwoRuns

def hub : Hub ℕ := Hub.new { dag := StandIn.genesisDag, store := .empty } 0

def alone : List (Event ℕ) :=
  [.enter 1 .recvBodiesUntilDone, .message 1 (.dagTransaction StandIn.firstTransfer) ⟨40, 40⟩]

def behind (n : ℕ) : List (Event ℕ) :=
  .enter 0 .recvBodiesUntilDone
    :: (List.range n).map (fun i =>
      .message 0 (.dagTransaction StandIn.firstTransfer) ⟨i + 1, i + 1⟩)
    ++ alone

def flooded : List (Event ℕ) := behind 32

end TwoRuns

/-- After the vertices of another peer the only one of a peer is refused. -/
theorem refused_behind_flood :
    TwoRuns.flooded.filter (fun e => id e.session = 1)
        = TwoRuns.alone.filter (fun e => id e.session = 1)
      ∧ Sparse (verticesOf id 1 TwoRuns.hub TwoRuns.flooded)
      ∧ answersTo StandIn.primitives id 1 TwoRuns.hub TwoRuns.flooded = [(⟨40, 40⟩, false)]
      ∧ answersTo StandIn.primitives id 1 TwoRuns.hub TwoRuns.alone = [(⟨40, 40⟩, true)] := by
  have hone : verticesOf id 1 TwoRuns.hub TwoRuns.flooded = [⟨40, 40⟩] := by decide
  refine ⟨rfl, fun t => ?_, ?_, ?_⟩
  · rw [hone]
    exact List.countP_le_length.trans (by decide)
  · rw [answersTo_eq]
    decide
  · rw [answersTo_eq]
    decide

/-- Behind one vertex less it is let in, as when it is alone. -/
theorem same_answers_iff_behind :
    answersTo StandIn.primitives id 1 TwoRuns.hub (TwoRuns.behind 31)
        = answersTo StandIn.primitives id 1 TwoRuns.hub TwoRuns.alone
      ∧ ∀ a ∈ answersTo StandIn.primitives id 1 TwoRuns.hub (TwoRuns.behind 31), a.2 = true := by
  have hload : loadsOf id 1 TwoRuns.hub (TwoRuns.behind 31) = [(⟨40, 40⟩, 31)] := by decide
  have hload' : loadsOf id 1 TwoRuns.hub TwoRuns.alone = [(⟨40, 40⟩, 0)] := by decide
  have hone : verticesOf id 1 TwoRuns.hub (TwoRuns.behind 31) = [⟨40, 40⟩] := by decide
  have hsparse : Sparse (verticesOf id 1 TwoRuns.hub (TwoRuns.behind 31)) := fun t => by
    rw [hone]
    exact List.countP_le_length.trans (by decide)
  obtain ⟨hsame, hall⟩ := (same_answers_iff id 1 StandIn.primitives TwoRuns.hub
    (TwoRuns.behind 31) TwoRuns.alone rfl).2
    ⟨by rw [hload, hload']; simp, fun _ => by rw [hload]; simp⟩
  exact ⟨hsame, hall hsparse⟩

end KronMesh.RateLimit
