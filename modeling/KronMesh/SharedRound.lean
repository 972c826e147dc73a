import KronMesh.MeshThread
import KronMesh.Within

/-!
# A round with a graph that others change

A thread serves a round to a peer while other threads store vertices in the graph. What it finds at
each of its accesses is good and grows; for any such views the round ends, with the peer at the
vertices of both, as the hub had them when it listed them, and the thread has asked for all that it
lacked (`round_steps`).
-/

namespace KronMesh

open Wire Serving Duplex

/-- A round asks the graph `G` for what the DAG behind it says. -/
structure MeshGraph.Serves {γ : Type} (P : Primitives) (G : MeshGraph γ) (dag : γ → KronDAG) :
    Prop where
  inventory : ∀ g, G.inventory g = SyncInventory.fromDag (dag g).toGraph 0
  contains : ∀ g id, G.contains g id = (dag g).contains id
  ingest : ∀ g tx, dag (G.ingest g tx).1 = ((dag g).acceptWireVertex P tx).1
  ingested : ∀ g tx, (G.ingest g tx).2 = ((dag g).acceptWireVertex P tx).2
  bodiesInOrder : ∀ g ids, G.bodiesInOrder g ids = (dag g).transactionsForInOrder ids
  applyInventory : ∀ g inv, dag (G.applyInventory g inv) = dag g
  needAndHave : ∀ g remote, G.needAndHave g remote = computeDagDiff (dag g).toGraph remote
  allowNewVertex : ∀ g, dag (G.allowNewVertex g).1 = dag g

section Moves

variable {γ : Type} {P : Primitives} {G : MeshGraph γ} {V : ℕ → γ} {log : List (γ × γ)}
  {msg : MeshWireMessage} {ins outs : List Frame} {a : AfterBodies}

abbrev RoundParty (γ : Type) :=
  Party MeshLoop γ Frame (Except (Fault NetworkError) Unit) (LoggedDag × MeshProc LoggedDag)

/-- The peer has a graph of its own; the thread finds `V`. -/
def roundAct (P : Primitives) (G : MeshGraph γ) (V : ℕ → γ) :
    RoundParty γ → Act (RoundParty γ) Frame (Except (Fault NetworkError) Unit) :=
  partyAct (MeshThread.turn P G) (meshAct P (isolatedDag P).logged) V

/-- The thread, once it has made the accesses before it reads, writes or stops. -/
def threadAt (P : Primitives) (G : MeshGraph γ) (V : ℕ → γ) (log : List (γ × γ))
    (t : MeshThread γ) : RoundParty γ :=
  .inr (settle (MeshThread.turn P G) V log t)

variable {t : RoundParty γ} {k : MeshThread γ}

theorem threadAt_look {β : Type} (q : γ → β) (k : β → MeshThread γ) :
    threadAt P G V log (MeshThread.look q k)
      = threadAt P G V (log ++ [(V log.length, V log.length)]) (k (q (V log.length))) := rfl

theorem threadAt_access (f : γ → γ) (k : γ → MeshThread γ) : threadAt P G V log (.access f k)
    = threadAt P G V (log ++ [(V log.length, f (V log.length))]) (k (V log.length)) := rfl

theorem threadAt_write (h : msg.Readable P)
    (hrest : Moves (roundAct P G V) (threadAt P G V log k) ins outs t) :
    Moves (roundAct P G V) (threadAt P G V log (MeshThread.writeThen msg k)) ins
      (frameOf msg :: outs) t := by
  refine Moves.write ?_ hrest
  rw [MeshThread.writeThen, writeMsg_readable h]
  rfl

theorem onFrame_frameOf (h : msg.Readable P) (k : MeshWireMessage → MeshThread γ) :
    MeshThread.onFrame P k (frameOf msg) = k msg := by
  have hread : readMsg P (frameOf msg) = .ok msg := h.2
  unfold MeshThread.onFrame
  rw [hread]

theorem threadAt_read {k : MeshWireMessage → MeshThread γ} (h : msg.Readable P)
    (hrest : Moves (roundAct P G V) (threadAt P G V log (k msg)) ins outs t) :
    Moves (roundAct P G V) (threadAt P G V log (MeshThread.readThen P k)) (frameOf msg :: ins)
      outs t := by
  have hact : roundAct P G V (threadAt P G V log (MeshThread.readThen P k))
      = .read fun m => threadAt P G V log (MeshThread.onFrame P k m) := rfl
  refine Moves.read hact ?_
  rwa [onFrame_frameOf h]

theorem turn_frameOf (h : msg.Readable P) :
    MeshThread.turn P G (.recvBodies a) (frameOf msg) = MeshThread.onBody G a msg :=
  onFrame_frameOf h _

theorem threadAt_loop (h : msg.Readable P)
    (hrest : Moves (roundAct P G V) (threadAt P G V log (MeshThread.onBody G a msg)) ins outs t) :
    Moves (roundAct P G V) (threadAt P G V log (.loop (.recvBodies a))) (frameOf msg :: ins) outs
      t := by
  have hact : roundAct P G V (threadAt P G V log (.loop (.recvBodies a)))
      = .read fun m => threadAt P G V log (MeshThread.turn P G (.recvBodies a) m) := rfl
  rw [← turn_frameOf h] at hrest
  exact Moves.read hact hrest

theorem threadAt_writeBodies (txs : List DagTransaction)
    (h : ∀ tx ∈ txs, (MeshWireMessage.dagTransaction tx).Readable P) :
    Moves (roundAct P G V) (threadAt P G V log (MeshThread.writeBodies txs k)) []
      (bodyFrames txs) (threadAt P G V log k) := by
  induction txs with
  | nil => exact .refl _
  | cons tx txs ih =>
    obtain ⟨htx, hrest⟩ := List.forall_mem_cons.1 h
    have hcons : MeshThread.writeBodies (tx :: txs) k
        = MeshThread.writeThen (.dagTransaction tx) (MeshThread.writeBodies txs k) := by
      unfold MeshThread.writeBodies
      rw [List.foldr_cons]
    rw [hcons]
    exact threadAt_write htx (ih hrest)

/-- So many accesses that leave what they find. -/
def looks (V : ℕ → γ) : ℕ → ℕ → List (γ × γ)
  | _, 0 => []
  | n, m + 1 => (V n, V n) :: looks V (n + 1) m

theorem looks_add (V : ℕ → γ) : ∀ m m' n, looks V n (m + m') = looks V n m ++ looks V (n + m) m'
  | 0, m', n => by rw [Nat.zero_add, looks, List.nil_append, Nat.add_zero]
  | m + 1, m', n => by
    rw [Nat.succ_add, looks, looks_add V m, looks, List.cons_append, Nat.add_right_comm]
    rfl

theorem length_looks (V : ℕ → γ) : ∀ m n, (looks V n m).length = m
  | 0, _ => rfl
  | m + 1, n => congrArg (· + 1) (length_looks V m (n + 1))

/-- Ids that are asked for or found push nothing. -/
theorem threadAt_pushMissing : ∀ (ids : List TxHash) {need : List TxHash} (log : List (γ × γ))
    (k : List TxHash → MeshThread γ), (∀ id ∈ ids, ∀ n, log.length ≤ n →
      G.contains (V n) id = false → need.contains id = true) →
      threadAt P G V log (MeshThread.pushMissing G ids need k)
        = threadAt P G V (log ++ looks V log.length ids.length) (k need)
  | [], _, log, _, _ => by rw [List.length_nil, looks, List.append_nil, MeshThread.pushMissing]
  | id :: ids, need, log, k, h => by
    have hskip : (if G.contains (V log.length) id = false ∧ need.contains id = false
        then need ++ [id] else need) = need := by
      refine if_neg fun ⟨hno, hc⟩ => ?_
      rw [h id List.mem_cons_self _ le_rfl hno] at hc
      cases hc
    have hlen : (log ++ [(V log.length, V log.length)]).length = log.length + 1 := by
      rw [List.length_append, List.length_singleton]
    rw [MeshThread.pushMissing, threadAt_look, hskip, threadAt_pushMissing ids _ k, hlen,
      List.append_assoc, List.length_cons, looks]
    · rfl
    · intro id' hid' n hn
      rw [hlen] at hn
      exact h id' (List.mem_cons_of_mem _ hid') n (by omega)

/-- The accesses for bodies: each is stored where it is allowed. -/
def ingests (G : MeshGraph γ) (V : ℕ → γ) : List DagTransaction → ℕ → List (γ × γ)
  | [], _ => []
  | tx :: txs, n => (V n, (G.allowNewVertex (V n)).1) ::
    if (G.allowNewVertex (V n)).2 then
      (V (n + 1), (G.ingest (V (n + 1)) tx).1) :: ingests G V txs (n + 2)
    else ingests G V txs (n + 1)

theorem length_ingests_le (G : MeshGraph γ) (V : ℕ → γ) : ∀ (txs : List DagTransaction) (n : ℕ),
    (ingests G V txs n).length ≤ 2 * txs.length
  | [], _ => le_rfl
  | tx :: txs, n => by
    have h1 := length_ingests_le G V txs (n + 1)
    have h2 := length_ingests_le G V txs (n + 2)
    rw [ingests]
    split_ifs <;> simp only [List.length_cons] <;> omega

theorem threadAt_recvBodies : ∀ (txs : List DagTransaction) (log : List (γ × γ)),
    (∀ tx ∈ txs, (MeshWireMessage.dagTransaction tx).Readable P) →
      Moves (roundAct P G V) (threadAt P G V log (.loop (.recvBodies a))) (bodyFrames txs) []
        (threadAt P G V (log ++ ingests G V txs log.length) (.loop (.recvBodies a)))
  | [], log, _ => by
    rw [ingests, List.append_nil]
    exact .refl _
  | tx :: txs, log, h => by
    have hrest : ∀ log,
        Moves (roundAct P G V) (threadAt P G V log (.loop (.recvBodies a))) (bodyFrames txs) []
          (threadAt P G V (log ++ ingests G V txs log.length) (.loop (.recvBodies a))) := fun log =>
      threadAt_recvBodies txs log fun y hy => h y (List.mem_cons_of_mem _ hy)
    refine threadAt_loop (h _ List.mem_cons_self) ?_
    rw [MeshThread.onBody, MeshThread.call, threadAt_access, ingests]
    split_ifs with hallow
    · have hmore := hrest (log ++ [(V log.length, (G.allowNewVertex (V log.length)).1)]
        ++ [(V (log.length + 1), (G.ingest (V (log.length + 1)) tx).1)])
      rw [MeshThread.call, threadAt_access]
      simp only [List.length_append, List.length_singleton, List.append_assoc,
        List.singleton_append] at hmore ⊢
      exact hmore
    · have hmore := hrest (log ++ [(V log.length, (G.allowNewVertex (V log.length)).1)])
      simp only [List.length_append, List.length_singleton, List.append_assoc,
        List.singleton_append] at hmore ⊢
      exact hmore

end Moves

/-! ## A whole round -/

section Round

variable {γ : Type} {P : Primitives} {G : MeshGraph γ} {dag : γ → KronDAG} {V : ℕ → γ}
  {start : Graph} {U : Finset DagTransaction} {s : KronDAG}

/-- What a peer says it has, told what `d` lists. -/
def offered (s d : KronDAG) : List TxHash :=
  (computeDagDiff s.toGraph (SyncInventory.fromDag d.toGraph 0)).2

/-- The bodies that the peer gets: it has asked for what it lacks of the inventory that the thread
has made at its second access, and the thread looks for them when it has been through `offered`. -/
def bodiesDown (dag : γ → KronDAG) (V : ℕ → γ) (s : KronDAG) : List DagTransaction :=
  (dag (V ((offered s (dag (V 1))).length + 3))).transactionsForInOrder
    (s.toGraph.lacks (dag (V 1)).toGraph 0)

/-- The bodies that the thread gets. -/
def bodiesUp (dag : γ → KronDAG) (V : ℕ → γ) (s : KronDAG) : List DagTransaction :=
  s.transactionsForInOrder ((dag (V 2)).toGraph.lacks s.toGraph 0)

/-- All accesses of the thread. -/
def roundLog (G : MeshGraph γ) (dag : γ → KronDAG) (V : ℕ → γ) (s : KronDAG) : List (γ × γ) :=
  (V 0, G.applyInventory (V 0) (SyncInventory.fromDag s.toGraph 0)) ::
    looks V 1 ((offered s (dag (V 1))).length + 3)
    ++ ingests G V (bodiesUp dag V s) ((offered s (dag (V 1))).length + 4)

/-- Where the peer ends. -/
def peerEnd (P : Primitives) (dag : γ → KronDAG) (V : ℕ → γ) (s : KronDAG) :
    LoggedDag × MeshProc LoggedDag :=
  ((isolatedDag P).logged.ingestAll (s, []) (bodiesDown dag V s), .stop (.ok ()))

/-- The views of a round. -/
abbrev Views (P : Primitives) (start : Graph) (U : Finset DagTransaction) (dag : γ → KronDAG)
    (V : ℕ → γ) : Prop :=
  Growing (fun g => (dag g).Within P start U) (fun g g' => (dag g).Below (dag g')) V

/-- The thread, having read what the peer needs and has, writes what it lacks itself and the bodies.
-/
theorem threadAt_theirHave (hG : G.Serves P dag) (hU : Universe P U) (hs : s.Within P start U)
    (hV : Views P start U dag V) {a : γ} (need : List TxHash) {outs : List Frame}
    {t : RoundParty γ}
    (hask : (MeshWireMessage.needIds ((dag (V 2)).toGraph.lacks s.toGraph 0)).Readable P)
    (hrest : Moves (roundAct P G V) (threadAt P G V
      ((V 0, a) :: looks V 1 ((offered s (dag (V 1))).length + 3))
      (MeshThread.writeBodies ((dag (V ((offered s (dag (V 1))).length + 3))).transactionsForInOrder
        need) (.loop (.recvBodies .writeDone)))) [] outs t) :
    Moves (roundAct P G V) (threadAt P G V [(V 0, a), (V 1, V 1)]
      (MeshThread.onTheirHave G (SyncInventory.fromDag s.toGraph 0) need
        (.haveIds (offered s (dag (V 1)))))) []
      (frameOf (.needIds ((dag (V 2)).toGraph.lacks s.toGraph 0)) :: outs) t := by
  have hsend := hs.sendable hU
  have hview : ∀ n, (dag (V n)).toGraph.Sendable P start := fun n => (hV.inv n).sendable hU
  have hp : (G.needAndHave (V 2) (SyncInventory.fromDag s.toGraph 0)).1
      = (dag (V 2)).toGraph.lacks s.toGraph 0 := by
    rw [hG.needAndHave]
    rfl
  -- what is offered has come meanwhile, or is asked for
  have hskip : ∀ id ∈ offered s (dag (V 1)), ∀ n, 3 ≤ n → G.contains (V n) id = false →
      ((dag (V 2)).toGraph.lacks s.toGraph 0).contains id = true := by
    intro id hid n hn hno
    have hlacks := mem_lacks_of_have hsend.grown (hview 1).grown hsend.ne_null hsend.within
      (hview 1).within hid
    have hc := (((hview 1).mem_lacks hsend id).1 hlacks).1
    refine List.contains_iff_mem.2 (((hview 2).mem_lacks hsend id).2 ⟨hc, ?_⟩)
    rw [← Bool.not_eq_true]
    intro h2
    have hcome := hV.mono 2 n (by omega) id h2
    rw [← hG.contains, hno] at hcome
    cases hcome
  have hpush := threadAt_pushMissing (P := P) (V := V) (offered s (dag (V 1)))
    ([(V 0, a), (V 1, V 1)] ++ [(V 2, V 2)]) (fun need' => MeshThread.writeThen
      (.needIds need') (MeshThread.look (G.bodiesInOrder · need) fun txs =>
        MeshThread.writeBodies txs (.loop (.recvBodies .writeDone)))) hskip
  set n := (offered s (dag (V 1))).length with hn
  have hlog : [(V 0, a), (V 1, V 1)] ++ [(V 2, V 2)] ++ looks V 3 n
      = (V 0, a) :: looks V 1 (n + 2) := by
    rw [Nat.add_comm, looks_add]
    rfl
  have hlen : ((V 0, a) :: looks V 1 (n + 2)).length = n + 3 := by
    rw [List.length_cons, length_looks]
  have hlog' : (V 0, a) :: looks V 1 (n + 2) ++ [(V (n + 3), V (n + 3))]
      = (V 0, a) :: looks V 1 (n + 3) := by
    have hlast : 1 + (n + 2) = n + 3 := by omega
    change _ = (V 0, a) :: looks V 1 (n + 2 + 1)
    rw [looks_add V (n + 2) 1, hlast, List.cons_append]
    rfl
  rw [MeshThread.onTheirHave, threadAt_look]
  change Moves (roundAct P G V) (threadAt P G V ([(V 0, a), (V 1, V 1)] ++ [(V 2, V 2)])
    (MeshThread.pushMissing G (offered s (dag (V 1)))
      (G.needAndHave (V 2) (SyncInventory.fromDag s.toGraph 0)).1 _)) _ _ _
  rw [hp, hpush]
  change Moves (roundAct P G V) (threadAt P G V
    ([(V 0, a), (V 1, V 1)] ++ [(V 2, V 2)] ++ looks V 3 n) _) _ _ _
  rw [hlog]
  refine threadAt_write hask ?_
  rwa [threadAt_look, hlen, hlog', hG.bodiesInOrder]

/-! ### The turns of the thread -/

theorem thread_ping : Moves (roundAct P G V)
    (threadAt P G V [] (MeshThread.runSyncRound P G false)) [frameOf .ping] [frameOf .pong]
    (threadAt P G V [] (MeshThread.readThen P (MeshThread.onTheirInventory P G))) := by
  have hrun : MeshThread.runSyncRound P G false = MeshThread.readThen P (MeshThread.onPing P G) :=
    rfl
  rw [hrun]
  refine threadAt_read readable_ping ?_
  rw [MeshThread.onPing]
  exact threadAt_write readable_pong (.refl _)

theorem thread_inventory {remote : SyncInventory}
    (h : (MeshWireMessage.syncInventory remote).Readable P)
    (h' : (MeshWireMessage.syncInventory (G.inventory (V 1))).Readable P) :
    Moves (roundAct P G V)
      (threadAt P G V [] (MeshThread.readThen P (MeshThread.onTheirInventory P G)))
      [frameOf (.syncInventory remote)] [frameOf (.syncInventory (G.inventory (V 1)))]
      (threadAt P G V [(V 0, G.applyInventory (V 0) remote), (V 1, V 1)]
        (MeshThread.readThen P (MeshThread.onNeedOf P G remote))) := by
  refine threadAt_read h ?_
  rw [MeshThread.onTheirInventory, threadAt_access, threadAt_look]
  exact threadAt_write h' (.refl _)

theorem thread_bodies (hG : G.Serves P dag) (hU : Universe P U) (hs : s.Within P start U)
    (hV : Views P start U dag V) {a : γ} {need : List TxHash}
    (hneed : (MeshWireMessage.needIds need).Readable P)
    (hhad : (MeshWireMessage.haveIds (offered s (dag (V 1)))).Readable P)
    (hask : (MeshWireMessage.needIds ((dag (V 2)).toGraph.lacks s.toGraph 0)).Readable P) :
    Moves (roundAct P G V) (threadAt P G V [(V 0, a), (V 1, V 1)]
        (MeshThread.readThen P (MeshThread.onNeedOf P G (SyncInventory.fromDag s.toGraph 0))))
      [frameOf (.needIds need), frameOf (.haveIds (offered s (dag (V 1))))]
      (frameOf (.needIds ((dag (V 2)).toGraph.lacks s.toGraph 0)) ::
        bodyFrames ((dag (V ((offered s (dag (V 1))).length + 3))).transactionsForInOrder need))
      (threadAt P G V ((V 0, a) :: looks V 1 ((offered s (dag (V 1))).length + 3))
        (.loop (.recvBodies .writeDone))) := by
  refine threadAt_read hneed ?_
  rw [MeshThread.onNeedOf]
  refine threadAt_read hhad (threadAt_theirHave hG hU hs hV need hask ?_)
  exact threadAt_writeBodies _ fun tx htx => ((hV.inv _).sendable hU).readable_body htx

theorem thread_recv {m : ℕ} {up : List DagTransaction} (hlog : log.length = m)
    (hup : ∀ tx ∈ up, (MeshWireMessage.dagTransaction tx).Readable P) :
    Moves (roundAct P G V) (threadAt P G V log (.loop (.recvBodies .writeDone)))
      (bodyFrames up ++ [frameOf .done]) [frameOf .done]
      (.inr (log ++ ingests G V up m, .stop (.ok ()))) := by
  have hbodies := threadAt_recvBodies (P := P) (G := G) (V := V) (a := .writeDone) up log hup
  rw [hlog] at hbodies
  refine hbodies.trans (threadAt_loop readable_done ?_)
  rw [MeshThread.onBody, MeshThread.after]
  exact threadAt_write readable_done (.refl _)

/-! ### The turns of the peer -/

theorem peer_inventory (hs : (MeshWireMessage.syncInventory
    (SyncInventory.fromDag s.toGraph 0)).Readable P) :
    Moves (meshAct P (isolatedDag P).logged)
      ((s, []), .read (MeshProc.onPong (isolatedDag P).logged)) [frameOf .pong]
      [frameOf (.syncInventory (SyncInventory.fromDag s.toGraph 0))]
      ((s, []), .read (MeshProc.onInventory (isolatedDag P).logged)) :=
  moves_read readable_pong (moves_write hs (.refl _))

theorem peer_need {d : KronDAG}
    (hd : (MeshWireMessage.syncInventory (SyncInventory.fromDag d.toGraph 0)).Readable P)
    (hneed : (MeshWireMessage.needIds (s.toGraph.lacks d.toGraph 0)).Readable P)
    (hhad : (MeshWireMessage.haveIds (offered s d)).Readable P) :
    Moves (meshAct P (isolatedDag P).logged)
      ((s, []), .read (MeshProc.onInventory (isolatedDag P).logged))
      [frameOf (.syncInventory (SyncInventory.fromDag d.toGraph 0))]
      [frameOf (.needIds (s.toGraph.lacks d.toGraph 0)), frameOf (.haveIds (offered s d))]
      ((s, []), .read (MeshProc.onTheirNeed (isolatedDag P).logged)) :=
  moves_read hd (moves_write hneed (moves_write hhad (.refl _)))

theorem peer_bodies {ask : List TxHash} {down : List DagTransaction}
    (hask : (MeshWireMessage.needIds ask).Readable P)
    (hup : ∀ tx ∈ s.transactionsForInOrder ask, (MeshWireMessage.dagTransaction tx).Readable P)
    (hdown : ∀ tx ∈ down, (MeshWireMessage.dagTransaction tx).Readable P) :
    Moves (meshAct P (isolatedDag P).logged)
      ((s, []), .read (MeshProc.onTheirNeed (isolatedDag P).logged))
      (frameOf (.needIds ask) :: bodyFrames down)
      (bodyFrames (s.transactionsForInOrder ask) ++ [frameOf .done])
      ((isolatedDag P).logged.ingestAll (s, []) down, .recvBodiesUntilDone (.stop (.ok ()))) :=
  moves_read hask ((moves_writeBodies _ hup).trans
    ((moves_write readable_done (.refl _)).trans (moves_recvBodies (fun _ => rfl) _ hdown)))

/-! ### Both -/

/-- For any views of the thread that are good and grow, the round comes to its end. -/
theorem round_steps (hG : G.Serves P dag) (hU : Universe P U) (hs : s.Within P start U)
    (hV : Views P start U dag V) :
    Steps (roundAct P G V) (18 + 2 * ((bodiesUp dag V s).length + (bodiesDown dag V s).length))
      ⟨.inl ((s, []), MeshProc.runSyncRound (isolatedDag P).logged true),
        threadAt P G V [] (MeshThread.runSyncRound P G false), [], []⟩
      ⟨.inl (peerEnd P dag V s), .inr (roundLog G dag V s, .stop (.ok ())), [], []⟩ := by
  have hsend := hs.sendable hU
  have hview : ∀ n, (dag (V n)).toGraph.Sendable P start := fun n => (hV.inv n).sendable hU
  have hdown := hsend.readable (hview 1)
  have hup := (hview 2).readable hsend
  have hinvS := hdown.inventory _ (.inl rfl)
  have hinvD := hdown.inventory _ (.inr rfl)
  have hbodiesUp : ∀ tx ∈ bodiesUp dag V s, (MeshWireMessage.dagTransaction tx).Readable P :=
    fun tx htx => hsend.readable_body htx
  have hbodiesDown : ∀ tx ∈ bodiesDown dag V s, (MeshWireMessage.dagTransaction tx).Readable P :=
    fun tx htx => (hview _).readable_body htx
  have hping : Moves (meshAct P (isolatedDag P).logged)
      ((s, []), MeshProc.runSyncRound (isolatedDag P).logged true) [] [frameOf .ping]
      ((s, []), .read (MeshProc.onPong (isolatedDag P).logged)) :=
    moves_write readable_ping (.refl _)
  have hlist := thread_inventory (P := P) (G := G) (V := V) hinvS
    (by rw [hG.inventory]; exact hinvD)
  have hask : (MeshWireMessage.needIds ((dag (V 2)).toGraph.lacks s.toGraph 0)).Readable P :=
    hup.need
  have hwant : (MeshWireMessage.needIds (s.toGraph.lacks (dag (V 1)).toGraph 0)).Readable P :=
    hdown.need
  have hneed := peer_need hinvD hwant hdown.had
  rw [← hG.inventory] at hneed
  have hlen : ((V 0, G.applyInventory (V 0) (SyncInventory.fromDag s.toGraph 0)) ::
      looks V 1 ((offered s (dag (V 1))).length + 3)).length
        = (offered s (dag (V 1))).length + 4 := by rw [List.length_cons, length_looks]
  have hdone : Moves (meshAct P (isolatedDag P).logged)
      ((isolatedDag P).logged.ingestAll (s, []) (bodiesDown dag V s),
        .recvBodiesUntilDone (.stop (.ok ()))) [frameOf .done] [] (peerEnd P dag V s) :=
    moves_recv readable_done (.refl _)
  have hsteps := (peer_moves hping).left_turn_steps.trans (thread_ping.right_turn_steps.trans
    ((peer_moves (peer_inventory hinvS)).left_turn_steps.trans (hlist.right_turn_steps.trans
      ((peer_moves hneed).left_turn_steps.trans
        ((thread_bodies hG hU hs hV hwant hdown.had hask).right_turn_steps.trans
          ((peer_moves (peer_bodies hask hbodiesUp hbodiesDown)).left_turn_steps.trans
            ((thread_recv hlen hbodiesUp).right_turn_steps.trans
              (peer_moves hdone).left_turn_steps)))))))
  refine hsteps.of_eq ?_
  have hlenUp : (bodyFrames (bodiesUp dag V s)).length = (bodiesUp dag V s).length :=
    List.length_map _
  have hlenDown : (bodyFrames (bodiesDown dag V s)).length = (bodiesDown dag V s).length :=
    List.length_map _
  unfold bodiesUp at hlenUp
  unfold bodiesDown at hlenDown
  simp only [List.length_cons, List.length_nil, List.length_append, bodiesUp, bodiesDown, hlenUp,
    hlenDown]
  omega

end Round

end KronMesh
