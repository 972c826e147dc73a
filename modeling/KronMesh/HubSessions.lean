import KronMesh.Convergence
import KronMesh.HubSlots
import KronMesh.SharedSession

/-!
# Sessions that share a hub

Any number of peers and wallets connect to a hub. It serves 64 of them at a time, a thread for each,
and meanwhile its own miner and other sessions store vertices in the same graph. However the turns
fall, no session gets stuck and each takes a bounded number of turns; one for which there is no slot
is closed at once. A round ends with the peer at the vertices of both, and the hub has all that the
peer had, unless it has refused a vertex for the rate of new ones. A wallet that is answered can be
sure that its vertex is stored.
-/

namespace KronMesh

open Word Wire Serving Duplex Relation

section Rounds

variable {γ : Type} {P : Primitives} {G : MeshGraph γ} {dag : γ → KronDAG} {V : ℕ → γ}
  {start : Graph} {U : Finset DagTransaction} {s : KronDAG} {e : γ × γ}

/-! ## The accesses -/

theorem mem_looks : ∀ (m : ℕ) {n : ℕ}, e ∈ looks V n m → e.2 = e.1
  | 0, _, h => by cases h
  | m + 1, n, h => by
    rw [looks, List.mem_cons] at h
    rcases h with rfl | h
    · rfl
    · exact mem_looks m h

theorem mem_ingests : ∀ (txs : List DagTransaction) {n : ℕ}, e ∈ ingests G V txs n →
    e.2 = (G.allowNewVertex e.1).1 ∨ ∃ tx ∈ txs, e.2 = (G.ingest e.1 tx).1
  | [], _, h => by cases h
  | tx :: txs, n, h => by
    have hrest : ∀ {m}, e ∈ ingests G V txs m →
        e.2 = (G.allowNewVertex e.1).1 ∨ ∃ y ∈ tx :: txs, e.2 = (G.ingest e.1 y).1 := fun hm =>
      (mem_ingests txs hm).imp_right fun ⟨y, hy, he⟩ => ⟨y, List.mem_cons_of_mem _ hy, he⟩
    rw [ingests, List.mem_cons] at h
    rcases h with rfl | h
    · exact .inl rfl
    · split_ifs at h
      · rcases List.mem_cons.1 h with rfl | h
        · exact .inr ⟨tx, List.mem_cons_self, rfl⟩
        · exact hrest h
      · exact hrest h

theorem mem_bodiesUp (hs : s.Within P start U) {tx : DagTransaction}
    (htx : tx ∈ bodiesUp dag V s) : tx ∈ U :=
  hs.stored _ _ ((Graph.mem_transactionsForInOrder hs.grown.wf).1 htx).2

/-- No access of a round spoils or loses anything. -/
theorem keeps_roundLog (hG : G.Serves P dag) (hU : Universe P U) (hs : s.Within P start U)
    (he : e ∈ roundLog G dag V s) (h : (dag e.1).Within P start U) :
    (dag e.2).Within P start U ∧ (dag e.1).Below (dag e.2) := by
  have hsame : ∀ {g}, dag g = dag e.1 → (dag g).Within P start U ∧ (dag e.1).Below (dag g) :=
    fun hg => hg.symm ▸ ⟨h, .refl _⟩
  rw [roundLog, List.mem_append, List.mem_cons] at he
  rcases he with (rfl | he) | he
  · exact hsame (hG.applyInventory _ _)
  · rw [mem_looks _ he]
    exact hsame rfl
  · rcases mem_ingests _ he with he | ⟨tx, htx, he⟩
    · rw [he]
      exact hsame (hG.allowNewVertex _)
    · rw [he, hG.ingest]
      exact h.accept hU (mem_bodiesUp hs htx)

/-! ## The ends -/

/-- The peer ends with its own vertices and those that the thread has listed. -/
theorem peerEnd_spec (hU : Universe P U) (hs : s.Within P start U) (hV : Views P start U dag V) :
    (peerEnd P dag V s).1.1.Within P start U
      ∧ ∀ x, (peerEnd P dag V s).1.1.contains x = true
        ↔ s.contains x = true ∨ (dag (V 1)).contains x = true := by
  have hlacks := (hs.sendable hU).mem_lacks ((hV.inv 1).sendable hU)
  set n := (offered s (dag (V 1))).length + 3 with hn
  have hmono : (dag (V 1)).Below (dag (V n)) := hV.mono 1 n (by omega)
  have hbody : ∀ tx ∈ bodiesDown dag V s, tx ∈ U ∧ tx.Sound P := fun tx htx =>
    hs.body (hV.inv n) (fun x hx => ((hlacks x).1 hx).2) htx
  have hbehind : KronDAG.BehindParents (fun x => s.contains x = true) (bodiesDown dag V s) := by
    refine (hV.inv n).behindParents fun y hy tx hl p hp => ?_
    have hl' := (hV.inv n).lookup_eq (hV.inv 1) hU hl ((hlacks y).1 hy).1
    have hparent := (hV.inv 1).grown.wf.parents_of_lookup hl' p hp
    rcases hc : s.contains p
    · exact .inr ((hlacks p).2 ⟨hparent, hc⟩)
    · exact .inl rfl
  obtain ⟨hw, hall⟩ := KronDAG.Within.ingestAll hU (bodiesDown dag V s) (g := (s, [])) hs hbody
    hbehind
  refine ⟨hw, fun x => (hall x).trans ⟨?_, ?_⟩⟩
  · rintro (h | ⟨tx, htx, rfl⟩)
    · exact .inl h
    · exact .inr ((hlacks _).1 ((Graph.mem_transactionsForInOrder (hV.inv n).grown.wf).1 htx).1).1
  · rintro (h | h)
    · exact .inl h
    · rcases hc : s.contains x
      · obtain ⟨tx, hl⟩ := Graph.contains_iff.1 (hmono x h)
        have hid := (hV.inv n).grown.wf.id_eq hl
        refine .inr ⟨tx, (Graph.mem_transactionsForInOrder (hV.inv n).grown.wf).2 ?_, hid⟩
        rw [hid]
        exact ⟨(hlacks x).2 ⟨h, hc⟩, hl⟩
      · exact .inl rfl

theorem faucet_ingestAll : ∀ (txs : List DagTransaction) (g : LoggedDag),
    ((isolatedDag P).logged.ingestAll g txs).1.faucet = g.1.faucet
  | [], _ => rfl
  | tx :: txs, g => by
    rw [ingestAll_cons, faucet_ingestAll txs]
    exact faucet_accept g.1 tx

/-- Bodies that come behind their parents and are allowed are all stored in the end. -/
theorem stored_of_ingests (hG : G.Serves P dag) (hU : Universe P U) {d : KronDAG} :
    ∀ (txs : List DagTransaction) {n : ℕ} {has : TxHash → Prop},
      (∀ tx ∈ txs, tx ∈ U ∧ tx.Sound P) → KronDAG.BehindParents has txs →
      (∀ e ∈ ingests G V txs n, e.2 = (G.allowNewVertex e.1).1 → (G.allowNewVertex e.1).2 = true) →
      (ingests G V txs n).Pairwise (fun e e' => (dag e.2).Below (dag e'.1)) →
      (∀ e ∈ ingests G V txs n, (dag e.1).Within P start U ∧ (dag e.2).Below d
        ∧ ∀ x, has x → (dag e.1).contains x = true) →
      ∀ tx ∈ txs, d.contains tx.id = true
  | [], _, _, _, _, _, _, _ => fun _ h => by cases h
  | tx :: txs, n, has, hall, ⟨hp, hbehind⟩, hallow, horder, hlog => by
    obtain ⟨⟨htx, hsound⟩, hall⟩ := List.forall_mem_cons.1 hall
    have hyes : (G.allowNewVertex (V n)).2 = true :=
      hallow (V n, _) (by rw [ingests]; exact List.mem_cons_self) rfl
    rw [ingests, if_pos hyes] at hallow horder hlog
    obtain ⟨-, horder⟩ := List.pairwise_cons.1 horder
    obtain ⟨hafter, horder⟩ := List.pairwise_cons.1 horder
    obtain ⟨-, hlog⟩ := List.forall_mem_cons.1 hlog
    obtain ⟨⟨hw, hleft, hhas⟩, hlog⟩ := List.forall_mem_cons.1 hlog
    have hstored : (dag (G.ingest (V (n + 1)) tx).1).contains tx.id = true := by
      rw [hG.ingest]
      exact hw.stores hU htx hsound fun p hpar => hhas p (hp p hpar)
    refine List.forall_mem_cons.2 ⟨hleft _ hstored, ?_⟩
    refine stored_of_ingests hG hU txs hall hbehind
      (fun e he => hallow e (List.mem_cons_of_mem _ (List.mem_cons_of_mem _ he))) horder
      fun e he => ?_
    obtain ⟨hw', hleft', hhas'⟩ := hlog e he
    refine ⟨hw', hleft', fun x hx => ?_⟩
    rcases hx with hx | rfl
    · exact hhas' x hx
    · exact hafter e he _ hstored

/-- A list without doubles of what a node stores is no longer than `U`. -/
theorem length_le_card (hs : s.Within P start U) {ids : List TxHash} (hnd : ids.Nodup)
    (hin : ∀ x ∈ ids, s.contains x = true) : ids.length ≤ U.card := by
  have hle : ids.length ≤ s.attachOrder.length :=
    (List.subperm_of_subset hnd fun x hx => (hs.grown.wf.mem_order x).2 (hin x hx)).length_le
  exact hle.trans (hs.sound.graph.length.le.trans
    (KronDAG.vertexCount_le_card hs.grown.wf hs.stored))

theorem length_bodies_le (hs : s.Within P start U) (ids : List TxHash) :
    (s.transactionsForInOrder ids).length ≤ U.card := by
  have hids := Graph.map_id_transactionsForInOrder hs.grown.wf ids
  have hlen := length_le_card hs (hs.grown.wf.nodup.filter fun id => ids.contains id) fun x hx =>
    (hs.grown.wf.mem_order x).1 (List.mem_filter.1 hx).1
  rwa [← hids, List.length_map] at hlen

/-- What the peer offers, it has and the thread has not listed. -/
theorem mem_offered (hU : Universe P U) (hs : s.Within P start U) {d : KronDAG}
    (hd : d.Within P start U) {x : TxHash} (hx : x ∈ offered s d) : s.contains x = true := by
  have hsend := hs.sendable hU
  have hrecv := hd.sendable hU
  exact ((hrecv.mem_lacks hsend x).1 (mem_lacks_of_have hs.grown hd.grown hsend.ne_null
    hsend.within hrecv.within hx)).1

/-- A round takes a bounded number of turns. -/
theorem turns_round_le (hU : Universe P U) (hs : s.Within P start U)
    (hV : Views P start U dag V) :
    18 + 2 * ((bodiesUp dag V s).length + (bodiesDown dag V s).length)
      + (roundLog G dag V s).length ≤ 22 + 7 * U.card := by
  have hup : (bodiesUp dag V s).length ≤ U.card := length_bodies_le hs _
  have hdown : (bodiesDown dag V s).length ≤ U.card := length_bodies_le (hV.inv _) _
  have hoffered : (offered s (dag (V 1))).length ≤ U.card :=
    length_le_card hs (nodup_collectHave _) fun x hx => mem_offered hU hs (hV.inv 1) hx
  have hlog := length_ingests_le G V (bodiesUp dag V s) ((offered s (dag (V 1))).length + 4)
  rw [roundLog, List.length_append, List.length_cons, length_looks]
  omega

/-- All of the peer's vertices are in the graph in the end, where none is refused. -/
theorem stored_of_roundLog (hG : G.Serves P dag) (hU : Universe P U) (hs : s.Within P start U)
    (hV : Views P start U dag V) {d : KronDAG}
    (hallow : ∀ e ∈ roundLog G dag V s,
      e.2 = (G.allowNewVertex e.1).1 → (G.allowNewVertex e.1).2 = true)
    (horder : (roundLog G dag V s).Pairwise fun e e' => (dag e.2).Below (dag e'.1))
    (hlog : ∀ e ∈ roundLog G dag V s, (dag e.1).Within P start U ∧ (dag e.2).Below d) :
    s.Below d := by
  have hlacks := ((hV.inv 2).sendable hU).mem_lacks (hs.sendable hU)
  rw [roundLog] at hallow horder hlog
  obtain ⟨-, horder, hacross⟩ := List.pairwise_append.1 horder
  -- the thread has asked for what it lacked at its third access
  have hthird : (V 2, V 2) ∈ (V 0, G.applyInventory (V 0) (SyncInventory.fromDag s.toGraph 0)) ::
      looks V 1 ((offered s (dag (V 1))).length + 3) :=
    List.mem_cons_of_mem _ (List.mem_cons_of_mem _ List.mem_cons_self)
  have hbehind : KronDAG.BehindParents (fun x => (dag (V 2)).contains x = true)
      (bodiesUp dag V s) := by
    refine hs.behindParents fun y _ tx hl p hp => ?_
    rcases hc : (dag (V 2)).contains p
    · exact .inr ((hlacks p).2 ⟨hs.grown.wf.parents_of_lookup hl p hp, hc⟩)
    · exact .inl rfl
  have hstored := stored_of_ingests (d := d) hG hU (bodiesUp dag V s)
    (fun tx htx => (hV.inv 2).body hs (fun x hx => ((hlacks x).1 hx).2) htx) hbehind
    (fun e he => hallow e (List.mem_append_right _ he)) horder fun e he =>
      ⟨(hlog e (List.mem_append_right _ he)).1, (hlog e (List.mem_append_right _ he)).2,
        fun x hx => hacross _ hthird e he x hx⟩
  intro x hx
  rcases hc : (dag (V 2)).contains x
  · obtain ⟨tx, hl⟩ := Graph.contains_iff.1 hx
    have hid := hs.grown.wf.id_eq hl
    have htx : tx ∈ bodiesUp dag V s := by
      refine (Graph.mem_transactionsForInOrder hs.grown.wf).2 ?_
      rw [hid]
      exact ⟨(hlacks x).2 ⟨hx, hc⟩, hl⟩
    exact hid ▸ hstored tx htx
  · exact (hlog _ (List.mem_append_left _ hthird)).2 x hc

/-! ## Sessions -/

/-- Who connects to a hub: a peer that syncs, or a wallet that hands over a vertex. -/
inductive MeshClient
  | connect (role : MeshRole) (dag : KronDAG)
  | broadcast (tx : DagTransaction)

namespace MeshClient

def peer (P : Primitives) : MeshClient → LoggedDag × MeshProc LoggedDag
  | connect role dag => ((dag, []), MeshProc.meshSyncConnect (isolatedDag P).logged role)
  -- a wallet has no graph, and looks at none
  | broadcast tx => ((KronDAG.new, []), MeshProc.broadcastWalletTx tx)

def Fits (P : Primitives) (start : Graph) (U : Finset DagTransaction) : MeshClient → Prop
  | connect role dag => role ≠ .wallet ∧ dag.Within P start U
  | broadcast tx => tx ∈ U ∧ tx.Sound P

/-- The role in the client's hello. -/
def role : MeshClient → MeshRole
  | connect role _ => role
  | broadcast _ => .wallet

/-- A client that has written its hello, and waits for the hub's. -/
def greeted (P : Primitives) : MeshClient → LoggedDag × MeshProc LoggedDag
  | connect _ dag => ((dag, []),
      .read (MeshProc.expectHello (MeshProc.runSyncRound (isolatedDag P).logged true)))
  | broadcast tx => ((KronDAG.new, []),
      .read (MeshProc.expectHello (.write (.dagTransaction tx) (.read MeshProc.onSubmitted))))

variable (P G dag)

/-- The steps behind the hello of the client. -/
def len (V : ℕ → γ) : MeshClient → ℕ
  | connect _ s => 20 + 2 * ((bodiesUp dag V s).length + (bodiesDown dag V s).length)
  | broadcast tx => if takes G V tx then 6 else 4

def res (V : ℕ → γ) : MeshClient → Except (Fault NetworkError) Unit
  | connect _ _ => .ok ()
  | broadcast tx => submitRes G V tx

def finish (V : ℕ → γ) : MeshClient → LoggedDag × MeshProc LoggedDag
  | connect _ s => peerEnd P dag V s
  | broadcast tx => submitEnd G V (KronDAG.new, []) tx

def accesses (V : ℕ → γ) : MeshClient → List (γ × γ)
  | connect _ s => roundLog G dag V s
  | broadcast tx => submitLog G V tx

end MeshClient

/-- The end of a session, and in how many steps of its two parties it comes there. -/
structure SessionEnd (γ : Type) where
  len : ℕ
  res : Except (Fault NetworkError) Unit
  peer : LoggedDag × MeshProc LoggedDag
  log : List (γ × γ)
  unread : List Frame

namespace MeshClient

variable (P G dag) (S : MeshSlots γ)

/-- The end of a session that has found a slot. -/
def served (V : ℕ → γ) (m : MeshClient) : SessionEnd γ where
  len := 2 + m.len G dag fun n => V (1 + n)
  res := m.res G fun n => V (1 + n)
  peer := m.finish P G dag fun n => V (1 + n)
  log :=
    let log := [(V 0, (S.tryAcquire (V 0)).1)] ++ m.accesses G dag fun n => V (1 + n)
    log ++ [(V log.length, S.release (V log.length))]
  unread := []

/-- The end of one that has found none: the hello of the client is not answered, nor is it read
where the session looks for a slot before. -/
def refused (V : ℕ → γ) (entry : MeshThread.Entry) (m : MeshClient) : SessionEnd γ where
  len := match entry with
    | .serve => 1
    | .inbound => 2
  res := .ok ()
  peer := m.greeted P
  log := [(V 0, (S.tryAcquire (V 0)).1), (V 1, S.backOut (V 1))]
  unread := match entry with
    | .serve => [frameOf (.hello protocolKronMesh m.role)]
    | .inbound => []

def ended (V : ℕ → γ) (entry : MeshThread.Entry) (m : MeshClient) : SessionEnd γ :=
  if (S.tryAcquire (V 0)).2 then m.served P G dag S V else m.refused P S V entry

end MeshClient

variable (P) in
/-- A session before its first turn. -/
def openSession (G : MeshGraph γ) (S : MeshSlots γ) (entry : MeshThread.Entry) (m : MeshClient) :
    Session MeshLoop γ Frame (Except (Fault NetworkError) Unit)
      (LoggedDag × MeshProc LoggedDag) where
  thread := MeshThread.enter P G S entry
  log := []
  peer := m.peer P
  toThread := []
  toPeer := []
  turns := 0

theorem length_submitLog_le (G : MeshGraph γ) (V : ℕ → γ) (tx : DagTransaction) :
    (submitLog G V tx).length ≤ 2 := by
  rw [submitLog]
  split_ifs
  · exact le_rfl
  · exact Nat.le_succ 1

theorem keeps_submitLog (hG : G.Serves P dag) (hU : Universe P U) {tx : DagTransaction}
    (htx : tx ∈ U) (he : e ∈ submitLog G V tx) (h : (dag e.1).Within P start U) :
    (dag e.2).Within P start U ∧ (dag e.1).Below (dag e.2) := by
  rw [submitLog, List.mem_cons] at he
  rcases he with rfl | he
  · rw [hG.allowNewVertex]
    exact ⟨h, .refl _⟩
  · split_ifs at he
    · rw [List.mem_singleton.1 he] at h ⊢
      rw [hG.ingest]
      exact h.accept hU htx
    · cases he

theorem DagTransaction.Sound.readable {tx : DagTransaction} (h : tx.Sound P) (hU : Universe P U)
    (htx : tx ∈ U) : (MeshWireMessage.dagTransaction tx).Readable P :=
  readable_dagTransaction h.signature h.relayProofs (hU.bytes tx htx)

theorem moves_greeted (m : MeshClient) : Moves (meshAct P (isolatedDag P).logged) (m.peer P) []
    [frameOf (.hello protocolKronMesh m.role)] (m.greeted P) := by
  cases m with
  | connect role s => exact moves_write (readable_hello role) (.refl _)
  | broadcast tx => exact moves_write (readable_hello .wallet) (.refl _)

/-- A session in which the client has written its hello and the thread has read it, with a slot. -/
theorem enter_steps {S : MeshSlots γ} (entry : MeshThread.Entry) (m : MeshClient)
    (hfree : (S.tryAcquire (V 0)).2 = true) :
    Steps (partyAct (MeshThread.guardedTurn P G S) (meshAct P (isolatedDag P).logged) V) 2
      (view (MeshThread.guardedTurn P G S) V (openSession P G S entry m))
      ⟨.inl (m.greeted P), .inr (settle (MeshThread.guardedTurn P G S) V
        [(V 0, (S.tryAcquire (V 0)).1)]
        ((MeshThread.finishAuthenticatedMesh P G m.role).guarded S.release)), [], []⟩ := by
  have hhello := onFrame_hello (P := P) (MeshThread.finishAuthenticatedMesh P G) m.role
  have hslot : ∀ t : MeshThread γ, settle (MeshThread.guardedTurn P G S) V []
      (MeshThread.acquireThen S t) = settle (MeshThread.guardedTurn P G S) V
        [(V 0, (S.tryAcquire (V 0)).1)] (t.guarded S.release) := by
    intro t
    change settle _ V [(V 0, (S.tryAcquire (V 0)).1)] (if (S.tryAcquire (V 0)).2 = true then _
      else _) = _
    rw [if_pos hfree]
  have hread : Moves (partyAct (MeshThread.guardedTurn P G S) (meshAct P (isolatedDag P).logged) V)
      (.inr (settle (MeshThread.guardedTurn P G S) V [] (MeshThread.enter P G S entry)))
      [frameOf (.hello protocolKronMesh m.role)] []
      (.inr (settle (MeshThread.guardedTurn P G S) V [(V 0, (S.tryAcquire (V 0)).1)]
        ((MeshThread.finishAuthenticatedMesh P G m.role).guarded S.release))) := by
    rw [← hhello]
    cases entry with
    | serve =>
      rw [MeshThread.enter, MeshThread.serveAuthenticatedMesh, hslot]
      exact Moves.read rfl (.refl _)
    | inbound =>
      rw [← hslot]
      exact Moves.read rfl (.refl _)
  exact (peer_moves (moves_greeted m)).left_turn_steps.trans hread.right_turn_steps

/-- A session for which there is a slot comes to its end as the round or the submit does. -/
theorem served_steps {S : MeshSlots γ} {m : MeshClient} (entry : MeshThread.Entry)
    (hG : G.Serves P dag) (hU : Universe P U) (hm : m.Fits P start U)
    (hV : Views P start U dag V) (hfree : (S.tryAcquire (V 0)).2 = true) :
    Steps (partyAct (MeshThread.guardedTurn P G S) (meshAct P (isolatedDag P).logged) V)
      (m.served P G dag S V).len
      (view (MeshThread.guardedTurn P G S) V (openSession P G S entry m))
      ⟨.inl (m.served P G dag S V).peer,
        .inr ((m.served P G dag S V).log, .stop (m.served P G dag S V).res), [], []⟩ := by
  refine (enter_steps entry m hfree).trans ?_
  cases m with
  | connect role s =>
    exact guarded_steps _ S.release _ (connect_steps hm.1 hG hU hm.2 (hV.behind 1))
  | broadcast tx =>
    exact guarded_steps _ S.release _ (submit_steps (hm.2.readable hU hm.1))

/-- A session for which there is none has stopped before it answers. -/
theorem refused_steps {S : MeshSlots γ} (entry : MeshThread.Entry) (m : MeshClient)
    (hfull : (S.tryAcquire (V 0)).2 = false) :
    Steps (partyAct (MeshThread.guardedTurn P G S) (meshAct P (isolatedDag P).logged) V)
      (m.refused P S V entry).len
      (view (MeshThread.guardedTurn P G S) V (openSession P G S entry m))
      ⟨.inl (m.refused P S V entry).peer,
        .inr ((m.refused P S V entry).log, .stop (m.refused P S V entry).res), [],
        (m.refused P S V entry).unread⟩ := by
  have hslot : ∀ t : MeshThread γ, settle (MeshThread.guardedTurn P G S) V []
      (MeshThread.acquireThen S t) = ((m.refused P S V entry).log, .stop (.ok ())) := by
    intro t
    change settle _ V [(V 0, (S.tryAcquire (V 0)).1)] (if (S.tryAcquire (V 0)).2 = true then _
      else _) = _
    rw [hfull, if_neg Bool.false_ne_true]
    rfl
  cases entry with
  | serve =>
    have hview : view (MeshThread.guardedTurn P G S) V (openSession P G S .serve m)
        = ⟨.inl (m.peer P), .inr ((m.refused P S V .serve).log, .stop (.ok ())), [], []⟩ := by
      rw [view, openSession, MeshThread.enter, MeshThread.serveAuthenticatedMesh, hslot]
    rw [hview]
    exact (peer_moves (moves_greeted m)).left_turn_steps
  | inbound =>
    have hread : Moves (partyAct (MeshThread.guardedTurn P G S)
        (meshAct P (isolatedDag P).logged) V)
        (.inr (settle (MeshThread.guardedTurn P G S) V [] (MeshThread.handleInbound P G S)))
        [frameOf (.hello protocolKronMesh m.role)] []
        (.inr ((m.refused P S V .inbound).log, .stop (.ok ()))) := by
      rw [← hslot]
      exact Moves.read rfl (.refl _)
    exact (peer_moves (moves_greeted m)).left_turn_steps.trans hread.right_turn_steps

/-- The slots are beside the graph. -/
structure MeshSlots.Beside (S : MeshSlots γ) (dag : γ → KronDAG) : Prop where
  tryAcquire : ∀ g, dag (S.tryAcquire g).1 = dag g
  backOut : ∀ g, dag (S.backOut g) = dag g
  release : ∀ g, dag (S.release g) = dag g

namespace MeshClient

variable {S : MeshSlots γ} {entry : MeshThread.Entry} {m : MeshClient}

theorem ended_of_free (h : (S.tryAcquire (V 0)).2 = true) :
    m.ended P G dag S V entry = m.served P G dag S V := if_pos h

theorem ended_of_full (h : (S.tryAcquire (V 0)).2 = false) :
    m.ended P G dag S V entry = m.refused P S V entry := by
  rw [ended, h]
  rfl

theorem keeps_accesses (hG : G.Serves P dag) (hU : Universe P U) (hm : m.Fits P start U)
    (he : e ∈ m.accesses G dag V) (h : (dag e.1).Within P start U) :
    (dag e.2).Within P start U ∧ (dag e.1).Below (dag e.2) := by
  cases m with
  | connect role s => exact keeps_roundLog hG hU hm.2 he h
  | broadcast tx => exact keeps_submitLog hG hU hm.1 he h

/-- No access of a session spoils or loses anything, and those to its slot leave the graph alone. -/
theorem keeps_ended (hG : G.Serves P dag) (hS : S.Beside dag) (hU : Universe P U)
    (hm : m.Fits P start U) (he : e ∈ (m.ended P G dag S V entry).log)
    (h : (dag e.1).Within P start U) :
    (dag e.2).Within P start U ∧ (dag e.1).Below (dag e.2) := by
  have hsame : ∀ {g}, dag g = dag e.1 → (dag g).Within P start U ∧ (dag e.1).Below (dag g) :=
    fun hg => hg.symm ▸ ⟨h, .refl _⟩
  cases hfree : (S.tryAcquire (V 0)).2 with
  | true =>
    rw [ended_of_free hfree, served, List.mem_append, List.singleton_append, List.mem_cons] at he
    rcases he with (rfl | he) | he
    · exact hsame (hS.tryAcquire _)
    · exact keeps_accesses hG hU hm he h
    · rw [List.mem_singleton.1 he] at hsame ⊢
      exact hsame (hS.release _)
  | false =>
    rw [ended_of_full hfree] at he
    change e ∈ [(V 0, (S.tryAcquire (V 0)).1), (V 1, S.backOut (V 1))] at he
    rw [List.mem_cons, List.mem_singleton] at he
    rcases he with rfl | rfl
    · exact hsame (hS.tryAcquire _)
    · exact hsame (hS.backOut _)

/-- A client whose session has ended has nothing left to write. -/
theorem rests_ended (msg : Frame) (p : LoggedDag × MeshProc LoggedDag) :
    meshAct P (isolatedDag P).logged (m.ended P G dag S V entry).peer ≠ .write msg p := by
  intro h
  cases hfree : (S.tryAcquire (V 0)).2 with
  | true =>
    rw [ended_of_free hfree, served] at h
    cases m with
    | connect role s => cases h
    | broadcast tx =>
      rw [finish, submitEnd] at h
      split_ifs at h <;> cases h
  | false =>
    rw [ended_of_full hfree] at h
    cases m <;> cases h

end MeshClient

/-- Sessions keep to a contract. -/
theorem contract_sessions {κ : Type} {S : MeshSlots γ} (entry : κ → MeshThread.Entry)
    (hG : G.Serves P dag) (hS : S.Beside dag) (hU : Universe P U) {clients : κ → MeshClient}
    (hfit : ∀ i, (clients i).Fits P start U) {other : γ → γ → Prop}
    (hother : ∀ {a b}, (dag a).Within P start U → other a b →
      (dag b).Within P start U ∧ (dag a).Below (dag b)) :
    Contract (MeshThread.guardedTurn P G S) (meshAct P (isolatedDag P).logged) other
      (fun g => (dag g).Within P start U) (fun g g' => (dag g).Below (dag g'))
      (fun i => openSession P G S (entry i) (clients i))
      (fun i V => ((clients i).ended P G dag S V (entry i)).len)
      (fun i V => ((clients i).ended P G dag S V (entry i)).res)
      (fun i V => ((clients i).ended P G dag S V (entry i)).peer)
      (fun i V => ((clients i).ended P G dag S V (entry i)).log)
      (fun i V => ((clients i).ended P G dag S V (entry i)).unread) where
  refl _ := .refl _
  trans h h' := h.trans h'
  other := hother
  steps i V hV := by
    cases hfree : (S.tryAcquire (V 0)).2 with
    | true =>
      rw [MeshClient.ended_of_free hfree]
      exact served_steps (entry i) hG hU (hfit i) hV hfree
    | false =>
      rw [MeshClient.ended_of_full hfree]
      exact refused_steps (entry i) (clients i) hfree
  rests _ _ _ := MeshClient.rests_ended
  keeps i _ _ _ := MeshClient.keeps_ended hG hS hU (hfit i)

/-- A session takes a bounded number of turns. -/
theorem turns_session_le {S : MeshSlots γ} {entry : MeshThread.Entry} (hU : Universe P U)
    {m : MeshClient} (hm : m.Fits P start U) (hV : Views P start U dag V) :
    (m.ended P G dag S V entry).len + (m.ended P G dag S V entry).log.length ≤ 28 + 7 * U.card := by
  have hserved : ∀ V, Views P start U dag V →
      m.len G dag V + (m.accesses G dag V).length ≤ 24 + 7 * U.card := by
    intro V hV
    cases m with
    | connect role s =>
      have hround := turns_round_le (G := G) hU hm.2 hV
      rw [MeshClient.len, MeshClient.accesses]
      omega
    | broadcast tx =>
      have hlog := length_submitLog_le G V tx
      rw [MeshClient.len, MeshClient.accesses]
      split_ifs <;> omega
  unfold MeshClient.ended
  split_ifs
  · have hle := hserved _ (hV.behind 1)
    simp only [MeshClient.served, List.length_append, List.length_singleton]
    omega
  · cases entry with
    | serve =>
      change 1 + 2 ≤ 28 + 7 * U.card
      omega
    | inbound =>
      change 2 + 2 ≤ 28 + 7 * U.card
      omega

end Rounds

/-! ## A hub -/

section Hub

open RateLimit

variable {P : Primitives} {start : Graph} {U : Finset DagTransaction}

/-- What becomes of a hub beside the sessions: its miner and others store vertices of `U`, these
are persisted, and the window of new vertices goes on. -/
inductive Elsewhere (P : Primitives) (U : Finset DagTransaction) : SharedHub → SharedHub → Prop
  | ingest {g : SharedHub} {tx : DagTransaction} : tx ∈ U →
    Elsewhere P U g { g with hub := (g.hub.ingest P tx).1 }
  | attach {g : SharedHub} {tx : DagTransaction} (host : Except ShieldError Unit)
    (device : AttachingDevice) : tx ∈ U → Elsewhere P U g { g with
      hub := { g.hub with dag := (g.hub.dag.attachAndVerifyFor P host tx device).1 } }
  | persist {g : SharedHub} (tx : DagTransaction) :
    Elsewhere P U g { g with hub := g.hub.persistVertex P tx }
  | window {g : SharedHub} (w : VertexWindow) (r : Readings) :
    Elsewhere P U g { g with window := w, readings := r }

abbrev HubSystem (κ : Type) :=
  System κ MeshLoop SharedHub Frame (Except (Fault NetworkError) Unit)
    (LoggedDag × MeshProc LoggedDag)

abbrev HubStep {κ : Type} [DecidableEq κ] (P : Primitives) (U : Finset DagTransaction) :
    HubSystem κ → HubSystem κ → Prop :=
  Serving.Step (MeshThread.guardedTurn P (sharedGraph P) sharedSlots)
    (meshAct P (isolatedDag P).logged) (Elsewhere P U)

/-- A hub to which `clients` have just connected. -/
def openSessions {κ : Type} (P : Primitives) (g : HubTurn) (entry : κ → MeshThread.Entry)
    (clients : κ → MeshClient) : HubSystem κ where
  shared := { g with sessions := 0 }
  session i := openSession P (sharedGraph P) sharedSlots (entry i) (clients i)

/-- Neither the thread nor the peer can take a turn. -/
def Idle {κ : Type} (P : Primitives) (c : HubSystem κ) (i : κ) : Prop :=
  ∀ g s, ¬ Turn (MeshThread.guardedTurn P (sharedGraph P) sharedSlots)
    (meshAct P (isolatedDag P).logged) c.shared (c.session i) g s

/-- The window has room whenever the thread asks for a new vertex. -/
def Unrefused {κ : Type} (P : Primitives) (c : HubSystem κ) (i : κ) : Prop :=
  ∀ e ∈ (c.session i).log, e.2 = ((sharedGraph P).allowNewVertex e.1).1 →
    ((sharedGraph P).allowNewVertex e.1).2 = true

theorem dag_ingest (hub : HubState) (tx : DagTransaction) :
    (hub.ingest P tx).1.dag = (hub.dag.acceptWireVertex P tx).1
      ∧ (hub.ingest P tx).2 = (hub.dag.acceptWireVertex P tx).2 := by
  unfold HubState.ingest
  split
  · rename_i heq
    rw [heq]
    exact ⟨rfl, rfl⟩
  · rename_i heq
    rw [heq]
    exact ⟨rfl, rfl⟩

theorem serves_sharedGraph (P : Primitives) : (sharedGraph P).Serves P fun g => g.hub.dag where
  inventory _ := rfl
  contains _ _ := rfl
  ingest g tx := (dag_ingest g.hub tx).1
  ingested g tx := (dag_ingest g.hub tx).2
  bodiesInOrder _ _ := rfl
  applyInventory _ _ := rfl
  needAndHave _ _ := rfl
  allowNewVertex _ := rfl

theorem beside_sharedSlots : sharedSlots.Beside fun g => g.hub.dag where
  tryAcquire _ := rfl
  backOut _ := rfl
  release _ := rfl

theorem Elsewhere.sessions_eq {g g' : SharedHub} (h : Elsewhere P U g g') :
    g'.sessions = g.sessions := by
  cases h <;> rfl

theorem Elsewhere.keeps (hU : Universe P U) {V : Finset DagTransaction} (hV : V ⊆ U)
    {g g' : SharedHub} (hg : g.hub.dag.Within P start U) (h : Elsewhere P V g g') :
    g'.hub.dag.Within P start U ∧ g.hub.dag.Below g'.hub.dag := by
  cases h with
  | ingest htx =>
    change (g.hub.ingest P _).1.dag.Within P start U ∧ g.hub.dag.Below (g.hub.ingest P _).1.dag
    rw [(dag_ingest g.hub _).1]
    exact hg.accept hU (hV htx)
  | @attach tx host device htx =>
    refine hg.exec hU (.attach host tx device) rfl fun y hy => ?_
    rw [KronDAG.enters] at hy
    split_ifs at hy
    · rw [List.mem_singleton.1 hy]
      exact hV htx
    · cases hy
  | persist tx => exact ⟨hg, .refl _⟩
  | window w r => exact ⟨hg, .refl _⟩

section Run

variable {κ : Type} [DecidableEq κ] {g₀ : HubTurn} {entry : κ → MeshThread.Entry}
  {clients : κ → MeshClient} {V : Finset DagTransaction} {c : HubSystem κ} {i : κ}

/-- However the turns fall: the hub loses nothing, no session takes more turns than that, and one in
which nobody can take a turn has come to the end that it has for what it has found. -/
theorem sessions_spec (hU : Universe P U) (hV : V ⊆ U) (hhub : g₀.hub.dag.Within P start U)
    (hfit : ∀ i, (clients i).Fits P start U)
    (hreach : ReflTransGen (HubStep P V) (openSessions P g₀ entry clients) c) :
    c.shared.hub.dag.Within P start U ∧ g₀.hub.dag.Below c.shared.hub.dag
      ∧ (∀ i, (c.session i).turns ≤ 28 + 7 * U.card)
      ∧ ∀ i, Idle P c i → ∃ W : ℕ → SharedHub, Views P start U (fun g => g.hub.dag) W
        ∧ (∀ n, g₀.hub.dag.Below (W n).hub.dag ∧ (W n).hub.dag.Below c.shared.hub.dag)
        ∧ ∃ e, (clients i).ended P (sharedGraph P) (fun g => g.hub.dag) sharedSlots W (entry i) = e
          ∧ (c.session i).thread = .stop e.res ∧ (c.session i).peer = e.peer
          ∧ (c.session i).log = e.log ∧ (c.session i).toPeer = [] := by
  have hc := contract_sessions entry (serves_sharedGraph P) beside_sharedSlots hU hfit
    fun hw (h : Elsewhere P V _ _) => h.keeps hU hV hw
  have hfresh : Fresh (openSessions P g₀ entry clients) := fun i => ⟨rfl, rfl⟩
  obtain ⟨hsafe, hbelow, hsince⟩ := hc.safe hfresh hhub hreach
  refine ⟨hsafe.inv, hbelow, fun i => ?_, fun i hidle => ?_⟩
  · exact (hsafe.turns_le hc hfresh hreach i).trans
      (turns_session_le hU (hfit i) (hsafe.growing hc i))
  · obtain ⟨hthread, hpeer, hlog, hto, -⟩ := hsafe.stopped hc hfresh hreach hidle
    refine ⟨_, hsafe.growing hc i, fun n => ?_, _, rfl, hthread, hpeer, hlog, hto⟩
    rcases viewsOf_cases (c.session i).log c.shared n with ⟨e, he, hW⟩ | hW
    · rw [hW]
      exact ⟨hsince i e he, (hsafe.left i e he).1.trans (hsafe.left i e he).2⟩
    · rw [hW]
      exact ⟨hbelow, .refl _⟩

/-- A run is safe, as `sessions_spec` says of its log. -/
theorem safe_sessions (hU : Universe P U) (hV : V ⊆ U) (hhub : g₀.hub.dag.Within P start U)
    (hfit : ∀ i, (clients i).Fits P start U)
    (hreach : ReflTransGen (HubStep P V) (openSessions P g₀ entry clients) c) :
    Safe (fun g => g.hub.dag.Within P start U) (fun g g' => g.hub.dag.Below g'.hub.dag) c := by
  have hc := contract_sessions entry (serves_sharedGraph P) beside_sharedSlots hU hfit
    fun hw (h : Elsewhere P V _ _) => h.keeps hU hV hw
  exact (hc.safe (fun i => ⟨rfl, rfl⟩) hhub hreach).1

/-- The slots in a run. -/
theorem slots_sessions [Fintype κ] (hcard : Fintype.card κ < 2 ^ 64)
    (hreach : ReflTransGen (HubStep P V) (openSessions P g₀ entry clients) c) : SlotsKept P c :=
  slotsKept_run hcard (fun h => h.sessions_eq) (fun _ => ⟨rfl, rfl⟩) rfl (fun _ => rfl) hreach

/-- Whatever has happened, the turns can be taken until nobody can take one. -/
theorem exists_idle [Fintype κ]
    (hreach : ReflTransGen (HubStep P V) (openSessions P g₀ entry clients) c)
    (hU : Universe P U) (hV : V ⊆ U) (hhub : g₀.hub.dag.Within P start U)
    (hfit : ∀ i, (clients i).Fits P start U) :
    ∃ c', ReflTransGen (HubStep P V) c c' ∧ ∀ i, Idle P c' i := by
  refine exists_stuck (fun _ => 28 + 7 * U.card) _ (fun c' h i => ?_) (Nat.le_add_right _ _)
  exact (sessions_spec hU hV hhub hfit (hreach.trans h)).2.2.1 i

/-- There was no slot: the session is closed, and its client, which has what it had, waits for a
hello. -/
def Refused (P : Primitives) (c : HubSystem κ) (i : κ) (m : MeshClient) : Prop :=
  (∃ g g', (c.session i).log = [(g, (sharedSlots.tryAcquire g).1), (g', sharedSlots.backOut g')]
    ∧ maxMeshConnections ≤ g.sessions)
  ∧ (c.session i).thread = .stop (.ok ()) ∧ (c.session i).peer = m.greeted P
  ∧ (c.session i).toPeer = []

/-- What a session at rest that had a slot has come to. -/
def Served (P : Primitives) (g₀ : HubTurn) (c : HubSystem κ) (i : κ) : MeshClient → Prop
  | .connect _ s => (c.session i).thread = .stop (.ok ())
    ∧ (c.session i).peer.2 = .stop (.ok ())
    ∧ (∃ d : KronDAG, g₀.hub.dag.Below d ∧ d.Below c.shared.hub.dag
      ∧ ∀ x, (c.session i).peer.1.1.contains x = true
        ↔ s.contains x = true ∨ d.contains x = true)
    ∧ (Unrefused P c i → s.Below c.shared.hub.dag)
  | .broadcast tx => ((c.session i).thread = .stop (.ok ())
      ∧ (c.session i).peer.2 = .stop (.ok ()) ∧ c.shared.hub.dag.contains tx.id = true)
    -- the wallet is still waiting, at a session that is closed
    ∨ ((c.session i).thread = .stop (.error (.err .badFrame))
      ∧ (c.session i).peer.2 = .read MeshProc.onSubmitted ∧ (c.session i).toPeer = []
      ∧ (Unrefused P c i → ∃ e ∈ (c.session i).log, ∃ p ∈ tx.parents,
        e.1.hub.dag.contains p = false))

/-- A session at rest has found no slot, or it has come to the end of what follows its guard; its
log is then that of the session between the two accesses for its slot. -/
theorem Idle.ended (hi : Idle P c i) (hU : Universe P U) (hV : V ⊆ U)
    (hhub : g₀.hub.dag.Within P start U) (hfit : ∀ i, (clients i).Fits P start U)
    (hreach : ReflTransGen (HubStep P V) (openSessions P g₀ entry clients) c) :
    Refused P c i (clients i) ∨ ∃ W : ℕ → SharedHub, Views P start U (fun g => g.hub.dag) W
      ∧ (∀ n, g₀.hub.dag.Below (W n).hub.dag ∧ (W n).hub.dag.Below c.shared.hub.dag)
      ∧ (c.session i).thread = .stop ((clients i).res (sharedGraph P) W)
      ∧ (c.session i).peer = (clients i).finish P (sharedGraph P) (fun g => g.hub.dag) W
      ∧ (clients i).accesses (sharedGraph P) (fun g => g.hub.dag) W <:+: (c.session i).log
      ∧ (c.session i).toPeer = [] := by
  obtain ⟨-, -, -, hend⟩ := sessions_spec hU hV hhub hfit hreach
  obtain ⟨W, hW, hbetween, e, he, hthread, hpeer, hlog, hto⟩ := hend i hi
  rw [MeshClient.ended] at he
  split_ifs at he with hfree
  · subst he
    refine .inr ⟨fun n => W (1 + n), hW.behind 1, fun n => hbetween (1 + n), hthread, hpeer, ?_,
      hto⟩
    rw [hlog]
    exact List.infix_append _ _ _
  · subst he
    refine .inl ⟨⟨_, _, hlog, ?_⟩, hthread, hpeer, hto⟩
    exact UInt64.not_lt.1 fun h => hfree (decide_eq_true h)

theorem Idle.served_connect {role : MeshRole} {s : KronDAG} (hi : Idle P c i)
    (hm : clients i = .connect role s) (hU : Universe P U) (hV : V ⊆ U)
    (hhub : g₀.hub.dag.Within P start U) (hfit : ∀ i, (clients i).Fits P start U)
    (hreach : ReflTransGen (HubStep P V) (openSessions P g₀ entry clients) c) :
    Refused P c i (clients i) ∨ Served P g₀ c i (.connect role s) := by
  refine (hi.ended hU hV hhub hfit hreach).imp_right ?_
  rintro ⟨W, hW, hbetween, hthread, hpeer, hlog, -⟩
  have hsafe := safe_sessions hU hV hhub hfit hreach
  have hs : (MeshClient.connect role s).Fits P start U := hm ▸ hfit i
  rw [hm] at hthread hpeer hlog
  have hin : ∀ e ∈ roundLog (sharedGraph P) (fun g => g.hub.dag) W s, e ∈ (c.session i).log :=
    fun e he => hlog.subset he
  refine ⟨hthread, by rw [hpeer]; rfl, ⟨(W 1).hub.dag, (hbetween 1).1, (hbetween 1).2, fun x => ?_⟩,
    fun hallow => ?_⟩
  · rw [hpeer]
    exact (peerEnd_spec hU hs.2 hW).2 x
  · exact stored_of_roundLog (serves_sharedGraph P) hU hs.2 hW (fun e he => hallow e (hin e he))
      ((hsafe.order i).sublist hlog.sublist) fun e he =>
        ⟨hsafe.found i e (hin e he), (hsafe.left i e (hin e he)).2⟩

theorem Idle.served_broadcast {tx : DagTransaction} (hi : Idle P c i)
    (hm : clients i = .broadcast tx) (hU : Universe P U) (hV : V ⊆ U)
    (hhub : g₀.hub.dag.Within P start U) (hfit : ∀ i, (clients i).Fits P start U)
    (hreach : ReflTransGen (HubStep P V) (openSessions P g₀ entry clients) c) :
    Refused P c i (clients i) ∨ Served P g₀ c i (.broadcast tx) := by
  refine (hi.ended hU hV hhub hfit hreach).imp_right ?_
  rintro ⟨W, hW, -, hthread, hpeer, hlog, hto⟩
  have hsafe := safe_sessions hU hV hhub hfit hreach
  have htx : (MeshClient.broadcast tx).Fits P start U := hm ▸ hfit i
  rw [hm] at hthread hpeer hlog
  rw [MeshClient.res, submitRes] at hthread
  rw [MeshClient.finish, submitEnd] at hpeer
  rw [MeshClient.accesses, submitLog] at hlog
  have hok := (hW.inv 1).accept_isOk hU htx.1 htx.2
  have hstores := (hW.inv 1).stores hU htx.1 htx.2
  rw [← (serves_sharedGraph P).ingested (W 1) tx] at hok
  have htakes : takes (sharedGraph P) W tx = true ↔ ((sharedGraph P).allowNewVertex (W 0)).2 = true
      ∧ ((sharedGraph P).ingest (W 1) tx).2.isOk = true := Bool.and_eq_true_iff
  by_cases ht : takes (sharedGraph P) W tx = true
  · rw [if_pos ht] at hthread hpeer
    obtain ⟨hallow, hing⟩ := htakes.1 ht
    rw [if_pos hallow] at hlog
    have hmem : (W 1, ((sharedGraph P).ingest (W 1) tx).1) ∈ (c.session i).log :=
      hlog.subset (List.mem_cons_of_mem _ List.mem_cons_self)
    refine .inl ⟨hthread, by rw [hpeer], ?_⟩
    refine (hsafe.left i _ hmem).2 _ ?_
    rw [(serves_sharedGraph P).ingest]
    exact hstores (hok.1 hing)
  · rw [if_neg ht] at hthread hpeer
    refine .inr ⟨hthread, by rw [hpeer], hto, fun hunrefused => ?_⟩
    have hallow : ((sharedGraph P).allowNewVertex (W 0)).2 = true :=
      hunrefused (W 0, ((sharedGraph P).allowNewVertex (W 0)).1)
        (hlog.subset List.mem_cons_self) rfl
    rw [if_pos hallow] at hlog
    have hno : ¬ ∀ p ∈ tx.parents, (W 1).hub.dag.contains p = true := fun hpar =>
      ht (htakes.2 ⟨hallow, hok.2 hpar⟩)
    simp only [not_forall, Bool.not_eq_true] at hno
    obtain ⟨p, hp, hmissing⟩ := hno
    exact ⟨(W 1, ((sharedGraph P).ingest (W 1) tx).1),
      hlog.subset (List.mem_cons_of_mem _ List.mem_cons_self), p, hp, hmissing⟩

/-- Of no more clients than there are slots none is refused. -/
theorem not_refused [Fintype κ] (hcard : Fintype.card κ ≤ 64)
    (hreach : ReflTransGen (HubStep P V) (openSessions P g₀ entry clients) c) (m : MeshClient) :
    ¬ Refused P c i m := by
  rintro ⟨⟨g, g', hlog, hfull⟩, -⟩
  have hfound := (slots_sessions (by omega) hreach).found i (g, (sharedSlots.tryAcquire g).1)
    (by rw [hlog]; rfl)
  have hle : 64 ≤ g.sessions.toNat := UInt64.le_iff_toNat_le.1 hfull
  exact absurd (hfound.trans_le hcard) (not_lt.2 hle)

/-- A hub and its clients, whichever way they come in and whatever the hub stores beside: in
whichever order they take their turns the hub loses nothing; no session takes more turns than so
many, and all can be brought to rest; no more than 64 sessions are served at a time, and of no more
than 64 clients none is refused. At rest, a session that was not refused has done what it was for. A
round has ended well on both sides, with the peer at its own vertices and those that the hub had at
some time since the beginning, and the hub has all that the peer had unless it has refused a vertex
for the rate of new ones. A wallet is answered or waits at a closed session; when it is answered the
hub has its vertex, and when it is not the hub was over its rate or lacked a parent. -/
theorem hub_sessions [Fintype κ]
    (hreach : ReflTransGen (HubStep P U) (openSessions P g₀ entry clients) c)
    (hU : Universe P U) (hhub : g₀.hub.dag.Within P start U)
    (hfit : ∀ i, (clients i).Fits P start U) :
    (c.shared.hub.dag.Within P start U ∧ g₀.hub.dag.Below c.shared.hub.dag
      ∧ (∀ i, (c.session i).turns ≤ 28 + 7 * U.card)
      ∧ ∀ i, Idle P c i → Refused P c i (clients i) ∨ Served P g₀ c i (clients i))
      ∧ (Fintype.card κ < 2 ^ 64 → ∑ i, inService (c.session i) ≤ 64)
      ∧ (Fintype.card κ ≤ 64 → ∀ i, ¬ Refused P c i (clients i))
      ∧ ∃ c', ReflTransGen (HubStep P U) c c' ∧ ∀ i, Idle P c' i := by
  have hsub := Finset.Subset.refl U
  obtain ⟨hw, hbelow, hturns, -⟩ := sessions_spec hU hsub hhub hfit hreach
  refine ⟨⟨hw, hbelow, hturns, fun i hi => ?_⟩, fun hcard => (slots_sessions hcard hreach).served,
    fun hcard i => not_refused hcard hreach _, exists_idle hreach hU hsub hhub hfit⟩
  cases hm : clients i with
  | connect role s => exact hm ▸ hi.served_connect hm hU hsub hhub hfit hreach
  | broadcast tx => exact hm ▸ hi.served_broadcast hm hU hsub hhub hfit hreach

/-- The vertices of `U` that `d` stores. -/
def heldOf (U : Finset DagTransaction) (d : KronDAG) : Finset DagTransaction :=
  U.filter fun tx => d.contains tx.id = true

section HeldOf

variable {d d' : KronDAG}

theorem heldOf_subset : heldOf U d ⊆ U := Finset.filter_subset _ _

theorem within_heldOf (hd : d.Within P start U) (hbelow : d.Below d') :
    d.Within P start (heldOf U d') :=
  hd.restrict fun x tx hl => Finset.mem_filter.2 ⟨hd.stored x tx hl,
    hbelow _ (Graph.contains_iff.2 ⟨tx, (hd.grown.wf.id_eq hl).symm ▸ hl⟩)⟩

theorem below_of_within_heldOf (hd : d.Within P start (heldOf U d')) : d.Below d' := by
  intro x hx
  obtain ⟨tx, hl⟩ := Graph.contains_iff.1 hx
  exact hd.grown.wf.id_eq hl ▸ (Finset.mem_filter.1 (hd.stored x tx hl)).2

/-- Two nodes that store no more than one of them and no less store the same. -/
theorem lookup_of_within_heldOf (hU : Universe P U) (hd : d.Within P start (heldOf U d'))
    (hd' : d'.Within P start U) (hbelow : d'.Below d) (x : TxHash) :
    d.vertices.lookup x = d'.vertices.lookup x :=
  hd.lookup_congr (within_heldOf hd' (.refl _)) (hU.mono heldOf_subset)
    (below_of_within_heldOf hd) hbelow x

end HeldOf

/-- Once the hub has all that its peers have, and stores nothing beside, a round with each leaves
all of them that it had a slot for with the same vertices, those of the hub; of no more than 64
peers, these are all. Peers with the same faucet whose orders agree on the vertices that depend on
each other then rebuild the same ledger. -/
theorem hub_sessions_agree [Fintype κ] {role : κ → MeshRole} {s : κ → KronDAG}
    (hreach : ReflTransGen (HubStep P ∅)
      (openSessions P g₀ entry fun i => .connect (role i) (s i)) c)
    (hidle : ∀ i, Idle P c i) (hU : Universe P U) (hhub : g₀.hub.dag.Within P start U)
    (hfit : ∀ i, (MeshClient.connect (role i) (s i)).Fits P start U)
    (hheard : ∀ i, (s i).Below g₀.hub.dag) :
    (∀ x, c.shared.hub.dag.vertices.lookup x = g₀.hub.dag.vertices.lookup x)
      ∧ (Fintype.card κ ≤ 64 → ∀ i, ¬ Refused P c i (.connect (role i) (s i)))
      ∧ (∀ i, ¬ Refused P c i (.connect (role i) (s i)) →
        ∀ x, (c.session i).peer.1.1.vertices.lookup x = g₀.hub.dag.vertices.lookup x)
      ∧ ∀ i j, ¬ Refused P c i (.connect (role i) (s i)) →
        ¬ Refused P c j (.connect (role j) (s j)) →
        (∀ a, (s i).faucet.get a = (s j).faucet.get a) →
        KronDAG.DependentsAgree P (c.session i).peer.1.1 (c.session j).peer.1.1 →
        ∃ d₁ d₂, (c.session i).peer.1.1.resolveConflictsAndRebuildLedger P = (d₁, .ok ())
          ∧ (c.session j).peer.1.1.resolveConflictsAndRebuildLedger P = (d₂, .ok ())
          ∧ KronDAG.Converged d₁ d₂ := by
  -- nothing is stored anywhere but what the hub has
  set U' := heldOf U g₀.hub.dag
  have hU₀ : Universe P U' := hU.mono heldOf_subset
  have hhub' := within_heldOf hhub (.refl _)
  have hfit' : ∀ i, (MeshClient.connect (role i) (s i)).Fits P start U' := fun i =>
    ⟨(hfit i).1, within_heldOf (hfit i).2 (hheard i)⟩
  have hsame : ∀ {d : KronDAG}, d.Within P start U' → g₀.hub.dag.Below d →
      ∀ x, d.vertices.lookup x = g₀.hub.dag.vertices.lookup x := fun hd hbelow =>
    lookup_of_within_heldOf hU hd hhub hbelow
  obtain ⟨hw, hbelow, -⟩ := sessions_spec hU₀ (Finset.empty_subset U') hhub' hfit' hreach
  have hpeer : ∀ i, ¬ Refused P c i (.connect (role i) (s i)) →
      (c.session i).peer.1.1.Within P start U' ∧ g₀.hub.dag.Below (c.session i).peer.1.1
        ∧ (c.session i).peer.1.1.faucet = (s i).faucet := by
    intro i hno
    obtain ⟨W, hW, hbetween, -, hpeer, -⟩ :=
      ((hidle i).ended hU₀ (Finset.empty_subset U') hhub' hfit' hreach).resolve_left hno
    obtain ⟨hpw, hall⟩ := peerEnd_spec hU₀ (hfit' i).2 hW
    rw [hpeer]
    exact ⟨hpw, fun x hx => (hall x).2 (.inr ((hbetween 1).1 x hx)), faucet_ingestAll _ _⟩
  refine ⟨hsame hw hbelow, fun hcard i => not_refused hcard hreach _,
    fun i hi => hsame (hpeer i hi).1 (hpeer i hi).2.1, fun i j hi hj hfaucet hdep => ?_⟩
  obtain ⟨hi, hbi, hfi⟩ := hpeer i hi
  obtain ⟨hj, hbj, hfj⟩ := hpeer j hj
  obtain ⟨d₁, h₁⟩ := hi.rebuilds hU₀
  obtain ⟨d₂, h₂⟩ := hj.rebuilds hU₀
  have htwins : KronDAG.Twins (c.session i).peer.1.1 (c.session j).peer.1.1 :=
    ⟨hi.grown.wf, hj.grown.wf, hi.weighed, hj.weighed,
      fun id => (hsame hi hbi id).trans (hsame hj hbj id).symm,
      fun a => by rw [hfi, hfj, hfaucet a]⟩
  have hera : (c.session i).peer.1.1.vertexCount ≤ txHalvingInterval :=
    (KronDAG.vertexCount_le_card hi.grown.wf hi.stored).trans
      (hU₀.card_le.trans (by decide))
  exact ⟨d₁, d₂, h₁, h₂, KronDAG.converged_of_dependents htwins hera h₁ h₂ hdep⟩

end Run

namespace StandIn

/-- The vertices of a small tree. -/
def treeVertices : Finset DagTransaction := (Finset.range 6).image (node fan)

theorem mem_treeVertices {i : ℕ} (hi : i ≤ 5) : node fan i ∈ treeVertices :=
  Finset.mem_image_of_mem _ (Finset.mem_range.2 (by omega))

theorem universe_treeVertices : Universe wide treeVertices := by
  have hall : ∀ tx ∈ treeVertices, ∃ i ≤ 5, node fan i = tx
      ∧ (tree fan 5).vertices.lookup (nodeId i) = some tx := by
    intro tx htx
    obtain ⟨i, hi, rfl⟩ := Finset.mem_image.1 htx
    rw [Finset.mem_range] at hi
    exact ⟨i, by omega, rfl, (lookup_tree fan_lt (by decide) _ _).2 ⟨i, by omega, rfl, rfl⟩⟩
  refine ⟨Finset.card_image_le.trans (by decide), fun tx htx tx' htx' hid => ?_,
    fun tx htx => ?_, fun tx htx => ?_, fun tx htx => ?_⟩
  · obtain ⟨i, hi, rfl, -⟩ := hall tx htx
    obtain ⟨j, hj, rfl, -⟩ := hall tx' htx'
    rw [id_node, id_node] at hid
    rw [(nodeId_inj (by omega) (by omega)).1 hid]
  · obtain ⟨i, hi, rfl, -⟩ := hall tx htx
    rw [id_node]
    exact nodeId_ne_null (by omega)
  · obtain ⟨i, -, -, hl⟩ := hall tx htx
    exact bytes_tree fan_lt (by decide) hl
  · obtain ⟨i, -, -, hl⟩ := hall tx htx
    exact cost_tree fan_lt (by decide) hl

theorem credited_accepts (f : ℕ → DagTransaction) : ∀ is : List ℕ,
    credited (is.map fun i => .accept (f i)) = 0
  | [] => rfl
  | _ :: is => credited_accepts f is

theorem within_tree {n : ℕ} (hn : n ≤ 5) :
    (tree fan n).Within wide rootDag.toGraph treeVertices := by
  have hn' : n < 2 ^ 63 := by omega
  have hfaucet : (tree fan n).faucetTotal + hardCap ≤ u64Max := by
    have hle : (tree fan n).faucetTotal ≤ rootDag.faucetTotal + credited (treeOps fan n) :=
      faucetTotal_run _
    rw [faucetTotal_withGenesis withGenesis_rootDag, treeOps, credited_accepts] at hle
    have hcap : 0 + hardCap ≤ u64Max := by decide
    omega
  have hstored : ∀ x tx, (tree fan n).vertices.lookup x = some tx → tx ∈ treeVertices := by
    intro x tx hl
    obtain ⟨i, hi, -, rfl⟩ := (lookup_tree fan_lt hn' x tx).1 hl
    exact mem_treeVertices (hi.trans hn)
  have hcount : (tree fan n).vertexCount ≤ ancestorWalkBound := by
    have hlen : (tree fan n).vertexCount = n + 1 := length_tree fan_lt hn'
    have hbound : 6 ≤ ancestorWalkBound := by decide
    omega
  exact ⟨grown_tree fan n, weighed_run withGenesis_rootDag _,
    sound_run withGenesis_rootDag _ (KronDAG.room_of_le hfaucet hcount), hfaucet, hstored⟩

/-- A hub with a tree. -/
def treeHub (n : ℕ) : HubTurn := ⟨⟨tree fan n, DagStore.empty⟩, ⟨0, 0⟩, ⟨0, 0⟩⟩

theorem within_treeHub {n : ℕ} (hn : n ≤ 5) :
    (treeHub n).hub.dag.Within wide rootDag.toGraph treeVertices := within_tree hn

/-- A peer that has more than the other. -/
def treePeers (n m : ℕ) (first : Bool) : KronDAG := if first then tree fan n else tree fan m

theorem within_treePeers {n m : ℕ} (hn : n ≤ 5) (hm : m ≤ 5) (first : Bool) :
    (treePeers n m first).Within wide rootDag.toGraph treeVertices := by
  cases first with
  | true => exact within_tree hn
  | false => exact within_tree hm

theorem below_tree {n k : ℕ} (hn : n ≤ k) (hk : k ≤ 5) : (tree fan n).Below (tree fan k) := by
  intro x hx
  obtain ⟨i, hi, rfl⟩ := (contains_tree fan_lt (by omega) x).1 hx
  exact (contains_tree fan_lt (by omega) _).2 ⟨i, hi.trans hn, rfl⟩

theorem below_treeHub {n m k : ℕ} (hn : n ≤ k) (hm : m ≤ k) (hk : k ≤ 5) (first : Bool) :
    (treePeers n m first).Below (treeHub k).hub.dag := by
  cases first with
  | true => exact below_tree hn hk
  | false => exact below_tree hm hk

/-- The one comes in over a node that gossips, the other over the listener of the hub. -/
def bothEntries (first : Bool) : MeshThread.Entry := if first then .inbound else .serve

/-- A peer with a tree, and a wallet with a vertex. -/
def treeClients (n i : ℕ) (first : Bool) : MeshClient :=
  if first then .connect .test (tree fan n) else .broadcast (node fan i)

theorem fits_treeClients {n i : ℕ} (hn : n ≤ 5) (hi : i < 5) (first : Bool) :
    (treeClients n (i + 1) first).Fits wide rootDag.toGraph treeVertices := by
  cases first with
  | true => exact ⟨by decide, within_tree hn⟩
  | false => exact ⟨mem_treeVertices hi, sound_node (by omega) (fan_lt i)⟩

/-- A peer and a wallet are served at once; the peer ends with a vertex of the hub. -/
theorem hub_sessions_trees : ∃ c,
    ReflTransGen (HubStep wide treeVertices)
      (openSessions wide (treeHub 3) bothEntries (treeClients 2 5)) c
      ∧ (c.session true).thread = .stop (.ok ())
      ∧ (c.session true).peer.1.1.contains (nodeId 3) = true
      ∧ Served wide (treeHub 3) c false (.broadcast (node fan 5)) := by
  have hhub := within_treeHub (n := 3) (by decide)
  have hfit := fits_treeClients (n := 2) (i := 4) (by decide) (by decide)
  obtain ⟨c, hreach, hidle⟩ := exists_idle
    (ReflTransGen.refl (a := openSessions wide (treeHub 3) bothEntries (treeClients 2 5)))
    universe_treeVertices (Finset.Subset.refl _) hhub hfit
  obtain ⟨⟨-, -, -, hserved⟩, -, hslots, -⟩ := hub_sessions hreach universe_treeVertices hhub hfit
  have hno := hslots (by decide)
  obtain ⟨hthread, -, ⟨d, hsince, -, hall⟩, -⟩ :=
    (hserved true (hidle true)).resolve_left (hno true)
  refine ⟨c, hreach, hthread, (hall _).2 (.inr (hsince _ ?_)),
    (hserved false (hidle false)).resolve_left (hno false)⟩
  exact (contains_tree fan_lt (by decide) _).2 ⟨3, le_rfl, rfl⟩

/-- Two peers with less than the hub end with what it has. -/
theorem hub_sessions_agree_trees : ∃ c,
    ReflTransGen (HubStep wide ∅)
      (openSessions wide (treeHub 5) bothEntries fun first => .connect .hub (treePeers 3 2 first)) c
      ∧ ∀ first x, (c.session first).peer.1.1.vertices.lookup x
        = c.shared.hub.dag.vertices.lookup x := by
  have hhub := within_treeHub (n := 5) (by decide)
  have hpeers := within_treePeers (n := 3) (m := 2) (by decide) (by decide)
  have hfit : ∀ first, (MeshClient.connect .hub (treePeers 3 2 first)).Fits wide rootDag.toGraph
      treeVertices := fun first => ⟨by decide, hpeers first⟩
  obtain ⟨c, hreach, hidle⟩ := exists_idle (ReflTransGen.refl (a := openSessions wide (treeHub 5)
      bothEntries fun first => .connect .hub (treePeers 3 2 first)))
    universe_treeVertices (Finset.empty_subset _) hhub hfit
  have hheard := below_treeHub (n := 3) (m := 2) (k := 5) (by decide) (by decide) (by decide)
  obtain ⟨hkept, hslots, hpeer, -⟩ :=
    hub_sessions_agree hreach hidle universe_treeVertices hhub hfit hheard
  exact ⟨c, hreach, fun first x =>
    (hpeer first (hslots (by decide) first) x).trans (hkept x).symm⟩

end StandIn

end Hub

end KronMesh
