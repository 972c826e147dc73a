import KronMesh.Admission
import KronMesh.Failure
import KronMesh.Hub
import KronMesh.MeshRound
import KronMesh.Weights

/-!
# Nodes that store vertices of one set

What passes between nodes are the vertices of a finite set, few enough for a round, and no two of
them under one id. A node that stores some of them takes in any other behind its parents, whatever
its ledger makes of it.
-/

namespace KronMesh

open Word

/-- Vertices that a round takes as they are. -/
structure Universe (P : Primitives) (U : Finset DagTransaction) : Prop where
  card_le : U.card ≤ ancestorWalkBound
  id_inj : ∀ tx ∈ U, ∀ tx' ∈ U, tx.id = tx'.id → tx = tx'
  ne_null : ∀ tx ∈ U, tx.id ≠ nullParent
  bytes : ∀ tx ∈ U, DagTransaction.fromCanonical P tx.canonicalBytes = .ok tx
  cost : ∀ tx ∈ U, tx.cost ≤ u64Max

/-- A sound node that stores vertices of `U`, with room for the cap beside its faucet. -/
structure KronDAG.Within (P : Primitives) (start : Graph) (U : Finset DagTransaction)
    (d : KronDAG) : Prop where
  grown : d.toGraph.Grown P start
  weighed : d.toGraph.Weighed
  sound : d.Sound
  faucet : d.faucetTotal + hardCap ≤ u64Max
  stored : ∀ x tx, d.vertices.lookup x = some tx → tx ∈ U

theorem Universe.mono {P : Primitives} {U U' : Finset DagTransaction} (h : Universe P U)
    (hsub : U' ⊆ U) : Universe P U' where
  card_le := (Finset.card_le_card hsub).trans h.card_le
  id_inj tx htx tx' htx' := h.id_inj tx (hsub htx) tx' (hsub htx')
  ne_null tx htx := h.ne_null tx (hsub htx)
  bytes tx htx := h.bytes tx (hsub htx)
  cost tx htx := h.cost tx (hsub htx)

/-- All that `d` stores, `d'` stores. -/
def KronDAG.Below (d d' : KronDAG) : Prop := ∀ x, d.contains x = true → d'.contains x = true

namespace KronDAG

variable {P : Primitives} {start : Graph} {U : Finset DagTransaction} {d d' s r : KronDAG}
  {tx : DagTransaction} {x : TxHash} {ids : List TxHash}

theorem Below.refl (d : KronDAG) : d.Below d := fun _ h => h

theorem Below.trans {d'' : KronDAG} (h : d.Below d') (h' : d'.Below d'') : d.Below d'' :=
  fun x hx => h' x (h x hx)

theorem vertexCount_le_card (hd : d.toGraph.WF)
    (hin : ∀ x tx, d.vertices.lookup x = some tx → tx ∈ U) : d.vertexCount ≤ U.card := by
  have hnd : (d.vertices.entries.map fun e => e.2).Nodup := by
    refine List.Nodup.map_on (fun e he e' he' heq => ?_) (List.Nodup.of_map _ d.vertices.nodupKeys)
    have hid := hd.id_eq (AList.mem_lookup_iff.2 he)
    have hid' := hd.id_eq (AList.mem_lookup_iff.2 he')
    refine Sigma.ext ?_ (heq_of_eq heq)
    rw [← hid, ← hid', heq]
  calc d.vertexCount = (d.vertices.entries.map fun e => e.2).toFinset.card := by
        rw [List.toFinset_card_of_nodup hnd, List.length_map]
        rfl
    _ ≤ U.card := Finset.card_le_card fun tx htx => by
        obtain ⟨e, he, rfl⟩ := List.mem_map.1 (List.mem_toFinset.1 htx)
        exact hin e.1 e.2 (AList.mem_lookup_iff.2 he)

theorem Within.restrict {U' : Finset DagTransaction} (h : d.Within P start U)
    (hin : ∀ x tx, d.vertices.lookup x = some tx → tx ∈ U') : d.Within P start U' :=
  { h with stored := hin }

theorem Within.sendable (h : d.Within P start U) (hU : Universe P U) :
    d.toGraph.Sendable P start := by
  refine ⟨h.grown, fun x hx => ?_, (vertexCount_le_card h.grown.wf h.stored).trans hU.card_le,
    fun x tx hl => hU.bytes tx (h.stored x tx hl)⟩
  obtain ⟨tx, hl⟩ := Graph.contains_iff.1 hx
  exact h.grown.wf.id_eq hl ▸ hU.ne_null tx (h.stored x tx hl)

/-- Nodes store the same under the same id. -/
theorem Within.lookup_eq (h : d.Within P start U) (h' : d'.Within P start U) (hU : Universe P U)
    (hl : d.vertices.lookup x = some tx) (hc : d'.contains x = true) :
    d'.vertices.lookup x = some tx := by
  obtain ⟨tx', hl'⟩ := Graph.contains_iff.1 hc
  have hid : tx.id = tx'.id := (h.grown.wf.id_eq hl).trans (h'.grown.wf.id_eq hl').symm
  rw [hl', hU.id_inj tx (h.stored x tx hl) tx' (h'.stored x tx' hl') hid]

theorem Within.lookup_congr (h : d.Within P start U) (h' : d'.Within P start U)
    (hU : Universe P U) (hb : d.Below d') (hb' : d'.Below d) (x : TxHash) :
    d.vertices.lookup x = d'.vertices.lookup x := by
  cases hl : d.vertices.lookup x with
  | some tx => exact (h.lookup_eq h' hU hl (hb x (Graph.contains_iff.2 ⟨tx, hl⟩))).symm
  | none =>
    cases hl' : d'.vertices.lookup x with
    | none => rfl
    | some tx =>
      rw [h'.lookup_eq h hU hl' (hb' x (Graph.contains_iff.2 ⟨tx, hl'⟩))] at hl
      cases hl

theorem room_of_le {F n : ℕ} (hF : F + hardCap ≤ u64Max) (hn : n ≤ ancestorWalkBound) :
    Ledger.Room F n := by
  have hmul : fixedTransactionFee * n ≤ fixedTransactionFee * ancestorWalkBound :=
    Nat.mul_le_mul_left _ hn
  have hcap : hardCap + fixedTransactionFee * ancestorWalkBound ≤ u64Max := by decide
  exact ⟨hF, by omega⟩

/-- No rebuild of such a node fails. -/
theorem Within.rebuilds (h : d.Within P start U) (hU : Universe P U) :
    ∃ d', d.resolveConflictsAndRebuildLedger P = (d', .ok ()) := by
  refine (resolve_isOk_iff h.grown.wf (room_of_le h.faucet
    ((vertexCount_le_card h.grown.wf h.stored).trans hU.card_le))).2 ?_
  exact replaySafe_of_cost fun id tx hl => hU.cost tx (h.stored id tx hl)

/-! ## Calls -/

/-- A call that credits nothing and stores vertices of `U` only leaves such a node, and loses
nothing. -/
theorem Within.exec (h : d.Within P start U) (hU : Universe P U) (op : Op)
    (hcredit : credited [op] = 0) (hin : ∀ tx ∈ d.enters P op, tx ∈ U) :
    (KronMesh.exec P d op).Within P start U ∧ d.Below (KronMesh.exec P d op) := by
  have hfits := d.fits_enters (P := P) op
  have hstored : ∀ x tx, (KronMesh.exec P d op).vertices.lookup x = some tx → tx ∈ U := by
    rw [d.exec_graph op]
    exact (forall_stored_foldl _ hfits).2 ⟨h.stored, hin⟩
  obtain ⟨hgrown, hweighed⟩ : (KronMesh.exec P d op).toGraph.Grown P start
      ∧ (KronMesh.exec P d op).toGraph.Weighed :=
    graph_run (P := P) (fun g => g.Grown P start ∧ g.Weighed) (fun _ _ hg hcheck =>
      ⟨hg.1.insertVertex hcheck, hg.2.insertVertex hg.1.wf hcheck⟩) [op] ⟨h.grown, h.weighed⟩
  have hfaucet : (KronMesh.exec P d op).faucetTotal + hardCap ≤ u64Max := by
    have hle : (KronMesh.exec P d op).faucetTotal ≤ d.faucetTotal + credited [op] :=
      faucetTotal_run [op]
    have hroom := h.faucet
    omega
  have hroom : (KronMesh.exec P d op).HasRoom :=
    room_of_le hfaucet ((vertexCount_le_card hgrown.wf hstored).trans hU.card_le)
  refine ⟨⟨hgrown, hweighed, h.sound.run [op] hroom, hfaucet, hstored⟩, fun x hx => ?_⟩
  obtain ⟨tx, hl⟩ := Graph.contains_iff.1 hx
  exact Graph.contains_iff.2 ⟨tx, lookup_exec op hl⟩

/-- Accepting a vertex of `U` leaves such a node, and loses nothing. -/
theorem Within.accept (h : d.Within P start U) (hU : Universe P U) (htx : tx ∈ U) :
    (d.acceptWireVertex P tx).1.Within P start U ∧ d.Below (d.acceptWireVertex P tx).1 := by
  refine h.exec hU (.accept tx) rfl fun y hy => ?_
  rw [enters] at hy
  split_ifs at hy
  · rwa [List.mem_singleton.1 hy]
  · cases hy

/-- Accepting stores nothing else. -/
theorem contains_accept (h : (d.acceptWireVertex P tx).1.contains x = true) :
    d.contains x = true ∨ x = tx.id := by
  have hg : (d.acceptWireVertex P tx).1.toGraph = _ := d.accept_graph_eq tx
  change (d.acceptWireVertex P tx).1.toGraph.contains x = true at h
  rw [hg] at h
  split_ifs at h
  · rw [Graph.contains_insertVertex, Bool.or_eq_true, decide_eq_true_eq] at h
    exact h.symm
  · exact .inl h

/-- A sound vertex behind its parents is stored. -/
theorem Within.stores (h : d.Within P start U) (hU : Universe P U) (htx : tx ∈ U)
    (hsound : tx.Sound P) (hpar : ∀ p ∈ tx.parents, d.contains p = true) :
    (d.acceptWireVertex P tx).1.contains tx.id = true := by
  rcases hc : d.contains tx.id
  · have hcheck := hsound.checkVertex hc hpar
    have haccepts : d.accepts P tx := by
      refine ⟨hcheck, fun hover => ?_⟩
      have hle := hU.cost tx htx
      have hlt := (h.sound.ledger.checkSpend_overflow h.faucet hover).2
      omega
    have hg : (d.acceptWireVertex P tx).1.toGraph = _ := d.accept_graph_eq tx
    rw [if_pos haccepts] at hg
    change (d.acceptWireVertex P tx).1.toGraph.contains tx.id = true
    rw [hg, Graph.contains_insertVertex]
    simp
  · exact (h.accept hU htx).2 _ hc

theorem Within.room_stored (h : d.Within P start U) (hU : Universe P U) (htx : tx ∈ U)
    (hcheck : d.checkVertex P tx = .ok ()) : Ledger.Room d.faucetTotal (d.vertexCount + 1) := by
  have hcount : (d.stored tx).vertexCount = d.vertexCount + 1 :=
    Graph.length_entries_insertVertex (Graph.checkVertex_ok hcheck).1
  have hin : ∀ x y, (d.stored tx).vertices.lookup x = some y → y ∈ U := by
    intro x y hl
    rcases Graph.lookup_insertVertex_cases hl with ⟨-, rfl⟩ | ⟨-, hl⟩
    · exact htx
    · exact h.stored x y hl
  have hle := vertexCount_le_card (d := d.stored tx) (h.grown.wf.insertVertex hcheck) hin
  rw [hcount] at hle
  exact room_of_le h.faucet (hle.trans hU.card_le)

/-- A sound vertex is accepted exactly when its parents are there. -/
theorem Within.accept_isOk (h : d.Within P start U) (hU : Universe P U) (htx : tx ∈ U)
    (hsound : tx.Sound P) :
    (d.acceptWireVertex P tx).2.isOk = true ↔ ∀ p ∈ tx.parents, d.contains p = true := by
  by_cases hc : d.contains tx.id = true
  · have hold : d.acceptWireVertex P tx = (d, .ok false) := if_pos hc
    obtain ⟨tx', hl⟩ := Graph.contains_iff.1 hc
    have hsame : tx' = tx := hU.id_inj tx' (h.stored _ _ hl) tx htx (h.grown.wf.id_eq hl)
    rw [hold]
    exact iff_of_true rfl (h.grown.wf.parents_of_lookup (hsame ▸ hl))
  rw [Bool.not_eq_true] at hc
  refine ⟨fun hok p hp => ?_, fun hpar => ?_⟩
  · rcases hacc : d.acceptWireVertex P tx with ⟨d', e | b⟩
    · rw [hacc] at hok
      cases hok
    cases b with
    | false =>
      rw [contains_of_accept_false hacc] at hc
      cases hc
    | true =>
      obtain ⟨⟨-, h1⟩, -, h2⟩ := Graph.checkParents_ok
        (Graph.checkVertex_ok (accept_ok_cases hacc).1).2.1 hsound.isGenesis
      obtain ⟨-, rfl | rfl⟩ := Graph.mem_parents.1 hp
      · exact h1
      · exact h2
  · have hcheck := hsound.checkVertex hc hpar
    have hover : ¬ d.OverflowsAt tx := fun ⟨hcost, _⟩ => by
      have hle := hU.cost tx htx
      omega
    have hsafe : (d.stored tx).ReplaySafe P := replaySafe_of_cost fun x y hl => by
      rcases Graph.lookup_insertVertex_cases hl with ⟨-, rfl⟩ | ⟨-, hl⟩
      · exact hU.cost y htx
      · exact hU.cost y (h.stored x y hl)
    rw [(accept_isOk_iff h.sound (h.room_stored hU htx hcheck) hcheck).2 ⟨hover, fun _ => hsafe⟩]
    rfl

/-! ## Bodies -/

/-- Each vertex comes behind its parents, or `has` says that they are there. -/
def BehindParents (has : TxHash → Prop) : List DagTransaction → Prop
  | [] => True
  | tx :: txs => (∀ p ∈ tx.parents, has p) ∧ BehindParents (fun x => has x ∨ x = tx.id) txs

theorem behindParents_of : ∀ (txs : List DagTransaction) {has : TxHash → Prop},
    (∀ pre tx post, txs = pre ++ tx :: post →
      ∀ p ∈ tx.parents, has p ∨ p ∈ pre.map DagTransaction.id) → BehindParents has txs
  | [], _, _ => trivial
  | tx :: txs, has, h => by
    refine ⟨fun p hp => (h [] tx txs rfl p hp).resolve_right List.not_mem_nil,
      behindParents_of txs fun pre y post heq p hp => ?_⟩
    have hp := h (tx :: pre) y post (by rw [heq]; rfl) p hp
    rwa [List.map_cons, List.mem_cons, ← or_assoc] at hp

theorem BehindParents.mono : ∀ {txs : List DagTransaction} {has has' : TxHash → Prop},
    BehindParents has txs → (∀ x, has x → has' x) → BehindParents has' txs
  | [], _, _, _, _ => trivial
  | _ :: _, _, _, ⟨hp, hrest⟩, h =>
    ⟨fun p hpar => h p (hp p hpar), hrest.mono fun x hx => hx.imp_left (h x)⟩

/-- Bodies come behind their parents where these are asked for with them, or there. -/
theorem Within.behindParents (hr : r.Within P start U) {has : TxHash → Prop}
    (hids : ∀ x ∈ ids, ∀ tx, r.vertices.lookup x = some tx →
      ∀ p ∈ tx.parents, has p ∨ p ∈ ids) :
    BehindParents has (r.transactionsForInOrder ids) := by
  refine behindParents_of _ fun pre tx post heq p hp => ?_
  have htx : tx ∈ r.transactionsForInOrder ids :=
    heq ▸ List.mem_append_right _ List.mem_cons_self
  obtain ⟨hid, hl⟩ := (Graph.mem_transactionsForInOrder hr.grown.wf).1 htx
  exact (hids _ hid tx hl p hp).imp_right fun hask =>
    hr.grown.indexed.parent_first hr.grown.wf heq hp hask

/-- The bodies that `r` sends of vertices that `s` lacks are sound. -/
theorem Within.body (hs : s.Within P start U) (hr : r.Within P start U)
    (hnew : ∀ x ∈ ids, s.contains x = false) (htx : tx ∈ r.transactionsForInOrder ids) :
    tx ∈ U ∧ tx.Sound P := by
  obtain ⟨hid, hl⟩ := (Graph.mem_transactionsForInOrder hr.grown.wf).1 htx
  exact ⟨hr.stored _ _ hl, hr.grown.sound hs.grown hl (hnew _ hid)⟩

/-- What is in `U` and sound, a node stores as it comes, and nothing else. -/
theorem Within.ingestAll (hU : Universe P U) : ∀ (txs : List DagTransaction) {g : LoggedDag},
    g.1.Within P start U → (∀ tx ∈ txs, tx ∈ U ∧ tx.Sound P) →
    BehindParents (fun x => g.1.contains x = true) txs →
      ((isolatedDag P).logged.ingestAll g txs).1.Within P start U
        ∧ ∀ x, ((isolatedDag P).logged.ingestAll g txs).1.contains x = true
          ↔ g.1.contains x = true ∨ ∃ tx ∈ txs, tx.id = x
  | [], g, hg, _, _ => by
    refine ⟨hg, fun x => ⟨.inl, ?_⟩⟩
    rintro (h | ⟨tx, htx, -⟩)
    · exact h
    · cases htx
  | tx :: txs, g, hg, hall, ⟨hp, hrest⟩ => by
    obtain ⟨htx, hall⟩ := List.forall_mem_cons.1 hall
    obtain ⟨hg', hbelow⟩ := hg.accept hU htx.1
    have hstored := hg.stores hU htx.1 htx.2 hp
    have hiff : ∀ x, (g.1.acceptWireVertex P tx).1.contains x = true
        ↔ g.1.contains x = true ∨ x = tx.id := by
      refine fun x => ⟨contains_accept, ?_⟩
      rintro (h | rfl)
      · exact hbelow x h
      · exact hstored
    rw [ingestAll_cons]
    obtain ⟨hw, hc⟩ := Within.ingestAll hU txs (g := g.ingest P tx) hg' hall
      (hrest.mono fun x hx => (hiff x).2 hx)
    refine ⟨hw, fun x => (hc x).trans ?_⟩
    have hleft : (g.ingest P tx).1.contains x = true ↔ g.1.contains x = true ∨ x = tx.id := hiff x
    rw [hleft, List.exists_mem_cons_iff, or_assoc]
    exact or_congr_right (or_congr_left eq_comm)

end KronDAG

end KronMesh
