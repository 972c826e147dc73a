import KronMesh.Exchange
import KronMesh.StandInRun

/-!
# What is admitted

Every vertex but the genesis has passed the same checks, whichever call stored it: it pays the fixed
fee, is signed by the key of its sender and carried by those who signed for it, and its parents are
stored (`admission_run`). None of the checks looks at the id a vertex is stored under. So the ids
are the hashes of what is signed exactly when every vertex that is stored came with its own
(`addressed_run_iff`); under another id a signed payload is stored once more
(`stored_under_two_ids`).
-/

namespace KronMesh

open Word Outcome Wire

variable {P : Primitives} {g : Graph} {d d' : KronDAG} {tx : DagTransaction}

/-! ## The checks of a stored vertex -/

/-- What a graph asks of a vertex that is no genesis. -/
structure Graph.Admitted (P : Primitives) (g : Graph) (tx : DagTransaction) : Prop where
  fee : tx.fee.toNat = fixedTransactionFee
  sender : tx.sender = tx.publicKey.address P
  signature : tx.publicKey.verify P tx.unsignedBytes tx.signature = true
  proofs : ∀ proof ∈ tx.relayProofs, proof.node = proof.publicKey.address P
    ∧ proof.publicKey.verify P (relayProofMessage P tx.id proof.publicKey) proof.sig = true
  nodes : ∀ node, node ∈ tx.relayNodes ↔ ∃ proof ∈ tx.relayProofs, proof.node = node
  parent1 : tx.parent1 ≠ nullParent ∧ g.contains tx.parent1 = true
  parent2 : tx.parent2 ≠ nullParent ∧ g.contains tx.parent2 = true

/-- A checked sidecar has a proof for each carrier, and a carrier for each proof. -/
theorem DagTransaction.verifyRelayProofs_spec (h : tx.verifyRelayProofs P = true) :
    (∀ proof ∈ tx.relayProofs, proof.node = proof.publicKey.address P
      ∧ proof.publicKey.verify P (relayProofMessage P tx.id proof.publicKey) proof.sig = true)
      ∧ ∀ node, node ∈ tx.relayNodes ↔ ∃ proof ∈ tx.relayProofs, proof.node = node := by
  unfold verifyRelayProofs at h
  split_ifs at h with hnodes hproofs
  · rw [List.isEmpty_iff] at hnodes h
    rw [hnodes, h]
    simp
  · rw [Bool.and_eq_true, List.all_eq_true, List.all_eq_true] at h
    obtain ⟨hcover, hall⟩ := h
    have hproof : ∀ proof ∈ tx.relayProofs, proof.publicKey.address P = proof.node
        ∧ proof.node ∈ tx.relayNodes
        ∧ proof.publicKey.verify P (relayProofMessage P tx.id proof.publicKey) proof.sig
          = true := by
      intro proof hmem
      have hp := hall proof hmem
      simp only [Bool.and_eq_true, beq_iff_eq, List.contains_iff_mem] at hp
      exact ⟨hp.1.1, hp.1.2, hp.2⟩
    refine ⟨fun proof hmem => ⟨(hproof proof hmem).1.symm, (hproof proof hmem).2.2⟩,
      fun node => ⟨fun hnode => ?_, ?_⟩⟩
    · obtain ⟨proof, hmem, hp⟩ := List.any_eq_true.1 (hcover node hnode)
      exact ⟨proof, hmem, beq_iff_eq.1 hp⟩
    · rintro ⟨proof, hmem, rfl⟩
      exact (hproof proof hmem).2.1

/-- A stored vertex that is no genesis is an admitted one. -/
theorem Graph.Grown.admitted {start : Graph} (hg : g.Grown P start) {id : TxHash}
    (hl : g.vertices.lookup id = some tx) (hgen : tx.isGenesis = false) : g.Admitted P tx := by
  obtain ⟨hsig, hrel⟩ := hg.verified hl
  obtain ⟨hproofs, hnodes⟩ := DagTransaction.verifyRelayProofs_spec hrel
  obtain ⟨hp1, hp2⟩ := hg.wf.parents hl hgen
  simp only [DagTransaction.verifySignature, Bool.and_eq_true, beq_iff_eq] at hsig
  have hfee := hg.wf.fee hl
  rw [DagTransaction.requiredFee, hgen] at hfee
  exact ⟨hfee, hsig.1.1.1.symm, hsig.2, hproofs, hnodes, hp1, hp2⟩

/-- The genesis vertex stays, and every other vertex is admitted, whatever the node is handed and
whatever the calls return. And no body is lost or altered by the calls that follow. -/
theorem admission_run (h : KronDAG.withGenesis P = some d) (ops ops' : List Op) :
    ∃ genesis, signedGenesisTx P = .ok genesis ∧ genesis.fee = 0
      ∧ (run P d ops).vertices.lookup genesis.id = some genesis
      ∧ (∀ id tx, (run P d ops).vertices.lookup id = some tx →
        id = genesis.id ∧ tx = genesis ∨ tx.isGenesis = false ∧ (run P d ops).Admitted P tx)
      ∧ ∀ id tx, (run P d ops).vertices.lookup id = some tx →
        (run P d (ops ++ ops')).vertices.lookup id = some tx := by
  have hrun := grown_run h ops
  obtain ⟨genesis, hsigned, hgen, -, hd⟩ := withGenesis_eq h
  have hgraph : d.toGraph = Graph.empty.insertVertex genesis := by rw [hd]
  have hfee : genesis.fee = 0 := (DagTransaction.assemble_fields hsigned).2.2.2.2.2.1
  have hid : d.genesisId = some genesis.id := by
    rw [hgraph, Graph.insertVertex_genesisId, if_pos hgen]
  have hl : d.vertices.lookup genesis.id = some genesis := by
    rw [hgraph, Graph.lookup_insertVertex, if_pos rfl]
  have hstored := lookup_run (P := P) ops hl
  refine ⟨genesis, hsigned, hfee, hstored, fun id tx htx => ?_, fun id tx htx => ?_⟩
  · rcases hg : tx.isGenesis
    · exact .inr ⟨rfl, hrun.admitted htx hg⟩
    · have hgid := (hrun.isGenesis_iff htx).1 hg
      rw [Graph.genesisIdOr, hrun.genesisId, hid] at hgid
      obtain rfl : id = genesis.id := hgid
      exact .inl ⟨rfl, Option.some.inj (htx.symm.trans hstored)⟩
  · rw [run_append]
    exact lookup_run ops' htx

section

open StandIn

/-- A transfer that is stored has passed the checks, and is still there behind a rebuild. -/
theorem admission_run_firstOps :
    (run primitives genesisDag firstOps).Admitted primitives firstTransfer
      ∧ (run primitives genesisDag (firstOps ++ [.rebuild])).vertices.lookup firstTransfer.id
        = some firstTransfer := by
  obtain ⟨genesis, hsigned, -, -, hall, hstays⟩ :=
    admission_run withGenesis_genesisDag firstOps [.rebuild]
  have hl : (run primitives genesisDag firstOps).vertices.lookup firstTransfer.id
      = some firstTransfer := by
    rw [run_firstOps]
    rfl
  refine ⟨?_, hstays _ _ hl⟩
  rcases hall _ _ hl with ⟨hid, -⟩ | ⟨-, hadmitted⟩
  · rw [Except.ok.inj (hsigned.symm.trans signedGenesisTx_eq)] at hid
    exact absurd hid (by decide)
  · exact hadmitted

end

/-! ## Ids -/

/-- The vertex bears the hash of what it signs. -/
def DagTransaction.BearsHash (P : Primitives) (tx : DagTransaction) : Prop :=
  tx.id = computeId P tx.unsignedBytes

namespace KronDAG

section Enters

variable (P)

/-- Attaching stores an admitted vertex whose spend can be applied. -/
def attaches (d : KronDAG) (tx : DagTransaction) : Prop :=
  d.checkVertex P tx = .ok () ∧ (d.checkSpend tx).isOk

/-- Accepting stores every admitted vertex whose spend does not exceed a word. -/
def accepts (d : KronDAG) (tx : DagTransaction) : Prop :=
  d.checkVertex P tx = .ok () ∧ d.checkSpend tx ≠ .error .overflow

instance (d : KronDAG) (tx : DagTransaction) : Decidable (d.attaches P tx) :=
  inferInstanceAs (Decidable (_ ∧ _))

instance (d : KronDAG) (tx : DagTransaction) : Decidable (d.accepts P tx) :=
  inferInstanceAs (Decidable (_ ∧ _))

/-- The vertices that a call stores. -/
def enters (d : KronDAG) : Op → List DagTransaction
  | .credit _ _ => []
  | .attach host tx device =>
    if (device.admitHost host).isOk ∧ d.attaches P tx then [tx] else []
  | .accept tx => if d.accepts P tx then [tx] else []
  | .merge incomingTxs _ => (d.toGraph.merged P incomingTxs).1
  | .rebuild => []

end Enters

theorem attach_graph_eq (d : KronDAG) (tx : DagTransaction) :
    (d.attachVertexAndMaybeMint P tx true (tx.provenRelayNodes P)).1.toGraph
      = if d.attaches P tx then d.toGraph.insertVertex tx else d.toGraph := by
  rcases attach_cases (P := P) d tx (tx.provenRelayNodes P) with ⟨e, hc, ha⟩ | ⟨e, hc, hs, ha⟩ |
    ⟨new, hc, hs, ha⟩
  · have hno : ¬ d.attaches P tx := fun h => nomatch hc.symm.trans h.1
    rw [ha, if_neg hno]
  · have hno : ¬ d.attaches P tx := by
      rintro ⟨-, hok⟩
      rw [hs] at hok
      cases hok
    rw [ha, if_neg hno]
  · have hyes : d.attaches P tx := ⟨hc, by rw [hs]; rfl⟩
    rw [ha, if_pos hyes]
    exact (d.attached_frame tx new _).1

theorem accept_graph_eq (d : KronDAG) (tx : DagTransaction) :
    (d.acceptWireVertex P tx).1.toGraph
      = if d.accepts P tx then d.toGraph.insertVertex tx else d.toGraph := by
  rcases accept_cases (P := P) d tx with ⟨hc, ha⟩ | ⟨e, hc | ⟨hs, rfl⟩, ha⟩ | ⟨new, hc, hs, ha⟩ |
    ⟨e, hc, hs, hne, ha⟩
  · have hno : ¬ d.accepts P tx := by
      rintro ⟨hcheck, -⟩
      rw [Graph.not_contains_of_checkVertex hcheck] at hc
      cases hc
    rw [ha, if_neg hno]
  · have hno : ¬ d.accepts P tx := fun h => nomatch hc.symm.trans h.1
    rw [ha, if_neg hno]
  · have hno : ¬ d.accepts P tx := fun h => h.2 hs
    rw [ha, if_neg hno]
  · have hyes : d.accepts P tx := ⟨hc, by rw [hs]; exact nofun⟩
    rw [ha, if_pos hyes]
    exact (d.attached_frame tx new _).1
  · have hyes : d.accepts P tx := ⟨hc, by rw [hs]; exact fun he => hne (Except.error.inj he)⟩
    rw [ha, if_pos hyes]
    exact (resolve_frame _).1

theorem merge_graph_eq (d : KronDAG) (txs : List DagTransaction) (relay : Address) :
    (d.mergeOfflineGraphs P txs relay).1.toGraph
      = (d.toGraph.merged P txs).1.foldl Graph.insertVertex d.toGraph := by
  rcases hw : (d.toGraph.merged P txs).2
  · obtain ⟨relayOf, e, hm, -⟩ := merge_refused txs relay hw
    rw [hm]
    rfl
  by_cases hnew : (d.toGraph.merged P txs).1 = []
  · obtain ⟨relayOf, hm⟩ := merge_nothing txs relay hw hnew
    rw [hm, hnew]
    rfl
  · obtain ⟨relayOf, hm⟩ := merge_whole txs relay hw hnew
    rw [hm]
    exact (resolve_frame _).1

theorem attachFor_graph_eq (host : Except ShieldError Unit) (d : KronDAG) (tx : DagTransaction)
    (device : AttachingDevice) : (d.attachAndVerifyFor P host tx device).1.toGraph
      = if (device.admitHost host).isOk ∧ d.attaches P tx then d.toGraph.insertVertex tx
        else d.toGraph := by
  unfold attachAndVerifyFor
  rcases device.admitHost host with e | ⟨⟨⟩⟩
  · exact (if_neg fun h => nomatch h.1).symm
  · refine (d.attach_graph_eq tx).trans ?_
    by_cases ha : d.attaches P tx
    · rw [if_pos ha, if_pos ⟨rfl, ha⟩]
    · rw [if_neg ha, if_neg fun h => ha h.2]

/-- A call moves the graph by the vertices that it stores. -/
theorem exec_graph (d : KronDAG) : ∀ op,
    (exec P d op).toGraph = (d.enters P op).foldl Graph.insertVertex d.toGraph
  | .credit a n => (d.creditAccount_frame a n.toNat).1
  | .attach host tx device => by
    refine (attachFor_graph_eq host d tx device).trans ?_
    rw [enters]
    split_ifs <;> rfl
  | .accept tx => by
    refine (d.accept_graph_eq tx).trans ?_
    rw [enters]
    split_ifs <;> rfl
  | .merge txs relay => d.merge_graph_eq txs relay
  | .rebuild => d.resolve_frame.1

/-- Vertices that fit are found behind those before them. -/
theorem fits_goesIn : ∀ (txs : List DagTransaction) (g : Graph), g.Fits P (g.goesIn P txs).1
  | [], _ => trivial
  | tx :: txs, g => by
    by_cases hc : g.contains tx.id = true
    · rw [Graph.goesIn_contained hc]
      exact fits_goesIn txs g
    rw [Bool.not_eq_true] at hc
    rcases h : g.checkVertex P tx with e | ⟨⟨⟩⟩
    · rw [Graph.goesIn_refused hc h]
      exact trivial
    · rw [Graph.goesIn_stored h]
      exact ⟨h, fits_goesIn txs (g.insertVertex tx)⟩

theorem fits_enters (d : KronDAG) : ∀ op, d.toGraph.Fits P (d.enters P op)
  | .credit _ _ => trivial
  | .attach host tx device => by
    rw [enters]
    split_ifs with h
    · exact ⟨h.2.1, trivial⟩
    · exact trivial
  | .accept tx => by
    rw [enters]
    split_ifs with h
    · exact ⟨h.1, trivial⟩
    · exact trivial
  | .merge txs _ => by
    rw [enters, Graph.merged]
    rcases topoOrderIncoming d.toGraph txs with e | ordered
    · exact trivial
    · exact fits_goesIn ordered d.toGraph
  | .rebuild => trivial

end KronDAG

/-- What holds of every stored vertex behind a batch: it held before, and of the batch. -/
theorem forall_stored_foldl {C : DagTransaction → Prop} : ∀ (txs : List DagTransaction)
    {g : Graph}, g.Fits P txs →
      ((∀ id tx, (txs.foldl Graph.insertVertex g).vertices.lookup id = some tx → C tx)
        ↔ (∀ id tx, g.vertices.lookup id = some tx → C tx) ∧ ∀ tx ∈ txs, C tx)
  | [], g, _ => by simp
  | y :: txs, g, ⟨hcheck, hfits⟩ => by
    rw [List.foldl_cons, forall_stored_foldl txs hfits, List.forall_mem_cons]
    constructor
    · rintro ⟨hall, hrest⟩
      refine ⟨fun id tx hl => hall id tx (Graph.lookup_insertVertex_of_lookup hcheck hl),
        hall y.id y ?_, hrest⟩
      rw [Graph.lookup_insertVertex, if_pos rfl]
    · rintro ⟨hall, hy, hrest⟩
      refine ⟨fun id tx hl => ?_, hrest⟩
      rcases Graph.lookup_insertVertex_cases hl with ⟨-, rfl⟩ | ⟨-, hl⟩
      · exact hy
      · exact hall id tx hl

/-- Every vertex that the calls store satisfies `C`. -/
def AllEnter (P : Primitives) (C : DagTransaction → Prop) : KronDAG → List Op → Prop
  | _, [] => True
  | d, op :: ops => (∀ tx ∈ d.enters P op, C tx) ∧ AllEnter P C (exec P d op) ops

/-- Every stored vertex satisfies `C` behind a run exactly when each one did that was stored. -/
theorem forall_stored_run {C : DagTransaction → Prop} : ∀ (ops : List Op) (d : KronDAG),
    (∀ id tx, (run P d ops).vertices.lookup id = some tx → C tx)
      ↔ (∀ id tx, d.vertices.lookup id = some tx → C tx) ∧ AllEnter P C d ops
  | [], d => by simp [run_nil, AllEnter]
  | op :: ops, d => by
    rw [run_cons, forall_stored_run ops, d.exec_graph op,
      forall_stored_foldl _ (d.fits_enters op), AllEnter, and_assoc]

/-- An assembled vertex is hashed before it is signed. -/
theorem bearsHash_assemble {p1 p2 : TxHash} {w : LatticeKeyPair} {r : Address} {a f n : UInt64}
    (h : DagTransaction.assemble P p1 p2 w r a f n = .ok tx) : tx.BearsHash P := by
  simp only [DagTransaction.assemble, DagTransaction.refreshId] at h
  split at h
  · cases h
    rfl
  · cases h

/-- Under their hashes no two of the stored vertices sign the same. -/
theorem nodup_unsignedBytes (hg : g.WF)
    (hall : ∀ id tx, g.vertices.lookup id = some tx → tx.BearsHash P)
    {f : TxHash → Option DagTransaction}
    (hf : ∀ id tx, f id = some tx → g.vertices.lookup id = some tx) :
    ((g.attachOrder.filterMap f).map DagTransaction.unsignedBytes).Nodup := by
  refine (hg.nodup_filterMap hf).map_on fun x hx y hy hxy => ?_
  obtain ⟨i, -, hi⟩ := List.mem_filterMap.1 hx
  obtain ⟨j, -, hj⟩ := List.mem_filterMap.1 hy
  have hx := hf i x hi
  have hy := hf j y hj
  have hid : i = j := by
    rw [← hg.id_eq hx, ← hg.id_eq hy, hall _ _ hx, hall _ _ hy, hxy]
  rw [hid, hy] at hx
  exact (Option.some.inj hx).symm

/-- A vertex that is stored is taken no second time. -/
theorem exec_of_contains (hc : d.contains tx.id = true) (host : Except ShieldError Unit)
    (device : AttachingDevice) :
    exec P d (.attach host tx device) = d ∧ exec P d (.accept tx) = d := by
  have hdup : d.checkVertex P tx = .error (.duplicateTx tx.id) := by
    unfold Graph.checkVertex
    rw [if_pos hc]
  constructor
  · change (d.attachAndVerifyFor P host tx device).1 = d
    unfold KronDAG.attachAndVerifyFor KronDAG.attachVertexAndMaybeMint
    rw [hdup]
    rcases device.admitHost host with e | ⟨⟨⟩⟩ <;> rfl
  · rw [exec_accept, KronDAG.acceptWireVertex, if_pos hc]

/-- The ids of a run are the hashes of what is signed exactly when each vertex that was stored came
with its own. Then no signed payload is stored twice or applied twice, and none that is stored is
attached or accepted again. -/
theorem addressed_run_iff (h : KronDAG.withGenesis P = some d) (ops : List Op) :
    ((∀ id tx, (run P d ops).vertices.lookup id = some tx →
        id = DagTransaction.computeId P tx.unsignedBytes)
      ↔ AllEnter P (DagTransaction.BearsHash P) d ops)
    ∧ (AllEnter P (DagTransaction.BearsHash P) d ops →
      ((run P d ops).transactionsInOrder.map DagTransaction.unsignedBytes).Nodup
      ∧ ((run P d ops).applied.map DagTransaction.unsignedBytes).Nodup
      ∧ ∀ id x tx, (run P d ops).vertices.lookup id = some x →
        tx.unsignedBytes = x.unsignedBytes → tx.BearsHash P → ∀ host device,
          exec P (run P d ops) (.attach host tx device) = run P d ops
            ∧ exec P (run P d ops) (.accept tx) = run P d ops) := by
  have hwf := (wf_run h ops).graph
  have hstart : ∀ id tx, d.vertices.lookup id = some tx → tx.BearsHash P := by
    obtain ⟨genesis, hsigned, -, -, rfl⟩ := withGenesis_eq h
    intro id tx hl
    obtain ⟨-, rfl⟩ := Graph.lookup_insertVertex_empty hl
    exact bearsHash_assemble hsigned
  have hrun : (∀ id tx, (run P d ops).vertices.lookup id = some tx → tx.BearsHash P)
      ↔ AllEnter P (DagTransaction.BearsHash P) d ops :=
    (forall_stored_run ops d).trans (and_iff_right hstart)
  refine ⟨?_, fun henter => ?_⟩
  · rw [← hrun]
    refine forall_congr' fun id => forall_congr' fun tx => imp_congr_right fun hl => ?_
    rw [DagTransaction.BearsHash, hwf.id_eq hl]
  · have hall := hrun.2 henter
    refine ⟨nodup_unsignedBytes hwf hall fun _ _ hl => hl,
      nodup_unsignedBytes hwf hall fun _ _ hl => (KronDAG.appliedAt_eq_some.1 hl).2.1,
      fun id x tx hl hbytes hbears host device => exec_of_contains ?_ host device⟩
    have hid : tx.id = id := by
      rw [hbears, hbytes, ← hall id x hl, hwf.id_eq hl]
    rw [hid]
    exact Graph.contains_iff.2 ⟨x, hl⟩

section

open StandIn

theorem addressed_run_iff_firstOps :
    ((run primitives genesisDag firstOps).transactionsInOrder.map
      DagTransaction.unsignedBytes).Nodup := by
  refine ((addressed_run_iff withGenesis_genesisDag firstOps).2 ⟨?_, ?_, trivial⟩).1
  · exact fun tx htx => absurd htx List.not_mem_nil
  · intro tx htx
    rw [KronDAG.enters] at htx
    split_ifs at htx
    · rw [List.mem_singleton.1 htx]
      exact id_firstTransfer
    · cases htx

/-- The first transfer under another id. -/
def renamedTransfer : DagTransaction :=
  transfer 1 1 genesisId genesisId (address 2) 1000 0

def renameOps : List Op :=
  [.credit (address 1) 1000000, .accept firstTransfer, .accept renamedTransfer]

theorem lookup_renameOps (id : TxHash) : (run primitives genesisDag renameOps).vertices.lookup id
    = if id = renamedTransfer.id then some renamedTransfer
      else if id = firstTransfer.id then some firstTransfer
      else (fundedDag 1 1000000).vertices.lookup id := by
  have ht : ∀ tx ∈ [firstTransfer, renamedTransfer], IsTransfer tx :=
    List.forall_mem_cons.2
      ⟨isTransfer_transfer .., List.forall_mem_singleton.2 (isTransfer_transfer ..)⟩
  have hok : acceptable (fundedDag 1 1000000) [firstTransfer, renamedTransfer] = true := by decide
  have hops : renameOps
      = .credit (address 1) 1000000 :: [firstTransfer, renamedTransfer].map .accept := rfl
  rw [hops, run_funded 1 1000000 ht hok, lookup_acceptPair ht hok]

/-- Signature and checks do not see the id, so the payload of a stored vertex is stored again under
one that is not its hash. -/
theorem stored_under_two_ids :
    ¬ (∀ id tx, (run primitives genesisDag renameOps).vertices.lookup id = some tx →
        id = DagTransaction.computeId primitives tx.unsignedBytes)
      ∧ ¬ ((run primitives genesisDag renameOps).transactionsInOrder.map
        DagTransaction.unsignedBytes).Nodup := by
  have hne : firstTransfer.id ≠ renamedTransfer.id := by decide
  have hfirst : (run primitives genesisDag renameOps).vertices.lookup firstTransfer.id
      = some firstTransfer := by
    rw [lookup_renameOps, if_neg hne, if_pos rfl]
  have hrenamed : (run primitives genesisDag renameOps).vertices.lookup renamedTransfer.id
      = some renamedTransfer := by
    rw [lookup_renameOps, if_pos rfl]
  constructor
  · intro hall
    exact absurd (hall _ _ hrenamed) (by decide)
  · intro hnodup
    have hwf := (wf_run withGenesis_genesisDag renameOps).graph
    have heq : firstTransfer = renamedTransfer :=
      List.inj_on_of_nodup_map hnodup ((Graph.mem_transactionsInOrder hwf).2 hfirst)
        ((Graph.mem_transactionsInOrder hwf).2 hrenamed) rfl
    exact hne (congrArg DagTransaction.id heq)

end

end KronMesh
