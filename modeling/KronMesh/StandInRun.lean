import KronMesh.Calls
import KronMesh.Miner
import KronMesh.StandIn

/-!
# Runs over the stand-in

The genesis state over the toy primitives, and the calls on vertices known to be signed, with their
signatures taken out: what is left computes.
-/

namespace KronMesh.StandIn

open Wire Word Outcome

/-! ## The first state -/

def genesisId : TxHash := 5970444130791

def genesisTx : DagTransaction :=
  signed genesisId genesisSeed nullParent nullParent (addressOf genesisSeed) 0 0 0

def genesisDag : KronDAG :=
  { KronDAG.new with
    toGraph := Graph.empty.insertVertex genesisTx
    toLedger := Ledger.empty.moveSpend genesisTx (0, 0) }

theorem signedGenesisTx_eq : signedGenesisTx primitives = .ok genesisTx := by
  unfold signedGenesisTx DagTransaction.assemble
  simp only [DagTransaction.refreshId, address_fromSeed]
  rw [sign_fromSeed]
  have hid : DagTransaction.computeId primitives genesisTx.unsignedBytes = genesisId := by
    decide
  refine congrArg Except.ok ?_
  exact congrArg (fun id => { genesisTx with id := id }) hid

theorem withGenesis_genesisDag : KronDAG.withGenesis primitives = some genesisDag :=
  withGenesis_of_signed signedGenesisTx_eq (verify_signed _ _ _ _ _ _ _ _)

/-! ## Calls without their signatures -/

/-- What is left of an admission once the signature is known to hold. -/
def admissible (g : Graph) (tx : DagTransaction) : Bool :=
  (g.vertices.lookup tx.id).isNone && !tx.isGenesis
    && (tx.parent1 != nullParent && g.contains tx.parent1)
    && (tx.parent2 != nullParent && g.contains tx.parent2)

theorem checkVertex_transfer {g : Graph} {id : TxHash} {n : ℕ} {p1 p2 : TxHash} {r : Address}
    {a m : UInt64} (h : admissible g (transfer id n p1 p2 r a m) = true) :
    g.checkVertex primitives (transfer id n p1 p2 r a m) = .ok () := by
  simp only [admissible, Bool.and_eq_true, Option.isNone_iff_eq_none, Bool.not_eq_true',
    bne_iff_ne] at h
  obtain ⟨⟨⟨hid, hgen⟩, hp1, hc1⟩, hp2, hc2⟩ := h
  refine Graph.checkVertex_of hid ?_ ?_ (verify_signed _ _ _ _ _ _ _ _) rfl
  · unfold Graph.checkParents
    rw [hgen, hc1, hc2]
    simp [hp1, hp2]
  · rw [DagTransaction.requiredFee, hgen]
    rfl

/-- Accepting a vertex that is admitted and has no carrier. -/
def acceptAdmitted (d : KronDAG) (tx : DagTransaction) : KronDAG × Except DagError Bool :=
  match d.checkSpend tx with
  | .ok new => ((d.attached tx new []).1, (d.attached tx new []).2.map fun _ => true)
  | .error .overflow => (d, .error .overflow)
  | .error _ =>
    let r := KronDAG.resolveConflictsAndRebuildLedger primitives
      { d with toGraph := d.toGraph.insertVertex tx }
    (r.1, r.2.map fun _ => true)

theorem accept_transfer {d : KronDAG} {id : TxHash} {n : ℕ} {p1 p2 : TxHash} {r : Address}
    {a m : UInt64} (h : admissible d.toGraph (transfer id n p1 p2 r a m) = true) :
    d.acceptWireVertex primitives (transfer id n p1 p2 r a m)
      = acceptAdmitted d (transfer id n p1 p2 r a m) := by
  have hrel : (transfer id n p1 p2 r a m).provenRelayNodes primitives = [] :=
    DagTransaction.provenRelayNodes_nil rfl
  rw [accept_admitted (checkVertex_transfer h), hrel]
  rfl

/-- Transfers accepted one after the other, and whether each is admitted and overflows nowhere. -/
def acceptAll (d : KronDAG) (txs : List DagTransaction) : KronDAG :=
  txs.foldl (fun d tx => (acceptAdmitted d tx).1) d

def acceptable : KronDAG → List DagTransaction → Bool
  | _, [] => true
  | d, tx :: txs =>
    admissible d.toGraph tx && (acceptAdmitted d tx).2 != .error .overflow
      && acceptable (acceptAdmitted d tx).1 txs

def IsTransfer (tx : DagTransaction) : Prop :=
  ∃ id n p1 p2 r a m, tx = transfer id n p1 p2 r a m

theorem isTransfer_transfer (id : TxHash) (n : ℕ) (p1 p2 : TxHash) (r : Address) (a m : UInt64) :
    IsTransfer (transfer id n p1 p2 r a m) :=
  ⟨id, n, p1, p2, r, a, m, rfl⟩

theorem run_transfers : ∀ (txs : List DagTransaction) {d : KronDAG},
    (∀ tx ∈ txs, IsTransfer tx) → acceptable d txs = true →
      run primitives d (txs.map .accept) = acceptAll d txs
        ∧ CallsOk primitives d (txs.map .accept)
  | [], _, _, _ => ⟨rfl, trivial⟩
  | tx :: txs, d, ht, h => by
    obtain ⟨⟨id, n, p1, p2, r, a, m, rfl⟩, hts⟩ := List.forall_mem_cons.1 ht
    simp only [acceptable, Bool.and_eq_true, bne_iff_ne] at h
    obtain ⟨⟨hadm, hok⟩, h⟩ := h
    have hacc := accept_transfer hadm
    obtain ⟨hrun, hcalls⟩ := run_transfers txs hts h
    have hexec : exec primitives d (.accept (transfer id n p1 p2 r a m))
        = (acceptAdmitted d (transfer id n p1 p2 r a m)).1 := by
      rw [exec_accept, hacc]
    rw [List.map_cons, run_cons, hexec]
    refine ⟨hrun, ?_, ?_⟩
    · rw [CallOk, hacc]
      exact hok
    · rw [hexec]
      exact hcalls

/-- Behind transfers that were all accepted the graph holds them and what it held. -/
theorem graph_acceptAll : ∀ (txs : List DagTransaction) {d : KronDAG},
    (∀ tx ∈ txs, IsTransfer tx) → acceptable d txs = true →
      (acceptAll d txs).toGraph = txs.foldl Graph.insertVertex d.toGraph
  | [], _, _, _ => rfl
  | tx :: txs, d, ht, h => by
    obtain ⟨⟨id, n, p1, p2, r, a, m, rfl⟩, hts⟩ := List.forall_mem_cons.1 ht
    simp only [acceptable, Bool.and_eq_true, bne_iff_ne] at h
    obtain ⟨⟨hadm, hok⟩, h⟩ := h
    have hacc := accept_transfer hadm
    have hgraph := accept_graph_of_admitted (checkVertex_transfer hadm) (hacc.symm ▸ hok)
    rw [hacc] at hgraph
    exact (graph_acceptAll txs hts h).trans (by rw [hgraph]; rfl)

theorem lookup_acceptPair {d : KronDAG} {tx tx' : DagTransaction}
    (ht : ∀ y ∈ [tx, tx'], IsTransfer y) (h : acceptable d [tx, tx'] = true) (id : TxHash) :
    (acceptAll d [tx, tx']).vertices.lookup id
      = if id = tx'.id then some tx' else if id = tx.id then some tx
        else d.vertices.lookup id := by
  rw [graph_acceptAll _ ht h, List.foldl_cons, List.foldl_cons, List.foldl_nil,
    Graph.lookup_insertVertex, Graph.lookup_insertVertex]

/-- Two transfers accepted in either order are the same vertices. -/
theorem lookup_acceptPair_swap {d : KronDAG} {tx tx' : DagTransaction} (hne : tx.id ≠ tx'.id)
    (ht : ∀ y ∈ [tx, tx'], IsTransfer y) (h : acceptable d [tx, tx'] = true)
    (h' : acceptable d [tx', tx] = true) (id : TxHash) :
    (acceptAll d [tx, tx']).vertices.lookup id = (acceptAll d [tx', tx]).vertices.lookup id := by
  have ht' : ∀ y ∈ [tx', tx], IsTransfer y := fun y hy =>
    ht y ((List.Perm.swap tx tx' []).mem_iff.1 hy)
  rw [lookup_acceptPair ht h, lookup_acceptPair ht' h']
  split_ifs with h₁ h₂
  · exact absurd (h₂.symm.trans h₁) hne
  · rfl
  · rfl
  · rfl

/-- Attaching a vertex that is admitted and has no carrier. -/
def attachAdmitted (d : KronDAG) (tx : DagTransaction) : Outcome KronDAG DagError :=
  match d.checkSpend tx with
  | .ok new => d.attached tx new []
  | .error e => (d, .error e)

theorem attach_transfer {d : KronDAG} {id : TxHash} {n : ℕ} {p1 p2 : TxHash} {r : Address}
    {a m : UInt64} (h : admissible d.toGraph (transfer id n p1 p2 r a m) = true) :
    d.attachAndVerifyTx primitives (transfer id n p1 p2 r a m)
      = attachAdmitted d (transfer id n p1 p2 r a m) := by
  have hcheck := checkVertex_transfer h
  have hrel : (transfer id n p1 p2 r a m).provenRelayNodes primitives = [] :=
    DagTransaction.provenRelayNodes_nil rfl
  generalize transfer id n p1 p2 r a m = tx at *
  have hatt : d.attachAndVerifyTx primitives tx
      = d.attachVertexAndMaybeMint primitives tx true (tx.provenRelayNodes primitives) := rfl
  unfold attachAdmitted
  rw [hatt]
  rcases attach_cases (P := primitives) d tx (tx.provenRelayNodes primitives) with ⟨e, ha, -⟩ |
    ⟨e, -, hs, he⟩ | ⟨new, -, hs, he⟩
  · rw [hcheck] at ha
    cases ha
  · rw [he, hs]
  · rw [he, hs, hrel]

/-- A batch of one vertex whose parents are stored is in order. -/
theorem topoOrderIncoming_single {g : Graph} {tx : DagTransaction}
    (hp : ∀ p ∈ tx.parents, g.contains p = true) : topoOrderIncoming g [tx] = .ok [tx] := by
  have hu : uniqueOf [tx] = AList.insert tx.id tx ∅ := rfl
  have hentries : (AList.insert tx.id tx (∅ : AList fun _ : TxHash => DagTransaction)).entries
      = [⟨tx.id, tx⟩] := rfl
  have hcount : ∀ (u : AList fun _ : TxHash => DagTransaction) (id : TxHash) (w : Waiting)
      (l : List TxHash), (∀ p ∈ l, g.contains p = true) →
        l.foldlM (countParent g u id) w = Except.ok w := by
    intro u id w l hl
    induction l with
    | nil => rfl
    | cons p l ih =>
      rw [List.foldlM_cons]
      have : countParent g u id w p = .ok w := by
        simp [countParent, hl p List.mem_cons_self]
      rw [this, ok_bind]
      exact ih fun q hq => hl q (List.mem_cons_of_mem _ hq)
  unfold topoOrderIncoming
  simp only [hu, hentries, List.foldlM_cons, List.foldlM_nil, hcount _ _ _ _ hp, ok_bind]
  change topoLoop ∅ 2 (([tx.id].filter fun id =>
    ((∅ : Tally TxHash).set tx.id 0).get id = 0).insertionSort (· ≤ ·)) _ _ = _
  have hready : ([tx.id].filter fun id => ((∅ : Tally TxHash).set tx.id 0).get id = 0)
      = [tx.id] := by
    simp
  have herase : ((AList.insert tx.id tx ∅).erase tx.id).entries
      = ([] : List (Sigma fun _ : TxHash => DagTransaction)) := by
    exact List.kerase_cons_eq (s := (⟨tx.id, tx⟩ : Sigma fun _ : TxHash => DagTransaction)) rfl
  have hsort : [tx.id].insertionSort (· ≤ ·) = [tx.id] := rfl
  rw [hready, hsort]
  simp only [topoLoop, AList.lookup_insert, AList.lookup_empty, Option.getD_none, release,
    List.insertionSort_nil, List.append_nil, herase]
  rfl

/-- Merging one vertex whose parents are stored. -/
theorem merge_transfer {d : KronDAG} (id : TxHash) (n : ℕ) (p1 p2 : TxHash) (r : Address)
    (a m : UInt64) (relay : Address)
    (h : admissible d.toGraph (transfer id n p1 p2 r a m) = true) :
    (d.mergeOfflineGraphs primitives [transfer id n p1 p2 r a m] relay).1
      = (KronDAG.resolveConflictsAndRebuildLedger primitives
        { d with
          toGraph := d.toGraph.insertVertex (transfer id n p1 p2 r a m)
          relayOf := d.relayOf.insert id relay }).1 := by
  have hcheck := checkVertex_transfer h
  obtain ⟨hnew, hpar, -, -, -⟩ := Graph.checkVertex_ok hcheck
  have hgen : (transfer id n p1 p2 r a m).isGenesis = false := by
    simp only [admissible, Bool.and_eq_true, Bool.not_eq_true'] at h
    exact h.1.1.2
  have hid : (transfer id n p1 p2 r a m).id = id := rfl
  generalize transfer id n p1 p2 r a m = tx at *
  obtain ⟨⟨h1, hc1⟩, h2, hc2⟩ := Graph.checkParents_ok hpar hgen
  have hone : KronDAG.mergeOne primitives relay d tx
      = ({ d with
        toGraph := d.toGraph.insertVertex tx
        relayOf := d.relayOf.insert id relay }, .ok 1) := by
    have hcont : d.contains tx.id = false := Graph.contains_eq_false.2 hnew
    have hmiss : d.missingParent tx = none := by
      simp [KronDAG.missingParent, hgen, h1, h2, hc1, hc2]
    have hins : d.insertGraphOnly primitives tx
        = ({ d with toGraph := d.toGraph.insertVertex tx }, .ok ()) := by
      unfold KronDAG.insertGraphOnly
      rw [hcheck]
    unfold KronDAG.mergeOne
    rw [hcont, hmiss, hins]
    simp only [Bool.false_eq_true, if_false, hgen, KronDAG.stampRelay, hid]
  have ho : topoOrderIncoming d.toGraph [tx] = .ok [tx] := by
    refine topoOrderIncoming_single fun p hp => ?_
    simp only [DagTransaction.parents, h1, ne_eq, not_false_eq_true, if_true, h2, true_and,
      List.singleton_append, List.mem_cons, List.mem_ite_nil_right] at hp
    rcases hp with rfl | ⟨-, rfl | hp⟩
    · exact hc1
    · exact hc2
    · cases hp
  unfold KronDAG.mergeOfflineGraphs
  rw [ho]
  simp only [KronDAG.mergeLoop, hone]
  have hpos : 0 < min (0 + 1) (2 ^ 32 - 1) := by decide
  rw [if_pos hpos]
  generalize KronDAG.resolveConflictsAndRebuildLedger primitives _ = res
  obtain ⟨d', e | ⟨⟨⟩⟩⟩ := res <;> rfl

theorem userTransfer_eq {id : TxHash} (n : ℕ) (p1 p2 : TxHash) (r : Address) (a m : UInt64)
    (hid : DagTransaction.computeId primitives (transfer id n p1 p2 r a m).unsignedBytes = id) :
    DagTransaction.userTransfer primitives p1 p2
      (LatticeKeyPair.fromSeed primitives (BitVec.ofNat 256 n)) r a m
        = .ok (transfer id n p1 p2 r a m) := by
  unfold DagTransaction.userTransfer DagTransaction.assemble
  simp only [DagTransaction.refreshId, address_fromSeed]
  rw [sign_fromSeed]
  refine congrArg Except.ok ?_
  exact congrArg (fun id => { transfer id n p1 p2 r a m with id := id }) hid

/-- Every set is iterated as it is stored and every draw is zero. -/
def stillChance : Chance := ⟨id, fun _ => .refl _, Stream'.const 0⟩

/-! ## The runs that several modules read

Wallet 1 pays wallet 2; and two spends of one nonce, of which the first to come is applied. What is
about one theorem stands beside it. -/

/-- The genesis state with wallet `n` credited. -/
def fundedDag (n : ℕ) (amount : UInt64) : KronDAG :=
  genesisDag.creditAccount (address n) amount.toNat

theorem run_funded (n : ℕ) (amount : UInt64) {txs : List DagTransaction}
    (ht : ∀ tx ∈ txs, IsTransfer tx) (h : acceptable (fundedDag n amount) txs = true) :
    run primitives genesisDag (.credit (address n) amount :: txs.map .accept)
      = acceptAll (fundedDag n amount) txs := by
  rw [run_cons, exec_credit]
  exact (run_transfers txs ht h).1

def firstTransfer : DagTransaction :=
  transfer 12534542786466 1 genesisId genesisId (address 2) 1000 0

theorem id_firstTransfer :
    firstTransfer.id = DagTransaction.computeId primitives firstTransfer.unsignedBytes := by
  decide

def firstOps : List Op := [.credit (address 1) 1000000, .accept firstTransfer]

def firstDag : KronDAG := (acceptAdmitted (fundedDag 1 1000000) firstTransfer).1

theorem run_firstOps : run primitives genesisDag firstOps = firstDag := by
  have ht : ∀ tx ∈ [firstTransfer], IsTransfer tx :=
    List.forall_mem_singleton.2 (isTransfer_transfer ..)
  have h := run_funded 1 1000000 ht (by decide)
  exact h

example : firstDag.balance (address 1) = 1099000 ∧ firstDag.balance (address 2) = 1000 := by
  decide

/-- Spends the nonce of the first transfer, to another wallet, under a greater id. -/
def rivalTransfer : DagTransaction :=
  transfer 12534660997154 1 genesisId genesisId (address 3) 1000 0

theorem id_rivalTransfer :
    rivalTransfer.id = DagTransaction.computeId primitives rivalTransfer.unsignedBytes := by
  decide

/-- The rival is applied and the first transfer stored behind it. -/
def forkOps : List Op :=
  [.credit (address 1) 1000000, .accept rivalTransfer, .accept firstTransfer]

theorem isTransfer_fork : ∀ tx ∈ [rivalTransfer, firstTransfer], IsTransfer tx :=
  List.forall_mem_cons.2
    ⟨isTransfer_transfer .., List.forall_mem_singleton.2 (isTransfer_transfer ..)⟩

def forkDag : KronDAG := acceptAll (fundedDag 1 1000000) [rivalTransfer, firstTransfer]

theorem run_forkOps : run primitives genesisDag forkOps = forkDag := by
  have h := run_funded 1 1000000 isTransfer_fork (by decide)
  exact h

/-- The fork holds the two transfers and the genesis vertex. -/
theorem lookup_forkDag {id : TxHash} {tx : DagTransaction}
    (h : forkDag.vertices.lookup id = some tx) : tx = firstTransfer ∧ id = firstTransfer.id
      ∨ tx = rivalTransfer ∧ id = rivalTransfer.id ∨ tx = genesisTx ∧ id = genesisId := by
  rw [forkDag, lookup_acceptPair isTransfer_fork (by decide)] at h
  split_ifs at h with h₁ h₂
  · exact .inl ⟨(Option.some.inj h).symm, h₁⟩
  · exact .inr (.inl ⟨(Option.some.inj h).symm, h₂⟩)
  · obtain ⟨hid, htx⟩ := Graph.lookup_insertVertex_empty h
    exact .inr (.inr ⟨htx, hid⟩)

/-- A spend of an empty wallet on top of the first transfer. -/
def orphanTransfer : DagTransaction :=
  transfer 10574934658818 5 12534542786466 12534542786466 (address 2) 1000 0

theorem id_orphanTransfer :
    orphanTransfer.id = DagTransaction.computeId primitives orphanTransfer.unsignedBytes := by
  decide

end KronMesh.StandIn
