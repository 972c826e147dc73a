import KronMesh.Unfunded

/-!
# A phone that mines and a hub that follows

Every share of a miner is attached at once, so that a hub that starts with the phone's dust and
takes its vertices in attaches them at once as well and is the same node after each. A hub without
the dust holds no balance at all: it stores every share, and refuses it in every rebuild.
-/

namespace KronMesh

open Word Outcome

/-! ## What a tick does -/

section Tick

variable {P : Primitives} {d : KronDAG} {tx : DagTransaction}

namespace KronDAG

theorem firstShareDust_le (d : KronDAG) (a : Address) : d.firstShareDust a ≤ shareCost := by
  unfold firstShareDust
  split_ifs
  · exact Nat.sub_le _ _
  · exact Nat.zero_le _

/-- The wallet of a tick. -/
def sender (P : Primitives) (t : MinerTick) : Address := t.wallet.pub.address P

/-- On a graph with a vertex in it a tick credits the dust, and attaches a share of one unit or
leaves it at that. -/
theorem minerTick_cases (t : MinerTick) (hne : d.vertices.entries ≠ []) :
    ∃ out : MinerTickOutcome, out.faucetCredited = d.firstShareDust (sender P t) ∧
      ∃ c, c = d.creditAccount (sender P t) out.faucetCredited ∧
        (d.minerTick P t = some (c, out) ∨
          ∃ tx new, tx.amount = 1 ∧ c.checkVertex P tx = .ok () ∧ c.checkSpend tx = .ok new
            ∧ d.minerTick P t = some ((c.attached tx new (tx.provenRelayNodes P)).1, out)) := by
  unfold minerTick
  rw [ensureGenesis_of_ne hne]
  simp only [sender]
  generalize hc : d.creditAccount (t.wallet.pub.address P) _ = c
  split_ifs
  · exact ⟨_, rfl, c, hc.symm, .inl rfl⟩
  · exact ⟨_, rfl, c, hc.symm, .inl rfl⟩
  rcases htx : c.composeAndSign P t.chance t.wallet t.dest 1 with e | tx
  · exact ⟨_, rfl, c, hc.symm, .inl rfl⟩
  have hamount : tx.amount = 1 := (DagTransaction.assemble_fields htx).2.2.2.2.1
  simp only []
  rcases attachFor_cases (P := P) c t.host tx t.device with ⟨e, h⟩ | ⟨new, hcheck, hs, h⟩
  · rw [h]
    exact ⟨_, rfl, c, hc.symm, .inl rfl⟩
  · rw [h]
    rcases hr : c.attached tx new (tx.provenRelayNodes P) with ⟨d', e | ⟨⟨⟩⟩⟩
    · exact ⟨_, rfl, c, hc.symm, .inr ⟨tx, new, hamount, hcheck, hs, by rw [hr]⟩⟩
    · exact ⟨_, rfl, c, hc.symm, .inr ⟨tx, new, hamount, hcheck, hs, by rw [hr]⟩⟩

end KronDAG

end Tick

/-! ## A hub without the dust -/

/-- What `b` is to a phone with the graph `g` when it holds no balance: it has every vertex, and
counts each but the genesis vertex as a conflict. -/
structure Barren (g : Graph) (b : KronDAG) : Prop where
  graph : b.toGraph = g
  balance : ∀ a, b.balance a = 0
  faucet : ∀ a, b.faucet.get a = 0
  supply : b.currentSupply = 0
  count : b.dagTxCount = 0
  amount : ∀ {id tx}, g.vertices.lookup id = some tx → tx.isGenesis = false → tx.amount = 1
  conflict : ∀ {id tx}, g.vertices.lookup id = some tx → tx.isGenesis = false →
    b.isConflict id = true

section Barren

variable {P : Primitives} {l : Ledger} {g : Graph} {b : KronDAG} {tx : DagTransaction}

/-- The replay over a ledger of zeros leaves it, and collects every vertex it looks at. -/
theorem replayLoop_barren (hl : ∀ a, l.balance a = 0)
    (hcost : ∀ {id tx}, g.replayedAt id = some tx → 0 < tx.cost ∧ tx.cost ≤ u64Max) :
    ∀ order extra, replayLoop P g.vertices g.winnerOf l extra order
      = (l, .ok (extra ++ order.filter fun id => (g.replayedAt id).isSome))
  | [], extra => by rw [List.filter_nil, List.append_nil]; rfl
  | id :: order, extra => by
    rcases hr : g.replayedAt id with _ | tx
    · rw [replayLoop_none l extra order hr, replayLoop_barren hl hcost order,
        List.filter_cons_of_neg (by rw [hr]; simp)]
    · obtain ⟨e, hs, he⟩ := checkSpend_unfunded hl (hcost hr).1
      have he := he (hcost hr).2
      have happ : l.applyLedgerEffects P tx = (l, .error e) := by
        unfold Ledger.applyLedgerEffects
        rw [hs]
      rcases replayLoop_some (P := P) l extra order hr with ⟨l₁, ha, -⟩ | ⟨-, -, -, -, h⟩ |
        ⟨l₁, ha, -⟩
      · rw [happ] at ha
        cases ha
      · rw [h, replayLoop_barren hl hcost order, List.filter_cons_of_pos (by rw [hr]; rfl),
          List.append_assoc]
        rfl
      · rw [happ] at ha
        cases ha
        exact absurd rfl he

theorem cost_share (hg : g.WF) {id : TxHash} (hl : g.vertices.lookup id = some tx)
    (hgen : tx.isGenesis = false) (ha : tx.amount = 1) : tx.cost = 1001 := by
  have hfee := hg.fee hl
  unfold DagTransaction.requiredFee at hfee
  rw [hgen] at hfee
  unfold DagTransaction.cost
  rw [ha, hfee]
  rfl

/-- A hub without the dust stores a share, and refuses it with all the others in the rebuild. -/
theorem Barren.accept (hg : g.WF) (h : Barren g b) (hcheck : g.checkVertex P tx = .ok ())
    (ha : tx.amount = 1) : Barren (g.insertVertex tx) (b.acceptWireVertex P tx).1 := by
  obtain ⟨rfl, hbal, hfau, -, -, hamount, -⟩ := h
  have hg' := hg.insertVertex hcheck
  have hgen := hg.not_isGenesis hcheck
  have hamount' : ∀ {id tx'}, (b.toGraph.insertVertex tx).vertices.lookup id = some tx' →
      tx'.isGenesis = false → tx'.amount = 1 := by
    intro id tx' hl hgen'
    rcases Graph.lookup_insertVertex_cases hl with ⟨-, rfl⟩ | ⟨-, hl⟩
    · exact ha
    · exact hamount hl hgen'
  have hcost : ∀ {id tx'}, (b.toGraph.insertVertex tx).replayedAt id = some tx' →
      0 < tx'.cost ∧ tx'.cost ≤ u64Max := by
    intro id tx' hr
    obtain ⟨-, hl, hgen'⟩ := Graph.replayedAt_eq_some.1 hr
    rw [cost_share hg' hl hgen' (hamount' hl hgen')]
    exact ⟨by decide, by decide⟩
  obtain ⟨e, hs, he⟩ : ∃ e, b.checkSpend tx = .error e ∧ e ≠ .overflow := by
    have hl : (b.toGraph.insertVertex tx).vertices.lookup tx.id = some tx := by
      rw [Graph.lookup_insertVertex, if_pos rfl]
    have hc := cost_share hg' hl hgen ha
    obtain ⟨e, hs, he⟩ := checkSpend_unfunded hbal (by rw [hc]; decide)
    exact ⟨e, hs, he (by rw [hc]; decide)⟩
  have hacc : (b.acceptWireVertex P tx).1
      = ((b.stored tx).resolveConflictsAndRebuildLedger P).1 := by
    rw [accept_admitted hcheck, hs]
    cases e <;> first | rfl | exact absurd rfl he
  have hloop := replayLoop_barren (P := P) (g := b.toGraph.insertVertex tx) (l := b.baseline)
    hfau hcost (b.toGraph.insertVertex tx).attachOrder []
  have hres := KronDAG.resolve_of_replayLoop (P := P) (d := b.stored tx) hloop
  rw [hacc, hres]
  refine ⟨rfl, hfau, hfau, rfl, rfl, hamount', fun {id tx'} hl hgen' => ?_⟩
  unfold KronDAG.isConflict
  simp only [lookup_noteExtraLosers]
  split_ifs with hw hm
  · exact hw
  · rfl
  · refine absurd (List.mem_filter.2 ⟨hg'.mem_attachOrder hl, ?_⟩) hm
    rw [Graph.replayedAt_eq_some.2 ⟨Option.not_isSome_iff_eq_none.1 hw, hl, hgen'⟩]
    rfl

end Barren

/-! ## The phone and its hubs -/

/-- A hub that takes vertices in. -/
def ingest (P : Primitives) (b : KronDAG) (txs : List DagTransaction) : KronDAG :=
  run P b (txs.map .accept)

/-- The dust that the ticks report, as the calls that credit it. -/
def dustOps (P : Primitives) : List MinerTick → List MinerTickOutcome → List Op
  | t :: ts, out :: outs =>
    .credit (KronDAG.sender P t) (UInt64.ofNat out.faucetCredited) :: dustOps P ts outs
  | _, _ => []

/-- What a phone has come to from `g` by crediting `dust` and attaching `shares`, for the hub that
has the dust and for the one that has not. -/
structure Mined (P : Primitives) (g : KronDAG) (dust : List Op) (shares : List DagTransaction)
    (d : KronDAG) : Prop where
  order : d.transactionsInOrder = g.transactionsInOrder ++ shares
  mirrored : ingest P (run P g dust) shares = d
  barren : Barren d.toGraph (ingest P g shares)

section Mined

variable {P : Primitives} {g d c : KronDAG} {dust : List Op} {shares : List DagTransaction}
  {tx : DagTransaction}

theorem ingest_concat (b : KronDAG) (txs : List DagTransaction) (tx : DagTransaction) :
    ingest P b (txs ++ [tx]) = ((ingest P b txs).acceptWireVertex P tx).1 := by
  unfold ingest
  rw [List.map_append, List.map_singleton, run_concat]
  rfl

/-- A vertex that is stored is not taken in again. -/
theorem ingest_stored (b : KronDAG) : ∀ txs : List DagTransaction,
    (∀ tx ∈ txs, b.contains tx.id = true) → ingest P b txs = b
  | [], _ => rfl
  | tx :: txs, h => by
    have hacc : (b.acceptWireVertex P tx).1 = b := by
      unfold KronDAG.acceptWireVertex
      rw [if_pos (h tx List.mem_cons_self)]
    unfold ingest
    rw [List.map_cons, run_cons, exec_accept, hacc]
    exact ingest_stored b txs fun tx htx => h tx (List.mem_cons_of_mem _ htx)

theorem ingest_append (b : KronDAG) (txs txs' : List DagTransaction) :
    ingest P b (txs ++ txs') = ingest P (ingest P b txs) txs' := by
  unfold ingest
  rw [List.map_append, run_append]

theorem Mined.wf (hg : KronDAG.withGenesis P = some g) (h : Mined P g dust shares d) : d.WF := by
  have hrun := wf_run hg (dust ++ shares.map .accept)
  rw [run_append] at hrun
  have hm := h.mirrored
  unfold ingest at hm
  rwa [hm] at hrun

/-- A phone whose graph has one vertex has attached no share. -/
theorem Mined.shares_eq_nil (hg : KronDAG.withGenesis P = some g) (h : Mined P g dust shares d)
    (hone : d.vertexCount ≤ 1) : shares = [] := by
  have hlen := congrArg List.length h.order
  obtain ⟨gid, -, hs, -⟩ := (Graph.WF_withGenesis hg).genesis
  have hpos : 0 < g.transactionsInOrder.length := by
    rw [Graph.length_transactionsInOrder (Graph.WF_withGenesis hg),
      ← (Graph.WF_withGenesis hg).length]
    exact List.length_pos_of_mem (((Graph.WF_withGenesis hg).mem_order gid).2 hs)
  rw [Graph.length_transactionsInOrder (h.wf hg).graph, List.length_append] at hlen
  unfold KronDAG.vertexCount at hone
  exact List.length_eq_zero_iff.1 (by omega)

/-- Dust is credited before the first share. -/
theorem Mined.credit (hg : KronDAG.withGenesis P = some g) (h : Mined P g dust shares d)
    (a : Address) : Mined P g (dust ++ [.credit a (UInt64.ofNat (d.firstShareDust a))]) shares
      (d.creditAccount a (d.firstShareDust a)) := by
  have hn : (UInt64.ofNat (d.firstShareDust a)).toNat = d.firstShareDust a := by
    have hle := d.firstShareDust_le a
    have hcost : shareCost < 2 ^ 64 := by decide
    rw [UInt64.toNat_ofNat']
    exact Nat.mod_eq_of_lt (by omega)
  obtain ⟨hgraph, -⟩ := d.creditAccount_frame a (d.firstShareDust a)
  refine ⟨by rw [hgraph]; exact h.order, ?_, by rw [hgraph]; exact h.barren⟩
  rw [run_concat, exec_credit, hn]
  by_cases hzero : d.firstShareDust a = 0
  · have hnone : ∀ b : KronDAG, b.creditAccount a 0 = b := fun b => rfl
    rw [hzero, hnone, hnone]
    exact h.mirrored
  · have hone : d.vertexCount ≤ 1 := by
      unfold KronDAG.firstShareDust at hzero
      split_ifs at hzero with hc
      · exact hc.1
      · exact absurd rfl hzero
    have hm := h.mirrored
    rw [h.shares_eq_nil hg hone] at hm ⊢
    have hd : run P g dust = d := hm
    rw [hd]
    rfl

/-- A share that is attached on the phone is attached on the hub with the dust. -/
theorem Mined.attach (hg : KronDAG.withGenesis P = some g) (h : Mined P g dust shares d)
    (ha : tx.amount = 1) (hcheck : d.checkVertex P tx = .ok ()) {new : ℕ × ℕ}
    (hs : d.checkSpend tx = .ok new) :
    Mined P g dust (shares ++ [tx]) (d.attached tx new (tx.provenRelayNodes P)).1 := by
  have hd := (h.wf hg).graph
  obtain ⟨hgraph, -, -⟩ := d.attached_frame tx new (tx.provenRelayNodes P)
  refine ⟨?_, ?_, ?_⟩
  · rw [hgraph, Graph.transactionsInOrder_insertVertex hd (Graph.checkVertex_ok hcheck).1, h.order,
      List.append_assoc]
  · rw [ingest_concat, h.mirrored, accept_admitted hcheck, hs]
  · rw [hgraph, ingest_concat]
    exact h.barren.accept hd hcheck ha

theorem Mined.entries_ne_nil (hg : KronDAG.withGenesis P = some g) (h : Mined P g dust shares d) :
    d.vertices.entries ≠ [] := by
  intro hnil
  obtain ⟨gid, -, hs, -⟩ := (h.wf hg).graph.genesis
  unfold AList.lookup at hs
  rw [hnil] at hs
  cases hs

/-- Any number of ticks run to their end, and leave a phone that has mined. -/
theorem minerTicks_mined (hg : KronDAG.withGenesis P = some g) :
    ∀ (ts : List MinerTick) {d : KronDAG} {dust : List Op} {shares : List DagTransaction},
      Mined P g dust shares d → ∃ d' outs shares', d.minerTicks P ts = some (d', outs)
        ∧ Mined P g (dust ++ dustOps P ts outs) shares' d'
  | [], d, dust, shares, h => by
    rw [← List.append_nil dust] at h
    exact ⟨d, [], shares, rfl, h⟩
  | t :: ts, d, dust, shares, h => by
    obtain ⟨out, hout, c, hc, htick⟩ := KronDAG.minerTick_cases (P := P) t (h.entries_ne_nil hg)
    have hcredit := h.credit hg (KronDAG.sender P t)
    rw [← hout, ← hc] at hcredit
    obtain ⟨d₁, shares₁, htick, h₁⟩ : ∃ d₁ shares₁, d.minerTick P t = some (d₁, out)
        ∧ Mined P g (dust ++ [.credit (KronDAG.sender P t) (UInt64.ofNat out.faucetCredited)])
          shares₁ d₁ := by
      rcases htick with htick | ⟨tx, new, ha, hcheck, hs, htick⟩
      · exact ⟨c, shares, htick, hcredit⟩
      · exact ⟨_, shares ++ [tx], htick, hcredit.attach hg ha hcheck hs⟩
    obtain ⟨d', outs, shares', hts, h'⟩ := minerTicks_mined hg ts h₁
    refine ⟨d', out :: outs, shares', ?_, ?_⟩
    · rw [KronDAG.minerTicks_cons htick, hts, Option.map_some]
    · rwa [List.append_assoc] at h'

theorem mined_withGenesis (hg : KronDAG.withGenesis P = some g) : Mined P g [] [] g := by
  refine ⟨(List.append_nil _).symm, rfl, ?_⟩
  have hzero := KronDAG.unfunded_withGenesis hg
  obtain ⟨gtx, -, hgen, -, rfl⟩ := withGenesis_eq hg
  have hno : ∀ {id tx}, (Graph.empty.insertVertex gtx).vertices.lookup id = some tx →
      tx.isGenesis ≠ false := by
    intro id tx hl hng
    rw [(Graph.lookup_insertVertex_empty hl).2, hgen] at hng
    cases hng
  exact ⟨rfl, hzero.ledger.balance, hzero.faucet, hzero.ledger.supply, hzero.ledger.count,
    fun hl hng => absurd hng (hno hl), fun hl hng => absurd hng (hno hl)⟩

end Mined

/-- A phone mines from its genesis vertex, any number of ticks. A hub that is given the phone's dust
and then its vertices, in attach order, comes to the same supply and the same count, and no vertex
applied on the phone is a conflict on it. A hub that is given the vertices alone counts nothing and
has every share as a conflict. -/
theorem mining_agreement {P : Primitives} {g : KronDAG} (hg : KronDAG.withGenesis P = some g)
    (ticks : List MinerTick) :
    ∃ phone outs, g.minerTicks P ticks = some (phone, outs) ∧
      (∀ hub, ingest P (run P g (dustOps P ticks outs)) phone.transactionsInOrder = hub →
        hub.currentSupply = phone.currentSupply ∧ hub.dagTxCount = phone.dagTxCount
          ∧ ∀ tx ∈ phone.applied, hub.isConflict tx.id = false) ∧
      ∀ hub, ingest P g phone.transactionsInOrder = hub →
        hub.currentSupply = 0 ∧ hub.dagTxCount = 0
          ∧ ∀ tx ∈ phone.transactionsInOrder, tx.isGenesis = false →
            hub.isConflict tx.id = true := by
  obtain ⟨phone, outs, shares, hrun, h⟩ := minerTicks_mined hg ticks (mined_withGenesis hg)
  rw [List.nil_append] at h
  have hwf := (h.wf hg).graph
  have hstart : ∀ ops : List Op, ingest P (run P g ops) g.transactionsInOrder = run P g ops := by
    refine fun ops => ingest_stored _ _ fun tx htx => ?_
    have hl := (Graph.mem_transactionsInOrder (Graph.WF_withGenesis hg)).1 htx
    rw [Graph.contains_iff]
    exact ⟨tx, lookup_run ops hl⟩
  refine ⟨phone, outs, hrun, fun hub hhub => ?_, fun hub hhub => ?_⟩
  · rw [h.order, ingest_append, hstart, h.mirrored] at hhub
    subst hhub
    exact ⟨rfl, rfl, fun tx htx => ((KronDAG.mem_applied hwf).1 htx).1⟩
  · have hstart := hstart []
    rw [run_nil] at hstart
    rw [h.order, ingest_append, hstart] at hhub
    subst hhub
    exact ⟨h.barren.supply, h.barren.count, fun tx htx hgen =>
      h.barren.conflict ((Graph.mem_transactionsInOrder hwf).1 htx) hgen⟩

namespace StandIn

/-- Wallet 1 mines for wallet 2. -/
def shareTick : MinerTick where
  wallet := LatticeKeyPair.fromSeed primitives (BitVec.ofNat 256 1)
  dest := address 2
  device := .miner
  host := .ok ()
  chance := stillChance

def shareTransfer : DagTransaction := transfer 12534535901862 1 genesisId genesisId (address 2) 1 0

def minedDag : KronDAG := (attachAdmitted (fundedDag 1 1001) shareTransfer).1

theorem sender_shareTick : shareTick.wallet.pub.address primitives = address 1 :=
  address_fromSeed _

theorem composeAndSign_shareTick :
    (fundedDag 1 1001).composeAndSign primitives shareTick.chance shareTick.wallet shareTick.dest 1
      = .ok shareTransfer := by
  have hpar : (fundedDag 1 1001).selectParents shareTick.chance = (genesisId, genesisId) := by
    decide
  have hnonce : (fundedDag 1 1001).nextNonce.get (address 1) = 0 := by decide
  unfold KronDAG.composeAndSign KronDAG.composeAndSignWithParents
  rw [hpar, sender_shareTick, hnonce]
  exact userTransfer_eq 1 genesisId genesisId (address 2) 1 0 (by decide)

/-- Attaching on the host of the tick what is admitted. -/
theorem attachFor_shareTick {d : KronDAG} {tx : DagTransaction}
    (hadm : d.attachAndVerifyTx primitives tx = attachAdmitted d tx)
    (hok : (attachAdmitted d tx).2.isOk = true) :
    d.attachAndVerifyFor primitives shareTick.host tx shareTick.device
      = ((attachAdmitted d tx).1, .ok ()) := by
  have hfor : d.attachAndVerifyFor primitives shareTick.host tx shareTick.device
      = d.attachAndVerifyTx primitives tx := by
    simp only [KronDAG.attachAndVerifyTx, KronDAG.attachAndVerifyFor, shareTick,
      AttachingDevice.admitHost, Except.mapError]
  rw [hfor, hadm]
  generalize attachAdmitted d tx = r at hok ⊢
  obtain ⟨d', e | ⟨⟨⟩⟩⟩ := r
  · cases hok
  · rfl

theorem attach_shareTick :
    (fundedDag 1 1001).attachAndVerifyFor primitives shareTick.host shareTransfer shareTick.device
      = (minedDag, .ok ()) :=
  attachFor_shareTick (attach_transfer (by decide)) (by decide)

theorem minerTick_shareTick :
    ∃ out, genesisDag.minerTick primitives shareTick = some (minedDag, out)
      ∧ out.faucetCredited = genesisDag.firstShareDust (address 1)
      ∧ out.tx = some shareTransfer := by
  have hdust : genesisDag.firstShareDust (address 1) = 1001 := by decide
  have hcredit : genesisDag.creditAccount (address 1) 1001 = fundedDag 1 1001 := rfl
  rw [← sender_shareTick] at hdust hcredit ⊢
  have hbal : ¬ (fundedDag 1 1001).balance (shareTick.wallet.pub.address primitives)
      < shareCost := by
    rw [sender_shareTick]
    decide
  obtain ⟨out, hout, hcredited, htx, -⟩ := KronDAG.minerTick_of_attached
    (KronDAG.ensureGenesis_of_ne (List.cons_ne_nil _ _)) (by rw [hdust, hcredit]) (by decide) hbal
    composeAndSign_shareTick attach_shareTick
  exact ⟨out, hout, hcredited, htx⟩

end StandIn

open StandIn in
theorem mining_agreement_one :
    KronDAG.withGenesis primitives = some genesisDag ∧
      ∃ phone outs, genesisDag.minerTicks primitives [shareTick] = some (phone, outs) ∧
        (ingest primitives (run primitives genesisDag (dustOps primitives [shareTick] outs))
          phone.transactionsInOrder).currentSupply = phone.currentSupply := by
  obtain ⟨phone, outs, hrun, h, -⟩ := mining_agreement withGenesis_genesisDag [shareTick]
  exact ⟨withGenesis_genesisDag, phone, outs, hrun, (h _ rfl).1⟩

open StandIn in
/-- One tick of a phone, and a hub that is handed its vertices and no dust. -/
theorem hub_without_dust :
    KronDAG.withGenesis primitives = some genesisDag ∧
      ∃ outs, genesisDag.minerTicks primitives [shareTick] = some (minedDag, outs)
        ∧ minedDag.currentSupply = 100000 ∧ minedDag.dagTxCount = 1
        ∧ shareTransfer ∈ minedDag.applied
        ∧ (ingest primitives genesisDag minedDag.transactionsInOrder).currentSupply = 0
        ∧ (ingest primitives genesisDag minedDag.transactionsInOrder).dagTxCount = 0
        ∧ (ingest primitives genesisDag minedDag.transactionsInOrder).isConflict shareTransfer.id
          = true := by
  have hg := Graph.WF_withGenesis withGenesis_genesisDag
  have hcheck : genesisDag.checkVertex primitives shareTransfer = .ok () :=
    checkVertex_transfer (by decide)
  have hgraph : minedDag.toGraph = genesisDag.toGraph.insertVertex shareTransfer := rfl
  have horder : minedDag.transactionsInOrder = [genesisTx] ++ [shareTransfer] := by
    rw [hgraph, Graph.transactionsInOrder_insertVertex hg (Graph.checkVertex_ok hcheck).1]
    rfl
  have hhub : ingest primitives genesisDag minedDag.transactionsInOrder
      = (acceptAdmitted genesisDag shareTransfer).1 := by
    have hgen : ingest primitives genesisDag [genesisTx] = genesisDag :=
      ingest_stored _ _ (by decide)
    have hacc : genesisDag.acceptWireVertex primitives shareTransfer
        = acceptAdmitted genesisDag shareTransfer := accept_transfer (by decide)
    rw [horder, ingest_concat, hgen, hacc]
  obtain ⟨out, htick, -, -⟩ := minerTick_shareTick
  rw [hhub]
  refine ⟨withGenesis_genesisDag, [out], ?_, by decide, by decide, ?_, by decide, by decide,
    by decide⟩
  · rw [KronDAG.minerTicks_cons htick, KronDAG.minerTicks, Option.map_some]
  · rw [KronDAG.mem_applied (hgraph ▸ hg.insertVertex hcheck), hgraph, Graph.lookup_insertVertex,
      if_pos rfl]
    exact ⟨by decide, rfl, by decide⟩

end KronMesh
