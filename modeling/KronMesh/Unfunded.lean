import KronMesh.Calls
import KronMesh.StandInRun

/-!
# A node without a faucet

A fee is due before anything is minted, and genesis credits nobody. So as long as no account is
credited, no spend is ever covered: vertices are stored and refused, in every call and in every
rebuild, and the ledger stays at zero.
-/

namespace KronMesh

open Word Outcome

/-- No account holds anything, and nothing was ever minted. -/
structure Ledger.Unfunded (l : Ledger) : Prop where
  balance : ∀ a, l.balance a = 0
  relayCredit : ∀ a, l.relayCredits.get a = 0
  supply : l.currentSupply = 0
  count : l.dagTxCount = 0

/-- Nothing is spent from a ledger of zeros. -/
theorem checkSpend_unfunded {l : Ledger} {tx : DagTransaction} (hl : ∀ a, l.balance a = 0)
    (hpos : 0 < tx.cost) :
    ∃ e, l.checkSpend tx = .error e ∧ (tx.cost ≤ u64Max → e ≠ .overflow) := by
  have hnot : ¬ l.book.Covers tx := by
    rintro ⟨-, h⟩
    have hb : l.book.balance tx.sender = 0 := hl tx.sender
    omega
  rcases Ledger.checkSpend_cases l tx with ⟨-, h⟩ | ⟨-, hc, h⟩ | ⟨-, -, -, h⟩ | ⟨hcov, -⟩ |
    ⟨hcov, -⟩
  · exact ⟨_, h, by simp⟩
  · exact ⟨_, h, fun hle => by omega⟩
  · exact ⟨_, h, by simp⟩
  · exact absurd hcov hnot
  · exact absurd hcov hnot

theorem DagTransaction.cost_pos {tx : DagTransaction} (hfee : tx.fee.toNat = tx.requiredFee)
    (hgen : tx.isGenesis = false) : 0 < tx.cost := by
  unfold requiredFee at hfee
  rw [hgen] at hfee
  unfold cost
  rw [hfee]
  exact Nat.lt_of_lt_of_le (by decide) (Nat.le_add_left _ _)

namespace KronDAG

variable {P : Primitives} {d d' : KronDAG}

structure Unfunded (d : KronDAG) : Prop where
  graph : d.toGraph.WF
  ledger : d.toLedger.Unfunded
  faucet : ∀ a, d.faucet.get a = 0

/-- A replay from a ledger of zeros leaves it, also one that ends in an overflow. -/
theorem unfunded_replayLoop {g : Graph} (hg : g.WF) {l : Ledger} (hl : l.Unfunded)
    (order extra : List TxHash) :
    (replayLoop P g.vertices g.winnerOf l extra order).1.Unfunded := by
  refine replayLoop_invariant (P := P) (fun _ l => l.Unfunded) (fun _ _ h => h)
    (fun k id tx l hr h => ?_) order 0 l extra hl
  obtain ⟨-, hlook, hgen⟩ := Graph.replayedAt_eq_some.1 hr
  obtain ⟨e, hs, -⟩ := checkSpend_unfunded h.balance (DagTransaction.cost_pos (hg.fee hlook) hgen)
  unfold Ledger.applyLedgerEffects
  rw [hs]
  exact h

/-- Where every cost is a word, it ends in no overflow. -/
theorem replayLoop_ok_of_unfunded {g : Graph} (hg : g.WF)
    (hcost : ∀ {id tx}, g.vertices.lookup id = some tx → tx.cost ≤ u64Max) {l : Ledger}
    (hl : l.Unfunded) : ∀ (order extra : List TxHash),
      ∃ extra', replayLoop P g.vertices g.winnerOf l extra order = (l, .ok extra')
  | [], extra => ⟨extra, rfl⟩
  | id :: order, extra => by
    rcases hr : g.replayedAt id with _ | tx
    · rw [replayLoop_none l extra order hr]
      exact replayLoop_ok_of_unfunded hg hcost hl order extra
    · obtain ⟨-, hlook, hgen⟩ := Graph.replayedAt_eq_some.1 hr
      obtain ⟨e, hs, hne⟩ := checkSpend_unfunded hl.balance
        (DagTransaction.cost_pos (hg.fee hlook) hgen)
      have happ : l.applyLedgerEffects P tx = (l, .error e) := by
        unfold Ledger.applyLedgerEffects
        rw [hs]
      rcases replayLoop_some (P := P) l extra order hr with ⟨l₁, ha, -⟩ | ⟨-, -, -, -, he⟩ |
        ⟨l₁, ha, -⟩
      · rw [happ] at ha
        cases ha
      · rw [he]
        exact replayLoop_ok_of_unfunded hg hcost hl order _
      · rw [happ] at ha
        cases ha
        exact absurd rfl (hne (hcost hlook))

/-- A rebuild of a node without a faucet goes through, where every cost is a word. -/
theorem resolve_ok_of_unfunded (hd : d.toGraph.WF) (hf : ∀ a, d.faucet.get a = 0)
    (hcost : ∀ {id tx}, d.vertices.lookup id = some tx → tx.cost ≤ u64Max) :
    (d.resolveConflictsAndRebuildLedger P).2 = .ok () := by
  have hbase : d.baseline.Unfunded := ⟨hf, fun _ => rfl, rfl, rfl⟩
  obtain ⟨extra, hr⟩ := replayLoop_ok_of_unfunded (P := P) hd hcost hbase d.attachOrder []
  rw [resolve_of_replayLoop hr]

/-- Every step leaves a ledger of zeros. -/
theorem unfunded_step (h : Step P d d') (hd : d.Unfunded) : d'.Unfunded := by
  have hg := step_graphWF hd.graph h
  cases h with
  | attach tx new hcheck hspend =>
    have hfee := (Graph.checkVertex_ok hcheck).2.2.1
    obtain ⟨e, hs, -⟩ := checkSpend_unfunded hd.ledger.balance
      (DagTransaction.cost_pos hfee (hd.graph.not_isGenesis hcheck))
    rw [hs] at hspend
    cases hspend
  | store tx relayOf hcheck => exact ⟨hg, hd.ledger, hd.faucet⟩
  | rebuild =>
    refine ⟨hg, ?_, by rw [(d.resolve_frame (P := P)).2]; exact hd.faucet⟩
    have hbase : d.baseline.Unfunded := ⟨hd.faucet, fun _ => rfl, rfl, rfl⟩
    rw [d.resolve_toLedger]
    exact unfunded_replayLoop hd.graph hbase d.attachOrder []

theorem unfunded_withGenesis (h : withGenesis P = some d) : d.Unfunded := by
  have hg := Graph.WF_withGenesis h
  obtain ⟨g, hsig, -, -, rfl⟩ := withGenesis_eq h
  have hself : g.sender = g.recipient := (signedGenesisTx_ok hsig).2.1
  refine ⟨hg, ⟨fun a => ?_, fun _ => rfl, rfl, rfl⟩, fun _ => rfl⟩
  change Tally.get (Ledger.empty.moveSpend g (0, 0)).balances a = 0
  unfold Ledger.moveSpend
  simp only [if_pos hself, Tally.get_set]
  split_ifs <;> rfl

/-- So does every call but a credit. -/
theorem unfunded_exec (hd : d.Unfunded) {op : Op} (hop : ∀ a n, op ≠ .credit a n) :
    (exec P d op).Unfunded := by
  rcases exec_cases (P := P) d op with ⟨a, n, he, -⟩ | ⟨-, hs⟩
  · exact absurd he (hop a n)
  · generalize exec P d op = d' at hs
    induction hs with
    | refl => exact hd
    | tail _ hs ih => exact unfunded_step hs ih

/-- A node without a faucet stores every vertex that is admitted and of a cost in a word. -/
theorem accept_graph_of_unfunded {tx : DagTransaction} (hd : d.Unfunded)
    (hcheck : d.checkVertex P tx = .ok ()) (hcost : tx.cost ≤ u64Max) :
    (exec P d (.accept tx)).toGraph = d.toGraph.insertVertex tx := by
  obtain ⟨e, hs, hne⟩ := checkSpend_unfunded hd.ledger.balance
    (DagTransaction.cost_pos (Graph.checkVertex_ok hcheck).2.2.1 (hd.graph.not_isGenesis hcheck))
  rw [exec_accept, accept_admitted hcheck, hs]
  have hres : ∀ d : KronDAG, (d.resolveConflictsAndRebuildLedger P).1.toGraph = d.toGraph :=
    fun d => d.resolve_frame.1
  cases e
  case overflow => exact absurd rfl (hne hcost)
  all_goals exact hres _

/-- It says so where every other cost is a word, too. -/
theorem accept_ok_of_unfunded {tx : DagTransaction} (hd : d.Unfunded)
    (hcheck : d.checkVertex P tx = .ok ()) (hcost : tx.cost ≤ u64Max)
    (hall : ∀ {id tx}, d.vertices.lookup id = some tx → tx.cost ≤ u64Max) :
    (d.acceptWireVertex P tx).2 = .ok true := by
  obtain ⟨e, hs, hne⟩ := checkSpend_unfunded hd.ledger.balance
    (DagTransaction.cost_pos (Graph.checkVertex_ok hcheck).2.2.1 (hd.graph.not_isGenesis hcheck))
  have hcosts : ∀ {id y}, (d.toGraph.insertVertex tx).vertices.lookup id = some y →
      y.cost ≤ u64Max := by
    intro id y hl
    rcases Graph.lookup_insertVertex_cases hl with ⟨-, rfl⟩ | ⟨-, hl⟩
    · exact hcost
    · exact hall hl
  have hres := resolve_ok_of_unfunded (P := P)
    (d := { d with toGraph := d.toGraph.insertVertex tx }) (hd.graph.insertVertex hcheck) hd.faucet
    hcosts
  rw [accept_admitted hcheck, hs]
  cases e
  case overflow => exact absurd rfl (hne hcost)
  all_goals
    simp only [hres]
    rfl

end KronDAG

/-- A node that is never credited confirms nothing: whatever it is handed and whatever the calls
return, every balance, the supply, the count and every relay credit stay at zero. -/
theorem unfunded_run {P : Primitives} {d : KronDAG} (h : KronDAG.withGenesis P = some d)
    (ops : List Op) (hnone : ∀ a n, Op.credit a n ∉ ops) :
    (∀ a, (run P d ops).balance a = 0) ∧ (run P d ops).currentSupply = 0
      ∧ (run P d ops).dagTxCount = 0 ∧ ∀ a, (run P d ops).relayCredits.get a = 0 := by
  have hinv : (run P d ops).Unfunded := by
    induction ops using List.reverseRecOn with
    | nil => exact KronDAG.unfunded_withGenesis h
    | append_singleton ops op ih =>
      rw [run_concat]
      refine KronDAG.unfunded_exec (ih fun a n hm => hnone a n (List.mem_append_left _ hm)) ?_
      rintro a n rfl
      exact hnone a n (List.mem_append_right _ List.mem_cons_self)
  exact ⟨hinv.ledger.balance, hinv.ledger.supply, hinv.ledger.count, hinv.ledger.relayCredit⟩

open StandIn in
/-- A hub that stores two transfers and a batch has still minted nothing. -/
theorem unfunded_run_transfers :
    (run primitives genesisDag
        [.accept firstTransfer, .merge [rivalTransfer] 0, .accept orphanTransfer]).currentSupply
      = 0 :=
  (unfunded_run withGenesis_genesisDag
    [.accept firstTransfer, .merge [rivalTransfer] 0, .accept orphanTransfer] (by simp)).2.1

end KronMesh
