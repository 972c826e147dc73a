import KronMesh.Compose
import KronMesh.Explorer

/-!
# A spend from the explorer's hint

A wallet without a graph of its own asks the explorer for nonce, parents and balance. Of a node that
is mirrored these are the next nonce, what the choice of parents comes to, and the balance, so the
transfer made from them is attached.
-/

namespace KronMesh

open Word Wire

section Hint

variable {P : Primitives} {start : Graph} {dag : KronDAG} {hexDecode : String → Option Bytes}

theorem syncFromDag_tips (dag : KronDAG) (hexDecode : String → Option Bytes) (e : ExplorerEngine) :
    (e.syncFromDag hexDecode dag).tips = dag.tips.insertionSort (· ≤ ·) := rfl

/-- The first two of the sorted tips are distinct, and the only tip goes with the genesis vertex. -/
theorem Graph.Grown.composeHint (hg : dag.toGraph.Grown P start) (e : ExplorerEngine) {a : Address}
    {s : String} (hs : parseExplorerAddress hexDecode s = some a) :
    ∃ p1 p2, (e.syncFromDag hexDecode dag).composeHint hexDecode s
        = (dag.nextNonce.get a, p1, p2, dag.balance a)
      ∧ dag.Parents (p1, p2) := by
  have hperm : (e.syncFromDag hexDecode dag).tips.Perm dag.tips := by
    rw [syncFromDag_tips]
    exact List.perm_insertionSort _ _
  have hgenesis : (e.syncFromDag hexDecode dag).genesis = dag.genesisIdOr := rfl
  obtain ⟨hbalance, hnonce, -⟩ := hg.mirrors e hs
  generalize e.syncFromDag hexDecode dag = mirror at *
  unfold ExplorerEngine.composeHint
  dsimp only
  rw [hbalance, hnonce]
  rcases htips : mirror.tips with _ | ⟨a, _ | ⟨b, rest⟩⟩
  · rw [htips] at hperm
    exact absurd hperm.symm.eq_nil (hg.indexed.tips_ne_nil hg.wf)
  · rw [htips] at hperm
    exact ⟨a, mirror.genesis, rfl, hgenesis ▸ hg.parents_of_only hperm.symm.eq_singleton⟩
  · rw [htips] at hperm
    have hne : a ≠ b := fun h =>
      (List.nodup_cons.1 (hperm.nodup_iff.2 hg.tips_nodup)).1 (h ▸ List.mem_cons_self)
    refine ⟨a, b, rfl, hg.parents_of_tips (hperm.subset List.mem_cons_self) ?_ hne⟩
    exact hperm.subset (List.mem_cons_of_mem a List.mem_cons_self)

end Hint

section Run

variable {P : Primitives} {d : KronDAG}

open KronDAG

/-- In every state of a run, whatever the explorer held before it mirrored the node, a transfer of
the parents and nonce that it hints at, of an amount and fee within the balance that it hints at, is
attached. The vertices are fewer than a word counts, as a vector of their ids is. -/
theorem composeHint_run (h : withGenesis P = some d) (ops : List Op)
    (haddr : (run P d ops).Addressed P) (hF : (run P d ops).faucetTotal + hardCap ≤ u64Max)
    (hn : (run P d ops).vertexCount + 1 ≤ u64Max) (hexDecode : String → Option Bytes)
    (e : ExplorerEngine) {w : LatticeKeyPair} (hw : w.Signs P) {s : String}
    (hs : parseExplorerAddress hexDecode s = some (w.pub.address P)) (recipient : Address)
    {amount : UInt64} {nonce balance : ℕ} {p1 p2 : TxHash}
    (hhint : (e.syncFromDag hexDecode (run P d ops)).composeHint hexDecode s
      = (nonce, p1, p2, balance))
    (hbal : amount.toNat + fixedTransactionFee ≤ balance) :
    ∃ tx, DagTransaction.userTransfer P p1 p2 w recipient amount (UInt64.ofNat nonce) = .ok tx ∧
      ((run P d ops).NoCollision P tx →
        ∃ d', (run P d ops).attachAndVerifyTx P tx = (d', .ok ())) := by
  have hg := grown_run h ops
  have hback := backed_run h ops hF
  obtain ⟨q1, q2, hsync, hpar⟩ := hg.composeHint e hs
  rw [hsync, Prod.mk.injEq, Prod.mk.injEq, Prod.mk.injEq] at hhint
  obtain ⟨rfl, rfl, rfl, rfl⟩ := hhint
  obtain ⟨tx, htx⟩ := userTransfer_isOk hw q1 q2 recipient amount
    (UInt64.ofNat ((run P d ops).nextNonce.get (w.pub.address P)))
  refine ⟨tx, htx, fun hnew => ?_⟩
  have hcount := hback.ledger.count
  have hcheck := checkVertex_transfer hg haddr hw hpar htx hnew
  obtain ⟨new, -, hok, hatt⟩ := attached_transfer hg hback hF (inRange_run h ops).ledger (by omega)
    hcheck htx hbal
  exact ⟨_, hatt.trans (Prod.ext rfl hok)⟩

section

open StandIn

/-- What wallet 1 makes of the hint on the fork: the tips are named in order. -/
def hintTransfer : DagTransaction :=
  transfer 10461334187651 1 12534542786466 12534660997154 (address 2) 1000 1

theorem id_hintTransfer :
    DagTransaction.computeId primitives hintTransfer.unsignedBytes = hintTransfer.id := by
  decide

theorem composeHint_forkOps {hexDecode : String → Option Bytes} :
    (ExplorerEngine.default.syncFromDag hexDecode
      (run primitives genesisDag forkOps)).composeHint hexDecode (encodeKron (address 1))
      = (1, 12534542786466, 12534660997154, 1099000) := by
  have hs : parseExplorerAddress hexDecode (encodeKron (address 1)) = some (address 1) :=
    parseExplorerAddress_encodeKron
  obtain ⟨hbalance, hnonce, -⟩ := (grown_run withGenesis_genesisDag forkOps).mirrors .default hs
  have htips : (run primitives genesisDag forkOps).tips.insertionSort (· ≤ ·)
      = [12534542786466, 12534660997154] := by
    rw [run_forkOps]
    decide
  have hsync := syncFromDag_tips (run primitives genesisDag forkOps) hexDecode .default
  unfold ExplorerEngine.composeHint
  rw [hsync, htips]
  dsimp only
  rw [hbalance, hnonce, run_forkOps]
  decide

/-- The transfer made from the hint joins the two tips of a fork. -/
theorem composeHint_run_forkOps : ∃ d',
    (run primitives genesisDag forkOps).attachAndVerifyTx primitives hintTransfer
      = (d', .ok ()) := by
  have hF : (run primitives genesisDag forkOps).faucetTotal + hardCap ≤ u64Max := by
    rw [run_forkOps]
    decide
  have hn : (run primitives genesisDag forkOps).vertexCount + 1 ≤ u64Max := by
    rw [run_forkOps]
    decide
  have hw : firstWallet.Signs primitives := signs_fromSeed _
  have hs : parseExplorerAddress (fun _ => none) (encodeKron (address 1))
      = some (firstWallet.pub.address primitives) := by
    rw [address_firstWallet]
    exact parseExplorerAddress_encodeKron
  have hbal : (1000 : UInt64).toNat + fixedTransactionFee ≤ 1099000 := by decide
  obtain ⟨tx, htx, hatt⟩ := composeHint_run withGenesis_genesisDag forkOps addressed_forkOps hF hn
    (fun _ => none) .default hw hs (address 2) composeHint_forkOps hbal
  obtain rfl : hintTransfer = tx := Except.ok.inj
    ((userTransfer_eq 1 _ _ (address 2) 1000 1 id_hintTransfer).symm.trans htx)
  exact hatt (noCollision_forkOps id_hintTransfer (by decide))

end

end Run

end KronMesh
