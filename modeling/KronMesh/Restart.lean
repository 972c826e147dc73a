import KronMesh.Resigned

/-!
# A restart of a hub

A hub that takes in vertices and credits its faucet writes everything down, yet a restart is no
repetition of its life: the credits come first. A vertex that was stored aside may then be due, and
one that is due and exceeds a word ends the boot. Within room a restart gives the graph back exactly
when the log meets no such vertex (`restart_restores_iff`). A boot signs its genesis vertex again,
so its signature is what may change.
-/

namespace KronMesh

open Word Outcome Wire

inductive HubCall
  | ingest (tx : DagTransaction)
  | credit (address : Address) (amount : UInt64)

/-- What a call does to the node. -/
def HubCall.op : HubCall → Op
  | .ingest tx => .accept tx
  | .credit address amount => .credit address amount

namespace HubState

section

variable (P : Primitives)

def call (hub : HubState) : HubCall → HubState
  | .ingest tx => (hub.ingest P tx).1
  | .credit address amount => hub.credit P address amount

def run (hub : HubState) (calls : List HubCall) : HubState := calls.foldl (call P) hub

/-- No ingest of the run returns an overflow. -/
def NoOverflow : HubState → List HubCall → Prop
  | _, [] => True
  | hub, c :: calls =>
    (∀ tx, c = .ingest tx → (hub.ingest P tx).2 ≠ .error .overflow)
      ∧ NoOverflow (hub.call P c) calls

end

variable {P : Primitives} {d : KronDAG} {hub : HubState} {tx : DagTransaction}
variable {records : List DagTransaction}

theorem ingest_dag (hub : HubState) (tx : DagTransaction) :
    (hub.ingest P tx).1.dag = (hub.dag.acceptWireVertex P tx).1
      ∧ (hub.ingest P tx).2 = (hub.dag.acceptWireVertex P tx).2 := by
  unfold ingest
  rcases hub.dag.acceptWireVertex P tx with ⟨d', e | ⟨⟨⟩⟩⟩ <;> exact ⟨rfl, rfl⟩

theorem call_dag (hub : HubState) : ∀ c, (hub.call P c).dag = exec P hub.dag c.op
  | .ingest tx => (hub.ingest_dag tx).1
  | .credit _ _ => rfl

theorem run_dag : ∀ (calls : List HubCall) (hub : HubState),
    (hub.run P calls).dag = KronMesh.run P hub.dag (calls.map HubCall.op)
  | [], _ => rfl
  | c :: calls, hub => by
    rw [run, List.foldl_cons, List.map_cons, run_cons, ← call_dag]
    exact run_dag calls (hub.call P c)

theorem noOverflow_append : ∀ {calls calls' : List HubCall} {hub : HubState},
    NoOverflow P hub (calls ++ calls')
      ↔ NoOverflow P hub calls ∧ NoOverflow P (hub.run P calls) calls'
  | [], _, _ => (and_iff_right trivial).symm
  | c :: calls, calls', hub => by
    rw [List.cons_append, NoOverflow, NoOverflow, noOverflow_append, and_assoc]
    rfl

theorem noOverflow_of_callsOk : ∀ {calls : List HubCall} {hub : HubState},
    CallsOk P hub.dag (calls.map HubCall.op) → NoOverflow P hub calls
  | [], _, _ => trivial
  | c :: calls, hub, ⟨hok, hrest⟩ => by
    refine ⟨fun tx hc => ?_, noOverflow_of_callsOk ((hub.call_dag c).symm ▸ hrest)⟩
    subst hc
    rw [(hub.ingest_dag tx).2]
    exact hok

theorem noOverflow_of_not_mem : ∀ {calls : List HubCall} {hub : HubState},
    (∀ tx, .ingest tx ∉ calls) → NoOverflow P hub calls
  | [], _, _ => trivial
  | c :: _, _, h =>
    ⟨fun tx hc => absurd (hc ▸ List.mem_cons_self) (h tx),
      noOverflow_of_not_mem fun tx hm => h tx (List.mem_cons_of_mem c hm)⟩

/-! ## What a call writes -/

theorem keeps_persistSnapshot (hwal : hub.store.wal = records.foldl (appendWal P) none) :
    (hub.persistSnapshot P).store.Keeps P records hub.dag :=
  ⟨hwal, .inr rfl⟩

theorem keeps_persistVertex (hgen : tx.isGenesis = false)
    (hwal : hub.store.wal = records.foldl (appendWal P) none) :
    (hub.persistVertex P tx).store.Keeps P (records ++ [tx]) hub.dag := by
  refine keeps_persistSnapshot ?_
  rw [List.foldl_append, List.foldl_cons, List.foldl_nil, ← hwal]
  unfold DagStore.appendVertex
  rw [hgen]
  simp only [Bool.false_eq_true, if_false]
  split_ifs <;> rfl

/-- The files hold the node: its graph is that of genesis and of the log. -/
structure Kept (P : Primitives) (d : KronDAG) (hub : HubState) (records : List DagTransaction) :
    Prop where
  wf : hub.dag.toGraph.WF
  fits : d.toGraph.Fits P records
  graph : hub.dag.toGraph = records.foldl Graph.insertVertex d.toGraph
  keeps : hub.store.Keeps P records hub.dag

theorem kept_empty (h : KronDAG.withGenesis P = some d) : Kept P d ⟨d, .empty⟩ [] := by
  refine ⟨Graph.WF_withGenesis h, trivial, rfl, rfl, .inl ⟨rfl, ?_⟩⟩
  obtain ⟨g, -, -, -, rfl⟩ := withGenesis_eq h
  rfl

/-- An ingest that does not overflow writes its vertex down when it stores it, and else does
nothing. -/
theorem Kept.ingest (hk : hub.Kept P d records)
    (hno : (hub.ingest P tx).2 ≠ .error .overflow) :
    (hub.ingest P tx).1.Kept P d records ∨ (hub.ingest P tx).1.Kept P d (records ++ [tx]) := by
  rcases hacc : hub.dag.acceptWireVertex P tx with ⟨d', r⟩
  by_cases hnew : r = .ok true
  · subst hnew
    have hcheck := (accept_ok_cases hacc).1
    have hgraph := accept_graph hacc
    have hing : (hub.ingest P tx).1 = persistVertex P { hub with dag := d' } tx := by
      unfold HubState.ingest
      rw [hacc]
    refine .inr ?_
    rw [hing]
    refine ⟨?_, ?_, ?_, keeps_persistVertex (hk.wf.not_isGenesis hcheck) hk.keeps.wal⟩
    · exact hgraph.symm ▸ hk.wf.insertVertex hcheck
    · exact fits_concat.2 ⟨hk.fits, hk.graph ▸ hcheck⟩
    · rw [List.foldl_append, ← hk.graph]
      exact hgraph
  · have hsnd := (hub.ingest_dag (P := P) tx).2
    rw [hsnd, hacc] at hno
    obtain rfl := accept_unchanged hacc hnew hno
    have hing : (hub.ingest P tx).1 = hub := by
      unfold HubState.ingest
      rw [hacc]
      rcases r with e | ⟨⟨⟩⟩
      · rfl
      · rfl
      · exact absurd rfl hnew
    exact .inl (hing.symm ▸ hk)

theorem Kept.credit (hk : hub.Kept P d records) (a : Address) (n : UInt64) :
    (hub.credit P a n).Kept P d records := by
  have hgraph := (hub.dag.creditAccount_frame a n.toNat).1
  exact ⟨hgraph.symm ▸ hk.wf, hk.fits, hgraph.trans hk.graph, keeps_persistSnapshot hk.keeps.wal⟩

/-- A run without an overflow writes down what it stores. -/
theorem Kept.run : ∀ {calls : List HubCall} {hub : HubState} {records : List DagTransaction},
    hub.Kept P d records → NoOverflow P hub calls →
    ∃ new, (hub.run P calls).Kept P d (records ++ new) ∧ ∀ tx ∈ new, .ingest tx ∈ calls
  | [], hub, records, hk, _ => ⟨[], by rwa [List.append_nil], by simp⟩
  | c :: calls, hub, records, hk, ⟨hno, hrest⟩ => by
    have hcall : ∃ new, (hub.call P c).Kept P d (records ++ new)
        ∧ ∀ tx ∈ new, .ingest tx = c := by
      rcases c with tx | ⟨a, n⟩
      · rcases hk.ingest (hno tx rfl) with h | h
        · exact ⟨[], by rwa [List.append_nil], by simp⟩
        · exact ⟨[tx], h, by simp⟩
      · exact ⟨[], by rw [List.append_nil]; exact hk.credit a n, by simp⟩
    obtain ⟨new, hk', hnew⟩ := hcall
    obtain ⟨new', hk'', hnew'⟩ := hk'.run hrest
    refine ⟨new ++ new', by rwa [← List.append_assoc], fun tx htx => ?_⟩
    rcases List.mem_append.1 htx with htx | htx
    · exact hnew tx htx ▸ List.mem_cons_self
    · exact List.mem_cons_of_mem c (hnew' tx htx)

end HubState

section Restarts

open HubState

variable {P : Primitives} {d : KronDAG}

/-- What a hub has written down of a run within room. -/
theorem HubState.Kept.room {hub : HubState} {records : List DagTransaction}
    (hk : hub.Kept P d records) (h : KronDAG.withGenesis P = some d)
    (hroom : hub.dag.HasRoom) :
    Ledger.Room hub.dag.faucetTotal (d.vertexCount + records.length) := by
  have hlen := congrArg List.length
    (transactionsInOrder_foldl (Graph.WF_withGenesis h) hk.fits)
  rw [← hk.graph, List.length_append, Graph.length_transactionsInOrder hk.wf,
    Graph.length_transactionsInOrder (Graph.WF_withGenesis h)] at hlen
  exact ⟨hroom.faucet, hlen ▸ hroom.vertices⟩

/-- A boot whose own signature of genesis is drawn by `sign` gives back the graph of the hub, and
all of it when it is drawn as the hub's was. -/
def HubState.Restores (P : Primitives) (sign : Bytes → Bytes → Bytes → Option Bytes)
    (hub : HubState) : Prop :=
  ∃ d' snap, hub.store.load (P.signing sign) = .ok (d', snap)
    ∧ hub.dag.toGraph.SameButSigned d'.toGraph ∧ (sign = P.trySign → d'.toGraph = hub.dag.toGraph)

/-- Where every boot that goes through gives back the graph, the signer makes no difference. -/
theorem HubState.restores_iff {hub : HubState} {d₀ : KronDAG}
    {sign : Bytes → Bytes → Bytes → Option Bytes} (h : KronDAG.withGenesis P = some d)
    (h₀ : KronDAG.withGenesis (P.signing sign) = some d₀)
    (hback : ∀ d' snap, hub.store.load P = .ok (d', snap) → d'.toGraph = hub.dag.toGraph) :
    hub.Restores P sign ↔ ∃ d' snap, hub.store.load P = .ok (d', snap) := by
  obtain ⟨sig, -, hload⟩ := load_signing h h₀
  have hload := hload hub.store
  constructor
  · rintro ⟨d', snap, hl, -⟩
    obtain ⟨d₁, snap₁, hl₁, -⟩ :=
      (load_signing_iff h h₀ hub.store fun _ => True).1 ⟨d', snap, hl, trivial⟩
    exact ⟨d₁, snap₁, hl₁⟩
  · rintro ⟨d₁, snap, hp⟩
    rw [hp] at hload
    have hgraph := hback d₁ snap hp
    refine ⟨d₁.resigned sig, snap, hload, ?_, ?_⟩
    · rw [← hgraph]
      exact d₁.toGraph.sameButSigned_resigned sig
    · rintro rfl
      exact hback _ snap hload

/-- A hub starts on an empty directory, takes in vertices without an overflow and credits its
faucet. Within room, and with its files within reach of their length fields, a boot from what it
has written gives back its graph exactly when no vertex of the log that exceeds a word is due on
the way, so always when no vertex exceeds a word. However the boot draws its signature of genesis,
nothing else depends on that. -/
theorem restart_restores_iff (h : KronDAG.withGenesis P = some d) (calls : List HubCall)
    (hlogged : ∀ tx, .ingest tx ∈ calls → Logged P tx)
    (hno : NoOverflow P ⟨d, .empty⟩ calls) {hub : HubState}
    (hhub : HubState.run P ⟨d, .empty⟩ calls = hub)
    (hF : credited (calls.map HubCall.op) + hardCap ≤ u64Max)
    (hn : hardCap + fixedTransactionFee * hub.dag.vertexCount ≤ u64Max)
    (hsize : (encodeSnapshot (.fromDag hub.dag)).length < 2 ^ 32) :
    ∃ records, hub.dag.transactionsInOrder = d.transactionsInOrder ++ records ∧
      ∀ sign d₀, KronDAG.withGenesis (P.signing sign) = some d₀ →
        (hub.Restores P sign ↔ Clear P (creditFaucet d hub.dag.faucet) records) ∧
        ((∀ tx, .ingest tx ∈ calls → tx.amount.toNat + tx.fee.toNat ≤ u64Max) →
          hub.Restores P sign) := by
  obtain ⟨records, hk, hmem⟩ := (kept_empty h).run hno
  rw [List.nil_append, hhub] at hk
  have hdag : KronMesh.run P d (calls.map HubCall.op) = hub.dag := by
    rw [← hhub, run_dag]
  have hroom : hub.dag.HasRoom := hdag ▸ hasRoom_run h _ hF (hdag.symm ▸ hn)
  obtain ⟨hiff, hfold⟩ := load_isOk_iff h hk.keeps (fun tx htx => hlogged tx (hmem tx htx)) hsize
    (hk.room h hroom) hk.fits
  have hback : ∀ d' snap, hub.store.load P = .ok (d', snap) → d'.toGraph = hub.dag.toGraph :=
    fun d' snap hload => (hfold d' snap hload).trans hk.graph.symm
  refine ⟨records, ?_, fun sign d₀ h₀ => ?_⟩
  · rw [hk.graph]
    exact transactionsInOrder_foldl (Graph.WF_withGenesis h) hk.fits
  have hboot := (restores_iff h h₀ hback).trans hiff
  refine ⟨hboot, fun hcost => hboot.2 ?_⟩
  refine clear_of_cost records (fun id tx hl => ?_) fun tx htx => hcost tx (hmem tx htx)
  rw [creditFaucet_toGraph] at hl
  exact cost_withGenesis h hl

open StandIn

/-- A spend of `u64::MAX` behind the first transfer. -/
def strandedTransfer : DagTransaction :=
  transfer 12534543721737 1 genesisId genesisId (address 2) 18446744073709551615 1

/-- Wallet 1 has nothing yet, so both vertices are stored aside. -/
def lateCredit (tx : DagTransaction) : List HubCall :=
  [.ingest firstTransfer, .ingest tx, .credit (address 1) 1000000]

/-- The hub behind a late credit. -/
def lateHub (tx : DagTransaction) : HubState :=
  HubState.run primitives ⟨genesisDag, .empty⟩ (lateCredit tx)

/-- Transfers that are accepted one after the other fit. -/
theorem fits_transfers : ∀ (txs : List DagTransaction) {d : KronDAG},
    (∀ tx ∈ txs, IsTransfer tx) → acceptable d txs = true → d.toGraph.Fits primitives txs
  | [], _, _, _ => trivial
  | tx :: txs, d, ht, h => by
    obtain ⟨⟨id, n, p1, p2, r, a, m, rfl⟩, hts⟩ := List.forall_mem_cons.1 ht
    simp only [acceptable, Bool.and_eq_true, bne_iff_ne] at h
    obtain ⟨⟨hadm, hok⟩, h⟩ := h
    have hcheck := checkVertex_transfer hadm
    have hacc := accept_transfer hadm
    have hgraph := accept_graph_of_admitted hcheck (hacc.symm ▸ hok)
    rw [hacc] at hgraph
    exact ⟨hcheck, hgraph ▸ fits_transfers txs hts h⟩

/-- What the hub of a late credit has written down. -/
theorem kept_lateHub {tx : DagTransaction} (ht : IsTransfer tx)
    (h : acceptable genesisDag [firstTransfer, tx] = true) :
    (lateHub tx).Kept primitives genesisDag [firstTransfer, tx]
      ∧ NoOverflow primitives ⟨genesisDag, .empty⟩ (lateCredit tx)
      ∧ (lateHub tx).dag
        = (acceptAll genesisDag [firstTransfer, tx]).creditAccount (address 1) 1000000
      ∧ (lateHub tx).dag.faucet = (∅ : Tally Address).set (address 1) 1000000 := by
  have hall : ∀ y ∈ [firstTransfer, tx], IsTransfer y := by
    simpa using ⟨isTransfer_transfer _ _ _ _ _ _ _, ht⟩
  obtain ⟨hrun, hok⟩ := run_transfers [firstTransfer, tx] hall h
  have hfits := fits_transfers [firstTransfer, tx] hall h
  have hno : NoOverflow primitives ⟨genesisDag, .empty⟩ (lateCredit tx) := by
    have hsplit : lateCredit tx
        = [.ingest firstTransfer, .ingest tx] ++ [.credit (address 1) 1000000] := rfl
    rw [hsplit, noOverflow_append]
    exact ⟨noOverflow_of_callsOk hok, nofun, trivial⟩
  have hdag : (lateHub tx).dag
      = (acceptAll genesisDag [firstTransfer, tx]).creditAccount (address 1) 1000000 := by
    have hops : (lateCredit tx).map HubCall.op
        = [firstTransfer, tx].map .accept ++ [.credit (address 1) 1000000] := rfl
    rw [lateHub, run_dag, hops, run_concat, hrun]
    rfl
  have hfaucet : (lateHub tx).dag.faucet = (∅ : Tally Address).set (address 1) 1000000 := by
    have hstart := faucet_run_accept (P := primitives) genesisDag [firstTransfer, tx]
    rw [hrun] at hstart
    rw [hdag]
    unfold KronDAG.creditAccount
    rw [if_neg (by decide), hstart]
    have hsum : saturatingAdd (Tally.get (∅ : Tally Address) (address 1)) 1000000 = 1000000 := by
      decide
    exact congrArg (Tally.set (∅ : Tally Address) (address 1)) hsum
  refine ⟨?_, hno, hdag, hfaucet⟩
  obtain ⟨records, hk, -⟩ := (kept_empty withGenesis_genesisDag).run hno
  rw [List.nil_append] at hk
  have hg := Graph.WF_withGenesis withGenesis_genesisDag
  have hgraph : (lateHub tx).dag.toGraph
      = [firstTransfer, tx].foldl Graph.insertVertex genesisDag.toGraph := by
    rw [hdag, (KronDAG.creditAccount_frame _ _ _).1, graph_acceptAll _ hall h]
  have horder := transactionsInOrder_foldl hg hk.fits
  rw [← hk.graph] at horder
  have horder' := transactionsInOrder_foldl hg hfits
  rw [← hgraph] at horder'
  have hrecords : records = [firstTransfer, tx] :=
    List.append_cancel_left (horder.symm.trans horder')
  exact hrecords ▸ hk

theorem logged_lateCredit {tx : DagTransaction} (htx : Logged primitives tx) :
    ∀ y, .ingest y ∈ lateCredit tx → Logged primitives y := by
  intro y hy
  simp only [lateCredit, List.mem_cons, HubCall.ingest.injEq, reduceCtorEq, List.not_mem_nil,
    or_false] at hy
  rcases hy with rfl | rfl
  · exact logged_transfer id_firstTransfer
  · exact htx

theorem restart_restores_iff_lateCredit :
    ∃ d' snap, (lateHub secondTransfer).store.load primitives = .ok (d', snap)
      ∧ d'.toGraph = (lateHub secondTransfer).dag.toGraph := by
  obtain ⟨-, hno, hdag, -⟩ := @kept_lateHub secondTransfer
    (isTransfer_transfer _ _ _ _ _ _ _) (by decide)
  have hn : hardCap + fixedTransactionFee * (lateHub secondTransfer).dag.vertexCount ≤ u64Max := by
    rw [hdag]
    decide
  have hsize : (encodeSnapshot (.fromDag (lateHub secondTransfer).dag)).length < 2 ^ 32 := by
    rw [length_encodeSnapshot, hdag]
    decide
  have hlogged := logged_lateCredit (logged_transfer id_secondTransfer)
  have hhub : HubState.run primitives ⟨genesisDag, .empty⟩ (lateCredit secondTransfer)
      = lateHub secondTransfer := rfl
  obtain ⟨_, -, hrestores⟩ := restart_restores_iff withGenesis_genesisDag
    (lateCredit secondTransfer) hlogged hno hhub (by decide) hn hsize
  obtain ⟨-, hback⟩ := hrestores primitives.trySign genesisDag withGenesis_genesisDag
  have hcost : ∀ tx, .ingest tx ∈ lateCredit secondTransfer →
      tx.amount.toNat + tx.fee.toNat ≤ u64Max := by
    intro tx htx
    simp only [lateCredit, List.mem_cons, HubCall.ingest.injEq, reduceCtorEq, List.not_mem_nil,
      or_false] at htx
    rcases htx with rfl | rfl <;> decide
  obtain ⟨d', snap, hload, -, hgraph⟩ := hback hcost
  exact ⟨d', snap, hload, hgraph rfl⟩

/-- The credit lets the boot apply the first transfer, and then the spend is due. -/
theorem late_credit_ends_boot :
    ¬ ∀ calls : List HubCall, (∀ tx, .ingest tx ∈ calls → Logged primitives tx) →
      NoOverflow primitives ⟨genesisDag, .empty⟩ calls → ∃ d' snap,
        (HubState.run primitives ⟨genesisDag, .empty⟩ calls).store.load primitives
          = .ok (d', snap) := by
  intro h
  have hlogged : ∀ tx, .ingest tx ∈ lateCredit strandedTransfer → Logged primitives tx :=
    logged_lateCredit (logged_transfer (by decide))
  obtain ⟨hk, hno, hdag, hfaucet⟩ := @kept_lateHub strandedTransfer
    (isTransfer_transfer _ _ _ _ _ _ _) (by decide)
  obtain ⟨d', snap, hload⟩ := h (lateCredit strandedTransfer) hlogged hno
  have hroom : Ledger.Room (lateHub strandedTransfer).dag.faucetTotal
      (genesisDag.vertexCount + 2) := ⟨by rw [hdag]; decide, by decide⟩
  have hsize : (encodeSnapshot (.fromDag (lateHub strandedTransfer).dag)).length < 2 ^ 32 := by
    rw [length_encodeSnapshot, hdag]
    decide
  have hcredit : creditFaucet genesisDag (lateHub strandedTransfer).dag.faucet
      = fundedDag 1 1000000 := creditFaucet_single (by decide) hfaucet genesisDag
  have hacc : (fundedDag 1 1000000).acceptWireVertex primitives firstTransfer
      = acceptAdmitted (fundedDag 1 1000000) firstTransfer := accept_transfer (by decide)
  have hkept : ∀ tx ∈ [firstTransfer, strandedTransfer], Logged primitives tx := by
    simpa using ⟨hlogged firstTransfer (by simp [lateCredit]),
      hlogged strandedTransfer (by simp [lateCredit])⟩
  have hclear := (load_isOk_iff withGenesis_genesisDag hk.keeps hkept hsize hroom hk.fits).1.1
    ⟨d', snap, hload⟩
  rw [hcredit] at hclear
  obtain ⟨-, ⟨hdue, -⟩, -⟩ := hclear
  rw [hacc] at hdue
  exact hdue (by decide)

end Restarts

end KronMesh
