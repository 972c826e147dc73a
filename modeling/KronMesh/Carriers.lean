import KronMesh.Rebuild
import KronMesh.StandInRun

/-!
# Who is paid as a relay

A mint credits no relay but those it is handed, and every mint is handed the relays that a vertex
proves: attaching and accepting read them off the vertex, and so does the replay of what a merge or
an accepted conflict stored. So whoever has relay credit is proved by a vertex that is stored
(`relay_credit_run`).
-/

namespace KronMesh

open Word Outcome

/-! ## A mint -/

namespace Ledger

variable {l : Ledger} {a : Address} {c : ℕ}

/-- The relay credit of `a` is `c`. -/
abbrev Credits (a : Address) (c : ℕ) (l : Ledger) : Prop := l.relayCredits.get a = c

/-- A mint, whatever it returns, leaves the credit of who is not on its list. -/
theorem Credits.mintConfirmedTx (h : l.Credits a c) (fee : ℕ) (miner : Address)
    {relays : List Address} (ha : a ∉ relays) :
    (l.mintConfirmedTx fee miner relays).1.Credits a c := by
  have hb : KeepsBalance (Credits a c) := fun _ _ _ h _ => h
  have hr : KeepsRelayCredit relays (Credits a c) := by
    intro l x hx n h _
    have hne : a ≠ x := by
      rintro rfl
      exact ha hx
    exact (Tally.get_set_ne _ _ hne).trans h
  exact hb.mintConfirmedTx hr (fun _ _ h _ => h) (fun _ h _ => h) h fee miner

end Ledger

/-! ## What is stored proves who is paid -/

section Proven

variable {P : Primitives} {tx : DagTransaction} {a : Address}

/-- `tx` carries the proof of a key of address `a` that it relayed this vertex. -/
def DagTransaction.Proves (P : Primitives) (tx : DagTransaction) (a : Address) : Prop :=
  ∃ proof ∈ tx.relayProofs, proof.publicKey.address P = a
    ∧ proof.publicKey.verify P (relayProofMessage P tx.id proof.publicKey) proof.sig = true

theorem DagTransaction.proves_of_mem (h : a ∈ tx.provenRelayNodes P) : tx.Proves P a := by
  unfold provenRelayNodes at h
  split_ifs at h with hrel
  · obtain ⟨proof, hproof, rfl⟩ := List.mem_map.1
      ((mem_foldl_pushNew _ _).1 h |>.resolve_left List.not_mem_nil)
    obtain ⟨haddr, -, hver⟩ := (verifyRelayProofs_iff.1 hrel).2 proof hproof
    exact ⟨proof, hproof, haddr, hver⟩
  · cases h

/-- Some stored vertex, no genesis, proves that `a` relayed it. -/
def Graph.Proves (P : Primitives) (g : Graph) (a : Address) : Prop :=
  ∃ id tx, g.vertices.lookup id = some tx ∧ tx.isGenesis = false ∧ tx.Proves P a

/-- Who has relay credit in `l` is proved in `g`. -/
def Ledger.PaysProven (P : Primitives) (g : Graph) (l : Ledger) : Prop :=
  ∀ a, 0 < l.relayCredits.get a → g.Proves P a

theorem Graph.Proves.insertVertex {g : Graph} (h : g.Proves P a)
    (hcheck : g.checkVertex P tx = .ok ()) : (g.insertVertex tx).Proves P a := by
  obtain ⟨id, y, hl, hgen, hy⟩ := h
  exact ⟨id, y, lookup_insertVertex_of_lookup hcheck hl, hgen, hy⟩

theorem Ledger.PaysProven.mint {g : Graph} {l : Ledger} (h : l.PaysProven P g) {id : TxHash}
    (hl : g.vertices.lookup id = some tx) (hgen : tx.isGenesis = false) (fee : ℕ)
    (miner : Address) :
    (l.mintConfirmedTx fee miner (tx.provenRelayNodes P)).1.PaysProven P g := by
  intro a ha
  by_cases hmem : a ∈ tx.provenRelayNodes P
  · exact ⟨id, tx, hl, hgen, DagTransaction.proves_of_mem hmem⟩
  · have heq : Ledger.Credits a (l.relayCredits.get a) _ :=
      Ledger.Credits.mintConfirmedTx rfl fee miner hmem
    rw [heq] at ha
    exact h a ha

theorem Ledger.PaysProven.applyLedgerEffects {g : Graph} {l : Ledger} (h : l.PaysProven P g)
    {id : TxHash} (hl : g.vertices.lookup id = some tx) (hgen : tx.isGenesis = false) :
    (l.applyLedgerEffects P tx).1.PaysProven P g := by
  unfold Ledger.applyLedgerEffects
  rcases l.checkSpend tx with e | new
  · exact h
  · simp only [mapErr_fst]
    exact mint (l := l.moveSpend tx new) h hl hgen _ _

/-- A rebuild pays what the stored vertices prove, also one that ends in an error. -/
theorem paysProven_replayLoop (g : Graph) (extra order : List TxHash) {l : Ledger}
    (h : l.PaysProven P g) : (replayLoop P g.vertices g.winnerOf l extra order).1.PaysProven P g :=
  replayLoop_invariant (P := P) (fun _ l => l.PaysProven P g) (fun _ _ h => h)
    (fun _ _ _ _ hr h =>
      have ⟨_, hl, hgen⟩ := Graph.replayedAt_eq_some.1 hr
      h.applyLedgerEffects hl hgen) order 0 l extra h

end Proven

/-! ## Runs -/

section Runs

variable {P : Primitives} {d d' : KronDAG} {tx : DagTransaction}

def KronDAG.PaysProven (P : Primitives) (d : KronDAG) : Prop := d.toLedger.PaysProven P d.toGraph

theorem KronDAG.PaysProven.step (h : d.PaysProven P) (hs : Step P d d') : d'.PaysProven P := by
  cases hs with
  | attach tx new hcheck hspend =>
    have hl : (d.toGraph.insertVertex tx).vertices.lookup tx.id = some tx := by
      rw [Graph.lookup_insertVertex, if_pos rfl]
    have hg : (d.moveSpend tx new).PaysProven P (d.toGraph.insertVertex tx) := fun a ha =>
      (h a ha).insertVertex hcheck
    unfold KronDAG.attached KronDAG.onLedger KronDAG.PaysProven
    simp only [mapErr_fst]
    split_ifs with hgen
    · exact hg.mint hl hgen _ _
    · exact hg
  | store tx relayOf hcheck => exact fun a ha => (h a ha).insertVertex hcheck
  | rebuild =>
    unfold KronDAG.PaysProven
    rw [KronDAG.resolve_toLedger, (KronDAG.resolve_frame d).1]
    exact paysProven_replayLoop d.toGraph [] _ fun a ha => absurd ha (lt_irrefl 0)

/-- In every state of a run, whatever the calls were handed and returned, who has relay credit is
proved by a stored vertex. -/
theorem relay_credit_run (h : KronDAG.withGenesis P = some d) (ops : List Op) (a : Address)
    (hpos : 0 < (run P d ops).relayCredits.get a) :
    ∃ id tx, (run P d ops).vertices.lookup id = some tx ∧ tx.isGenesis = false
      ∧ ∃ proof ∈ tx.relayProofs, proof.publicKey.address P = a
        ∧ proof.publicKey.verify P (relayProofMessage P tx.id proof.publicKey) proof.sig
          = true := by
  refine run_invariant (P := P) (fun d => d.PaysProven P) (fun d a n hd => ?_)
    (fun _ _ hs hd => hd.step hs) ops ?_ a hpos
  · unfold KronDAG.creditAccount
    split_ifs <;> exact hd
  · obtain ⟨g, -, -, -, rfl⟩ := withGenesis_eq h
    exact fun a ha => absurd ha (lt_irrefl 0)

open StandIn

/-- A transfer that comes with the proof of one carrier. -/
def carriedOps : List Op := [.credit (address 1) 1000000, .accept (carried firstTransfer 3)]

theorem checkVertex_carried :
    (fundedDag 1 1000000).checkVertex primitives (carried firstTransfer 3) = .ok () := by
  have hsigned : firstTransfer.verifySignature primitives = true := verify_signed ..
  obtain ⟨hsig, hrel⟩ := verify_carried hsigned 3
  exact Graph.checkVertex_of (by decide) (by decide) (by decide) hsig hrel

theorem checkSpend_carried :
    (fundedDag 1 1000000).checkSpend (carried firstTransfer 3) = .ok (998000, 1000) := by
  decide

theorem provenRelayNodes_carried :
    (carried firstTransfer 3).provenRelayNodes primitives = [address 3] := by
  have hsigned : firstTransfer.verifySignature primitives = true := verify_signed ..
  rw [DagTransaction.provenRelayNodes, if_pos (verify_carried hsigned 3).2]
  rfl

theorem run_carriedOps : run primitives genesisDag carriedOps
    = ((fundedDag 1 1000000).attached (carried firstTransfer 3) (998000, 1000) [address 3]).1 := by
  have h := accept_admitted checkVertex_carried
  rw [checkSpend_carried, provenRelayNodes_carried] at h
  rw [carriedOps, run_cons, exec_credit, run_cons, exec_accept, run_nil]
  exact congrArg Prod.fst h

theorem relayCredit_carriedOps :
    0 < (run primitives genesisDag carriedOps).relayCredits.get (address 3) := by
  rw [run_carriedOps]
  decide

theorem relay_credit_run_carriedOps : ∃ id tx,
    (run primitives genesisDag carriedOps).vertices.lookup id = some tx ∧ tx.isGenesis = false
      ∧ ∃ proof ∈ tx.relayProofs, proof.publicKey.address primitives = address 3
        ∧ proof.publicKey.verify primitives
          (relayProofMessage primitives tx.id proof.publicKey) proof.sig = true :=
  relay_credit_run withGenesis_genesisDag carriedOps (address 3) relayCredit_carriedOps

end Runs

end KronMesh
