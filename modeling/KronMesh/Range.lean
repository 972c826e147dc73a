import KronMesh.Rebuild

/-!
# Every number is a word

The source keeps balances, nonces, credits and counters in words and adds to them with a check or
with saturation. The naturals that stand for them here never leave the range of a word, after any
call and whatever it returned.
-/

namespace KronMesh

open Word Outcome

namespace Ledger

variable {P : Primitives} {l : Ledger} {tx : DagTransaction}

structure InRange (l : Ledger) : Prop where
  balance : ∀ a, l.balances.get a ≤ u64Max
  nonce : ∀ a, l.nextNonce.get a ≤ u64Max
  relayCredit : ∀ a, l.relayCredits.get a ≤ u64Max
  supply : l.currentSupply ≤ u64Max
  count : l.dagTxCount ≤ u64Max

theorem InRange.mintConfirmedTx (h : l.InRange) (fee : ℕ) (miner : Address)
    (relays : List Address) : (l.mintConfirmedTx fee miner relays).1.InRange := by
  have hb : KeepsBalance InRange := fun l a n h hle =>
    ⟨Tally.get_set_le h.balance a hle, h.nonce, h.relayCredit, h.supply, h.count⟩
  have hr : KeepsRelayCredit relays InRange := fun l a _ n h hle =>
    ⟨h.balance, h.nonce, Tally.get_set_le h.relayCredit a hle, h.supply, h.count⟩
  refine hb.mintConfirmedTx hr (fun l n h hle => ?_) (fun l h hle => ?_) h fee miner
  · exact ⟨h.balance, h.nonce, h.relayCredit, hle, h.count⟩
  · exact ⟨h.balance, h.nonce, h.relayCredit, h.supply, hle⟩

theorem InRange.moveSpend (h : l.InRange) {new : ℕ × ℕ} (hs : l.checkSpend tx = .ok new) :
    (l.moveSpend tx new).InRange := by
  have hsender := h.balance tx.sender
  refine ⟨?_, Tally.get_set_le h.nonce _ (min_le_right _ _), h.relayCredit, h.supply, h.count⟩
  unfold Ledger.moveSpend
  simp only []
  obtain ⟨-, -, ⟨hself, hnew⟩ | ⟨hself, hle, rfl⟩⟩ := checkSpend_ok hs
  · rw [if_pos hself]
    refine Tally.get_set_le h.balance _ ?_
    rw [hnew]
    exact (Nat.sub_le _ _).trans hsender
  · rw [if_neg hself]
    exact Tally.get_set_le (Tally.get_set_le h.balance _ ((Nat.sub_le _ _).trans hsender)) _ hle

theorem InRange.applyLedgerEffects (h : l.InRange) : (l.applyLedgerEffects P tx).1.InRange := by
  unfold Ledger.applyLedgerEffects
  rcases hs : l.checkSpend tx with e | new
  · exact h
  · simp only [mapErr_fst]
    exact (h.moveSpend hs).mintConfirmedTx _ _ _

end Ledger

namespace KronDAG

variable {P : Primitives} {d d' : KronDAG}

structure InRange (d : KronDAG) : Prop where
  ledger : d.toLedger.InRange
  faucet : ∀ a, d.faucet.get a ≤ u64Max

theorem InRange.creditAccount (h : d.InRange) (a : Address) (n : ℕ) :
    (d.creditAccount a n).InRange := by
  unfold KronDAG.creditAccount
  split_ifs
  · exact h
  · obtain ⟨⟨hb, hn, hr, hs, hc⟩, hf⟩ := h
    exact ⟨⟨Tally.get_set_le hb a (min_le_right _ _), hn, hr, hs, hc⟩,
      Tally.get_set_le hf a (min_le_right _ _)⟩

theorem InRange.step (h : d.InRange) (hs : Step P d d') : d'.InRange := by
  cases hs with
  | attach tx new ha hs =>
    refine ⟨?_, ?_⟩
    · have hmove := h.ledger.moveSpend hs
      unfold attached onLedger
      simp only []
      split_ifs
      · simp only [mapErr_fst]
        exact hmove.mintConfirmedTx _ _ _
      · exact hmove
    · rw [(d.attached_frame tx new _).2.1]
      exact h.faucet
  | store tx relayOf ha => exact ⟨h.ledger, h.faucet⟩
  | rebuild =>
    refine ⟨?_, ?_⟩
    · rw [d.resolve_toLedger]
      exact replayLoop_invariant (P := P) (g := d.toGraph) (fun _ l => l.InRange)
        (fun _ _ h => h) (fun _ _ _ _ _ h => h.applyLedgerEffects) d.attachOrder 0 d.baseline []
        ⟨h.faucet, fun _ => Nat.zero_le _, fun _ => Nat.zero_le _, Nat.zero_le _, Nat.zero_le _⟩
    · rw [d.resolve_frame.2]
      exact h.faucet

end KronDAG

/-- Whatever a node is handed, no number it keeps leaves its word. -/
theorem inRange_run {P : Primitives} {d : KronDAG} (h : KronDAG.withGenesis P = some d)
    (ops : List Op) : (run P d ops).InRange := by
  have h0 : d.InRange := by
    obtain ⟨g, hg, -, -, rfl⟩ := withGenesis_eq h
    have hempty : Ledger.empty.InRange := by
      refine ⟨fun _ => ?_, fun _ => ?_, fun _ => ?_, ?_, ?_⟩ <;> exact Nat.zero_le _
    exact ⟨hempty.moveSpend (checkSpend_genesis (signedGenesisTx_ok hg).2), fun _ => Nat.zero_le _⟩
  exact run_invariant (P := P) KronDAG.InRange (fun _ a n h => h.creditAccount a n.toNat)
    (fun _ _ hs h => h.step hs) ops h0

end KronMesh
