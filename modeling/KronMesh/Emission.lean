import KronMesh.Rebuild
import KronMesh.StandInRun

/-!
# Emission along a run

The supply is a function of the number of confirmed vertices, `emitted`, after every call: a mint
that goes through takes the schedule's next step, one that fails has not moved the counters, and a
rebuild starts both from zero.
-/

namespace KronMesh

open Word Outcome

namespace Ledger

variable {P : Primitives} {l : Ledger} {tx : DagTransaction}

/-- The supply is what the schedule has emitted. -/
def OnSchedule (l : Ledger) : Prop := l.currentSupply = emitted l.dagTxCount

/-- The two counters are those of `l`. -/
def SameCounters (l l' : Ledger) : Prop :=
  l'.currentSupply = l.currentSupply ∧ l'.dagTxCount = l.dagTxCount

theorem SameCounters.trans {l₁ l₂ l₃ : Ledger} (h : l₁.SameCounters l₂) (h' : l₂.SameCounters l₃) :
    l₁.SameCounters l₃ :=
  ⟨h'.1.trans h.1, h'.2.trans h.2⟩

theorem keepsBalance_counters : KeepsBalance l.SameCounters := fun _ _ _ h _ => h

theorem creditChecked_counters (l : Ledger) (a : Address) (n : ℕ) :
    l.SameCounters (l.creditChecked a n).1 :=
  keepsBalance_counters.creditChecked ⟨rfl, rfl⟩ a n

theorem payRelays_counters (payouts : List (Address × ℕ)) (l : Ledger) :
    l.SameCounters (l.payRelays payouts).1 := by
  have hr : KeepsRelayCredit (payouts.map Prod.fst) l.SameCounters := fun _ _ _ _ h _ => h
  exact keepsBalance_counters.payRelays hr payouts (fun _ => List.mem_map_of_mem) ⟨rfl, rfl⟩

/-- A mint keeps to the schedule, whatever it returns. -/
theorem onSchedule_mintConfirmedTx (h : l.OnSchedule) (fee : ℕ) (miner : Address)
    (relays : List Address) : (l.mintConfirmedTx fee miner relays).1.OnSchedule := by
  have hsame : ∀ {l'}, l.SameCounters l' → l'.OnSchedule := by
    intro l' hs
    unfold OnSchedule
    rw [hs.1, hs.2]
    exact h
  unfold mintConfirmedTx
  simp only []
  rcases checkedAdd (getCurrentTxSubsidy l.dagTxCount l.currentSupply) fee with _ | pool
  · exact h
  · simp only []
    have h₁ := creditChecked_counters l miner (splitPool pool relays).1
    refine andThen_fst OnSchedule (hsame h₁) fun l₁ e₁ => ?_
    rw [e₁] at h₁
    have h₂ := payRelays_counters (splitPool pool relays).2 l₁
    refine andThen_fst OnSchedule (hsame (h₁.trans h₂)) fun l₂ e₂ => ?_
    rw [e₂] at h₂
    have hs := h₁.trans h₂
    -- the supply moves first; a counter at its end leaves no subsidy to have moved it by
    unfold addSupply
    rcases hadd : checkedAdd l₂.currentSupply (getCurrentTxSubsidy l.dagTxCount l.currentSupply)
      with _ | sum
    · exact hsame hs
    · obtain ⟨-, rfl⟩ := checkedAdd_eq_some.1 hadd
      simp only [andThen_ok]
      unfold countTx
      simp only []
      unfold OnSchedule at h ⊢
      rcases hc : checkedAdd l₂.dagTxCount 1 with _ | count
      · rw [checkedAdd_eq_none, hs.2] at hc
        simp only []
        have hend : scheduleEnd ≤ l.dagTxCount := by
          have hle : scheduleEnd ≤ u64Max := by decide
          omega
        rw [hs.1, hs.2, subsidy_of_scheduleEnd hend, Nat.add_zero]
        exact h
      · obtain ⟨-, rfl⟩ := checkedAdd_eq_some.1 hc
        simp only []
        rw [hs.1, hs.2, h]
        exact subsidy_emitted _

theorem onSchedule_applyLedgerEffects (h : l.OnSchedule) :
    (l.applyLedgerEffects P tx).1.OnSchedule := by
  unfold applyLedgerEffects
  rcases l.checkSpend tx with e | new
  · exact h
  · simp only []
    rw [mapErr_fst]
    exact onSchedule_mintConfirmedTx (l := l.moveSpend tx new) h _ _ _

end Ledger

section Run

variable {P : Primitives} {d d' : KronDAG}

theorem onSchedule_credit (h : d.toLedger.OnSchedule) (a : Address) (n : ℕ) :
    (d.creditAccount a n).toLedger.OnSchedule := by
  unfold KronDAG.creditAccount
  split_ifs <;> exact h

theorem onSchedule_step (hs : Step P d d') (h : d.toLedger.OnSchedule) :
    d'.toLedger.OnSchedule := by
  cases hs with
  | attach tx new ha hs =>
    unfold KronDAG.attached KronDAG.onLedger
    simp only []
    split_ifs
    · simp only [mapErr_fst]
      exact Ledger.onSchedule_mintConfirmedTx (l := d.toLedger.moveSpend tx new) h _ _ _
    · exact h
  | store tx relayOf ha => exact h
  | rebuild =>
    rw [d.resolve_toLedger]
    exact replayLoop_invariant (P := P) (g := d.toGraph)
      (fun _ l => l.OnSchedule) (fun _ _ h => h)
      (fun _ _ _ _ _ h => Ledger.onSchedule_applyLedgerEffects h)
      d.attachOrder 0 d.baseline [] emitted_zero.symm

/-- After any run the supply is the schedule's sum over the confirmed vertices, cut at the cap. -/
theorem supply_run (h : KronDAG.withGenesis P = some d) (ops : List Op) :
    (run P d ops).currentSupply
        = min hardCap (∑ i ∈ Finset.range (run P d ops).dagTxCount, scheduled i)
      ∧ (run P d ops).currentSupply ≤ hardCap := by
  have h0 : d.toLedger.OnSchedule := by
    obtain ⟨g, -, -, -, rfl⟩ := withGenesis_eq h
    exact emitted_zero.symm
  have hrun := run_invariant (P := P) (fun d => d.toLedger.OnSchedule)
    (fun _ a n h => onSchedule_credit h a n.toNat) (fun _ _ hs h => onSchedule_step hs h) ops h0
  exact ⟨hrun, hrun.le.trans (emitted_le _)⟩

end Run

open StandIn in
theorem supply_run_firstOps :
    (run primitives genesisDag firstOps).currentSupply
        = min hardCap (∑ i ∈ Finset.range (run primitives genesisDag firstOps).dagTxCount,
          scheduled i)
      ∧ (run primitives genesisDag firstOps).currentSupply ≤ hardCap :=
  supply_run withGenesis_genesisDag firstOps

end KronMesh
