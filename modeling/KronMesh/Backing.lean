import KronMesh.Conservation
import KronMesh.Range

/-!
# The balances are backed

A relay whose credits leave their word fails a mint half way, with some of the pool paid out and
nothing counted. By then the schedule has long granted its last unit, so that what such a mint pays
out is no more than the fee it was given. Hence the balances never exceed the faucet and the supply,
however many vertices there are and whatever fails (`backed_run`).
-/

namespace KronMesh

open Word Outcome

namespace Ledger

variable {P : Primitives} {l l' : Ledger} {tx : DagTransaction} {F n : ℕ}

/-! ## A mint that may fail -/

theorem total_creditChecked_le (l : Ledger) (a : Address) (n : ℕ) :
    (l.creditChecked a n).1.total ≤ l.total + n := by
  rcases hr : l.creditChecked a n with ⟨l', e | ⟨⟨⟩⟩⟩
  · unfold creditChecked at hr
    split_ifs at hr
    · cases hr
    · rcases hs : checkedAdd (l.balance a) n with _ | sum
      · rw [hs] at hr
        cases hr
        exact Nat.le_add_right _ _
      · rw [hs] at hr
        cases hr
  · exact (total_creditChecked hr).le

theorem total_creditRelay (l : Ledger) (a : Address) (n : ℕ) :
    (l.creditRelay a n).1.total = l.total := by
  unfold creditRelay
  rcases checkedAdd (l.relayCredits.get a) n with _ | sum <;> rfl

theorem total_payRelays_le : ∀ (payouts : List (Address × ℕ)) (l : Ledger),
    (l.payRelays payouts).1.total ≤ l.total + (payouts.map Prod.snd).sum
  | [], _ => Nat.le_refl _
  | p :: payouts, l => by
    have h₁ := total_creditChecked_le l p.1 p.2
    rw [List.map_cons, List.sum_cons]
    unfold payRelays
    refine andThen_fst (fun l' : Ledger => l'.total ≤ l.total + _) (by omega) fun l₁ e₁ => ?_
    rw [e₁] at h₁
    have h₂ := total_creditRelay l₁ p.1 p.2
    simp only [] at h₁
    refine andThen_fst (fun l' : Ledger => l'.total ≤ l.total + _) (by omega) fun l₂ e₂ => ?_
    rw [e₂] at h₂
    have h₃ := total_payRelays_le payouts l₂
    simp only [] at h₂ ⊢
    omega

/-- What a mint from a pool of `pool` may have made of `l` where it stops. -/
structure Minted (l : Ledger) (pool : ℕ) (l' : Ledger) : Prop where
  total : l'.total ≤ l.total + pool
  supply : l.currentSupply ≤ l'.currentSupply
  count : l.dagTxCount ≤ l'.dagTxCount
  count_le : l'.dagTxCount ≤ l.dagTxCount + 1

/-- As long as the counters stand still. -/
theorem SameCounters.minted {pool : ℕ} (h : l.SameCounters l') (ht : l'.total ≤ l.total + pool) :
    l.Minted pool l' :=
  ⟨ht, h.1.ge, h.2.ge, h.2.le.trans (Nat.le_succ _)⟩

/-- Whatever a mint returns, it has paid no more than its pool, and moved no counter back nor by
more than one vertex. -/
theorem mintConfirmedTx_minted (l : Ledger) (fee : ℕ) (miner : Address) (relays : List Address) :
    l.Minted (l.book.subsidy + fee) (l.mintConfirmedTx fee miner relays).1 := by
  unfold mintConfirmedTx
  simp only []
  change l.Minted (getCurrentTxSubsidy l.dagTxCount l.currentSupply + fee) _
  generalize getCurrentTxSubsidy l.dagTxCount l.currentSupply = subsidy
  rcases hp : checkedAdd subsidy fee with _ | pool
  · exact SameCounters.minted ⟨rfl, rfl⟩ (Nat.le_add_right _ _)
  obtain ⟨hle, rfl⟩ := checkedAdd_eq_some.1 hp
  have hsum := sum_splitPool relays hle
  simp only []
  generalize splitPool (subsidy + fee) relays = split at hsum ⊢
  have hc₁ := creditChecked_counters l miner split.1
  have ht₁ := total_creditChecked_le l miner split.1
  refine andThen_fst (l.Minted _) (hc₁.minted (by omega)) fun l₁ e₁ => ?_
  rw [e₁] at hc₁ ht₁
  have hc₂ := hc₁.trans (payRelays_counters split.2 l₁)
  have ht₂ := total_payRelays_le split.2 l₁
  simp only [] at ht₁
  refine andThen_fst (l.Minted _) (hc₂.minted (by omega)) fun l₂ e₂ => ?_
  rw [e₂] at hc₂ ht₂
  have ht : l₂.total ≤ l.total + (subsidy + fee) := by
    simp only [] at ht₂
    omega
  unfold addSupply
  rcases hadd : checkedAdd l₂.currentSupply subsidy with _ | sum
  · exact hc₂.minted ht
  obtain ⟨-, rfl⟩ := checkedAdd_eq_some.1 hadd
  have hsup : l.currentSupply ≤ l₂.currentSupply + subsidy := hc₂.1.ge.trans (Nat.le_add_right _ _)
  simp only [andThen_ok]
  unfold countTx
  simp only []
  rcases hcnt : checkedAdd l₂.dagTxCount 1 with _ | count
  · exact ⟨ht, hsup, hc₂.2.ge, hc₂.2.le.trans (Nat.le_succ _)⟩
  · obtain ⟨-, rfl⟩ := checkedAdd_eq_some.1 hcnt
    exact ⟨ht, hsup, hc₂.2.ge.trans (Nat.le_succ _), (Nat.succ_le_succ hc₂.2.le)⟩

/-! ## The invariant -/

/-- The balances do not exceed the faucet `F` and the supply, the supply is on schedule, and until
the schedule ends the relays were credited no more than was paid out. At most `n` vertices are
confirmed. -/
structure Backed (F n : ℕ) (l : Ledger) : Prop where
  total : l.total ≤ F + l.currentSupply
  schedule : l.OnSchedule
  relays : l.dagTxCount < scheduleEnd →
    l.relayTotal ≤ l.currentSupply + fixedTransactionFee * l.dagTxCount
  count : l.dagTxCount ≤ n

theorem Backed.mono {m : ℕ} (h : l.Backed F n) (hm : n ≤ m) : l.Backed F m :=
  ⟨h.total, h.schedule, h.relays, h.count.trans hm⟩

theorem Backed.supply_le (h : l.Backed F n) : l.currentSupply + l.book.subsidy ≤ hardCap :=
  add_getCurrentTxSubsidy_le (h.schedule.le.trans (emitted_le _))

/-- The mint of a checked spend keeps the balances backed, whatever it returns. -/
theorem Backed.mint (h : l.Backed F n) (hF : F + hardCap ≤ u64Max)
    (hfee : tx.fee.toNat = fixedTransactionFee) {new : ℕ × ℕ} (hs : l.checkSpend tx = .ok new)
    (relays : List Address) :
    ((l.moveSpend tx new).mintConfirmedTx tx.fee.toNat tx.sender relays).1.Backed F (n + 1) := by
  have hsup := h.supply_le
  obtain ⟨htot, hsch, hrel, hcount⟩ := h
  have hsch' := onSchedule_mintConfirmedTx (l := l.moveSpend tx new) hsch tx.fee.toNat tx.sender
    relays
  rcases Nat.lt_or_ge l.dagTxCount scheduleEnd with hearly | hlate
  · -- so early there is room for every carrier, and the mint goes through
    have hend : scheduleEnd = 8073216000 := by decide
    have hcap := hardCap_eq
    have hfix : ∀ k, fixedTransactionFee * k = 1000 * k := fun k => rfl
    have hfee : tx.fee.toNat = 1000 := hfee
    have hu : u64Max = 18446744073709551615 := by decide
    have hrel := hrel hearly
    rw [hfix] at hrel
    obtain ⟨l', h', ht', hr', hs', hc'⟩ := mint_moveSpend hs relays (by omega) (by omega)
      (by omega) (by omega)
    rw [h'] at hsch' ⊢
    change l'.Backed F (n + 1)
    exact ⟨by omega, hsch', fun _ => by rw [hfix]; omega, by omega⟩
  · -- with the schedule at its end there is nothing but the fee to pay out
    have hmove := total_moveSpend hs
    obtain ⟨ht', hs', hc', hc''⟩ :=
      mintConfirmedTx_minted (l.moveSpend tx new) tx.fee.toNat tx.sender relays
    have hzero : (l.moveSpend tx new).book.subsidy = 0 := subsidy_of_scheduleEnd hlate
    have hsup₀ : (l.moveSpend tx new).currentSupply = l.currentSupply := rfl
    have hcnt₀ : (l.moveSpend tx new).dagTxCount = l.dagTxCount := rfl
    exact ⟨by omega, hsch', fun hlt => absurd hlt (by omega), by omega⟩

theorem Backed.apply (h : l.Backed F n) (hF : F + hardCap ≤ u64Max)
    (hfee : tx.fee.toNat = fixedTransactionFee) :
    (l.applyLedgerEffects P tx).1.Backed F (n + 1) := by
  unfold applyLedgerEffects
  rcases hs : l.checkSpend tx with e | new
  · exact h.mono (Nat.le_succ n)
  · simp only [mapErr_fst]
    exact h.mint hF hfee hs _

/-- In a backed ledger a spend that is due and covered is checked. -/
theorem Backed.checkSpend_isOk (h : l.Backed F n) (hF : F + hardCap ≤ u64Max)
    (hcov : l.book.Covers tx) : ∃ new, l.checkSpend tx = .ok new := by
  have hsup := h.supply_le
  have htot := h.total
  have hle : tx.amount.toNat + tx.fee.toNat ≤ l.balance tx.sender := hcov.2
  have hbt := l.balance_le_total tx.sender
  rcases checkSpend_cases l tx with ⟨hn, -⟩ | ⟨-, hc, -⟩ | ⟨-, -, hc, -⟩ | ⟨-, -, hne, hlt, -⟩ |
    ⟨-, -, new, hnew, -⟩
  · exact absurd hcov.1 hn
  · unfold DagTransaction.cost at hc
    omega
  · exact absurd hcov.2 (not_le.2 hc)
  · have h2 := Tally.get_add_get_le_total l.balances hne
    unfold Ledger.total balance at *
    omega
  · exact ⟨new, hnew⟩

/-- In a backed ledger the mint of a spend without carriers goes through. -/
theorem Backed.mint_isOk (h : l.Backed F n) (hF : F + hardCap ≤ u64Max) (hrange : l.InRange)
    (hn : l.dagTxCount + 1 ≤ u64Max) {new : ℕ × ℕ} (hs : l.checkSpend tx = .ok new) :
    ∃ l', (l.moveSpend tx new).mintConfirmedTx tx.fee.toNat tx.sender [] = (l', .ok ()) := by
  have hsup := h.supply_le
  have htot := h.total
  have hmove := total_moveSpend hs
  have hsub : (l.moveSpend tx new).book.subsidy = l.book.subsidy := rfl
  exact mintConfirmedTx_isOk (l := l.moveSpend tx new) tx.fee.toNat tx.sender []
    (by omega) (fun a => hrange.relayCredit a) (by change l.currentSupply + _ ≤ _; omega) hn

end Ledger

namespace KronDAG

variable {P : Primitives} {d d' : KronDAG}

/-- A backed ledger over a well-formed graph. -/
structure Backed (d : KronDAG) : Prop where
  graph : d.toGraph.WF
  ledger : d.toLedger.Backed d.faucetTotal d.vertexCount

theorem backed_credit (d : KronDAG) (a : Address) (n : ℕ)
    (hF : (d.creditAccount a n).faucetTotal + hardCap ≤ u64Max) (h : d.Backed) :
    (d.creditAccount a n).Backed := by
  have hfau := faucetTotal_credit_eq d a n hF
  obtain ⟨hg, htot, hsch, hrel, hcount⟩ := h
  refine ⟨?_, ?_, onSchedule_credit hsch a n, ?_, ?_⟩
  · rw [(d.creditAccount_frame a n).1]
    exact hg
  · rw [hfau]
    unfold creditAccount
    split_ifs with h0
    · exact htot.trans (by omega)
    · have ht := Tally.total_set d.balances a (saturatingAdd (d.balance a) n)
      have hsat : saturatingAdd (d.balance a) n ≤ d.balance a + n := min_le_left _ _
      unfold Ledger.total Ledger.balance at *
      simp only []
      omega
  · unfold creditAccount
    split_ifs <;> exact hrel
  · rw [vertexCount_credit]
    unfold creditAccount
    split_ifs <;> exact hcount

/-- A replay keeps the balances backed at every place, also where it ends in an error. -/
theorem backed_replayLoop (hd : d.toGraph.WF) (hF : d.faucetTotal + hardCap ≤ u64Max) :
    (replayLoop P d.vertices d.winnerOf d.baseline [] d.attachOrder).1.Backed d.faucetTotal
      d.vertexCount := by
  have hlen : d.attachOrder.length = d.vertexCount := hd.length
  have h0 : d.baseline.Backed d.faucetTotal 0 :=
    ⟨Nat.le_refl _, emitted_zero.symm, fun _ => Nat.zero_le _, Nat.le_refl 0⟩
  have hloop := replayLoop_invariant (P := P) (g := d.toGraph)
    (fun k l => l.Backed d.faucetTotal k) (fun k l h => h.mono (Nat.le_succ k))
    (fun k id tx l hr h => h.apply hF (fee_replayedAt hd hr)) d.attachOrder 0 d.baseline [] h0
  rwa [Nat.zero_add, hlen] at hloop

theorem backed_step (h : Step P d d') (hF : d'.faucetTotal + hardCap ≤ u64Max) (hd : d.Backed) :
    d'.Backed := by
  have hg := step_graphWF hd.graph h
  have hfau : d'.faucetTotal = d.faucetTotal := congrArg Tally.total (faucet_step h)
  refine ⟨hg, ?_⟩
  rw [hfau] at hF ⊢
  cases h with
  | attach tx new ha hs =>
    have hgen := hd.graph.not_isGenesis ha
    have hfee := (Graph.checkVertex_ok ha).2.2.1.trans (DagTransaction.requiredFee_of hgen)
    rw [vertexCount_attached ha]
    unfold attached onLedger
    simp only [hgen, if_true, mapErr_fst]
    exact hd.ledger.mint hF hfee hs _
  | store tx relayOf ha => exact hd.ledger.mono (vertexCount_step (.store d tx relayOf ha))
  | rebuild =>
    rw [vertexCount_resolve, d.resolve_toLedger]
    exact backed_replayLoop hd.graph hF

end KronDAG

/-- Whatever a node is handed, its balances are backed as long as the faucet leaves room for the
cap. -/
theorem backed_run {P : Primitives} {d : KronDAG} (h : KronDAG.withGenesis P = some d)
    (ops : List Op) (hF : (run P d ops).faucetTotal + hardCap ≤ u64Max) :
    (run P d ops).Backed := by
  have h0 : d.Backed := by
    have hs := sound_withGenesis h
    exact ⟨hs.graph, hs.ledger.total.le, hs.ledger.schedule, fun _ => hs.ledger.relays,
      hs.ledger.count⟩
  refine run_invariant_of (P := P) KronDAG.Backed (fun d => d.faucetTotal + hardCap ≤ u64Max)
    (fun d a n hF => ?_) (fun d d' hs hF => ?_) (fun d a n hF hd => ?_)
    (fun d d' hs hF hd => KronDAG.backed_step hs hF hd) ops h0 hF
  · have hfau := KronDAG.faucetTotal_credit_eq d a n.toNat hF
    omega
  · have hfau : d'.faucetTotal = d.faucetTotal := congrArg Tally.total (KronDAG.faucet_step hs)
    omega
  · exact KronDAG.backed_credit d a n.toNat hF hd

end KronMesh
