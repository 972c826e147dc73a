import KronMesh.Book

/-!
# Where the units go

A mint pays out its pool to the unit (`sum_splitPool`), so a vertex that is taken moves the sum of
all balances by the subsidy alone (`total_applyLedgerEffects`). As long as that sum, the relay
credits and the counters stay within a word, a vertex that is due and covered is taken
(`applyLedgerEffects_isOk`).
-/

namespace KronMesh

open Word Outcome

/-- The relays behind the first share equally. -/
theorem sum_later_payouts (each dust : ℕ) (h : each ≤ u64Max) : ∀ (l : List Address) (k : ℕ),
    ((((l.zipIdx (k + 1)).map fun p => (p.1, saturatingAdd each (if p.2 = 0 then dust else 0)))).map
      Prod.snd).sum = l.length * each
  | [], k => by simp
  | x :: l, k => by
    have ih := sum_later_payouts each dust h l (k + 1)
    rw [List.zipIdx_cons, List.map_cons, List.map_cons, List.sum_cons, ih, if_neg (by simp),
      saturatingAdd_of_le (by omega), List.length_cons, Nat.succ_mul]
    omega

/-- The shares and the dust make up the relays' rest. -/
theorem sum_relayPayouts {r : ℕ} {relays : List Address} (h : relays ≠ []) (hr : r ≤ u64Max) :
    ((relayPayouts r relays).map Prod.snd).sum = r := by
  rcases relays with _ | ⟨a, relays⟩
  · exact absurd rfl h
  have hdiv := Nat.div_add_mod r (a :: relays).length
  have heach := Nat.div_le_self r (a :: relays).length
  unfold relayPayouts
  rw [List.length_cons] at *
  generalize r / (relays.length + 1) = each at *
  generalize r % (relays.length + 1) = dust at *
  have hrest := sum_later_payouts each dust (by omega) relays 0
  rw [Nat.succ_mul] at hdiv
  rw [List.zipIdx_cons, List.map_cons, List.map_cons, List.sum_cons, hrest, if_pos rfl,
    saturatingAdd_of_le (by omega)]
  omega

theorem sum_splitPool {pool : ℕ} (relays : List Address) (h : pool ≤ u64Max) :
    (splitPool pool relays).1 + ((splitPool pool relays).2.map Prod.snd).sum = pool := by
  have hm := dagMinerShareOf_le pool
  unfold splitPool
  simp only []
  split_ifs with he
  · simp only [List.map_nil, List.sum_nil]
    rw [saturatingAdd_of_le (by omega)]
    omega
  · rw [sum_relayPayouts (by simpa using he) (by omega)]
    omega

namespace Ledger

variable {P : Primitives} {l l' : Ledger} {tx : DagTransaction}

/-- The sum of all balances. -/
def total (l : Ledger) : ℕ := Tally.total l.balances

/-- The sum of all relay credits. -/
def relayTotal (l : Ledger) : ℕ := Tally.total l.relayCredits

theorem balance_le_total (l : Ledger) (a : Address) : l.balance a ≤ l.total :=
  Tally.get_le_total _ _

theorem total_creditChecked {a : Address} {n : ℕ} (h : l.creditChecked a n = (l', .ok ())) :
    l'.total = l.total + n := by
  rcases creditChecked_ok.1 h with ⟨rfl, rfl⟩ | ⟨-, -, rfl⟩
  · rfl
  · have ht := Tally.total_set l.balances a (l.balance a + n)
    change Tally.total (l.balances.set a (l.balance a + n)) = _
    unfold total balance at *
    omega

theorem total_payRelays : ∀ (payouts : List (Address × ℕ)) {l l' : Ledger},
    l.payRelays payouts = (l', .ok ()) →
      l'.total = l.total + (payouts.map Prod.snd).sum
        ∧ l'.relayTotal = l.relayTotal + (payouts.map Prod.snd).sum
  | [], l, l', h => by
    simp only [payRelays, Prod.mk.injEq, and_true] at h
    subst h
    exact ⟨rfl, rfl⟩
  | p :: payouts, l, l', h => by
    obtain ⟨l₁, h₁, h⟩ := andThen_eq_ok.1 h
    obtain ⟨l₂, h₂, h⟩ := andThen_eq_ok.1 h
    have ht₁ := total_creditChecked h₁
    have hr₁ : l₁.relayCredits = l.relayCredits := by
      rcases creditChecked_ok.1 h₁ with ⟨-, rfl⟩ | ⟨-, -, rfl⟩ <;> rfl
    obtain ⟨-, rfl⟩ := creditRelay_ok.1 h₂
    obtain ⟨ht, hr⟩ := total_payRelays payouts h
    have hset := Tally.total_set l₁.relayCredits p.1 (l₁.relayCredits.get p.1 + p.2)
    rw [List.map_cons, List.sum_cons]
    unfold total relayTotal at *
    rw [hr₁] at *
    simp only [] at ht hr
    omega

/-- A mint adds its pool to the balances; of it the relays' part is credited to them too. -/
theorem total_mintConfirmedTx {fee : ℕ} {miner : Address} {relays : List Address}
    (h : l.mintConfirmedTx fee miner relays = (l', .ok ())) :
    l'.total = l.total + (l.book.subsidy + fee)
      ∧ l'.relayTotal ≤ l.relayTotal + (l.book.subsidy + fee) := by
  obtain ⟨hle, l₁, l₂, h₁, h₂, -, -, rfl⟩ := mintConfirmedTx_eq_ok.1 h
  have ht₁ := total_creditChecked h₁
  have hr₁ : l₁.relayTotal = l.relayTotal := by
    rcases creditChecked_ok.1 h₁ with ⟨-, rfl⟩ | ⟨-, -, rfl⟩ <;> rfl
  obtain ⟨ht₂, hr₂⟩ := total_payRelays _ h₂
  have hsum := sum_splitPool relays hle
  change l₂.total = _ ∧ l₂.relayTotal ≤ _
  omega

/-- The fee leaves the balances with the spend; the amount stays among them. -/
theorem total_moveSpend {new : ℕ × ℕ} (h : l.checkSpend tx = .ok new) :
    (l.moveSpend tx new).total + tx.fee.toNat = l.total := by
  obtain ⟨⟨-, hle⟩, -, hnew⟩ := checkSpend_ok h
  have hle : tx.amount.toNat + tx.fee.toNat ≤ l.balances.get tx.sender := hle
  have hset := Tally.total_set l.balances tx.sender new.1
  unfold total moveSpend
  simp only []
  rcases hnew with ⟨hs, hnew⟩ | ⟨hs, -, rfl⟩
  · unfold balance at hnew
    rw [if_pos hs]
    omega
  · rw [if_neg hs]
    have hset' := Tally.total_set (l.balances.set tx.sender (l.balance tx.sender - tx.cost))
      tx.recipient (l.balance tx.recipient + tx.amount.toNat)
    rw [Tally.get_set_ne _ _ (Ne.symm hs)] at hset'
    unfold balance DagTransaction.cost at *
    simp only [] at hset ⊢
    omega

/-- A vertex that is taken adds the subsidy to the balances and no more than its pool to the relay
credits. -/
theorem total_applyLedgerEffects (h : l.applyLedgerEffects P tx = (l', .ok ())) :
    l'.total = l.total + l.book.subsidy
      ∧ l'.relayTotal ≤ l.relayTotal + (l.book.subsidy + tx.fee.toNat) := by
  unfold applyLedgerEffects at h
  rcases hc : l.checkSpend tx with e | new
  · rw [hc] at h
    cases h
  · rw [hc] at h
    have hm := total_mintConfirmedTx (mapErr_eq_ok.1 h)
    have hsub : (l.moveSpend tx new).book.subsidy = l.book.subsidy := rfl
    have hrel : (l.moveSpend tx new).relayTotal = l.relayTotal := rfl
    have hmove := total_moveSpend hc
    rw [hsub, hrel] at hm
    omega

/-! ## Within a word -/

theorem payRelays_isOk : ∀ (payouts : List (Address × ℕ)) {l : Ledger},
    (∀ a, l.balance a + payout payouts a ≤ u64Max) →
    (∀ a, l.relayCredits.get a + payout payouts a ≤ u64Max) →
      ∃ l', l.payRelays payouts = (l', .ok ())
  | [], l, _, _ => ⟨l, rfl⟩
  | p :: payouts, l, hb, hr => by
    have hb1 := hb p.1
    have hr1 := hr p.1
    rw [payout_cons, if_pos rfl] at hb1 hr1
    obtain ⟨l₁, h₁⟩ : ∃ l₁, l.creditChecked p.1 p.2 = (l₁, .ok ()) := by
      by_cases h0 : p.2 = 0
      · exact ⟨l, creditChecked_ok.2 (.inl ⟨h0, rfl⟩)⟩
      · exact ⟨_, creditChecked_ok.2 (.inr ⟨h0, by omega, rfl⟩)⟩
    have e₁ := book_creditChecked h₁
    have er : l₁.relayCredits.get = l.relayCredits.get := congrArg Book.relayCredit e₁
    obtain ⟨l₂, h₂⟩ : ∃ l₂, l₁.creditRelay p.1 p.2 = (l₂, .ok ()) := by
      refine ⟨_, creditRelay_ok.2 ⟨?_, rfl⟩⟩
      rw [er]
      omega
    have e₂ := book_creditRelay h₂
    have hb₂ : ∀ a, l₂.balance a + payout payouts a ≤ u64Max := by
      intro a
      have hba : l₂.balance a = l.balance a + if a = p.1 then p.2 else 0 :=
        (congrFun (congrArg Book.balance e₂) a).trans (congrFun (congrArg Book.balance e₁) a)
      have := hb a
      rw [payout_cons] at this
      omega
    have hr₂ : ∀ a, l₂.relayCredits.get a + payout payouts a ≤ u64Max := by
      intro a
      have hra : l₂.relayCredits.get a = l.relayCredits.get a + if a = p.1 then p.2 else 0 := by
        rw [← er]
        exact congrFun (congrArg Book.relayCredit e₂) a
      have := hr a
      rw [payout_cons] at this
      omega
    obtain ⟨l', h'⟩ := payRelays_isOk payouts hb₂ hr₂
    refine ⟨l', ?_⟩
    rw [payRelays, h₁, andThen_ok, h₂, andThen_ok]
    exact h'

theorem mintConfirmedTx_isOk (fee : ℕ) (miner : Address) (relays : List Address)
    (ht : l.total + (l.book.subsidy + fee) ≤ u64Max)
    (hr : ∀ a, l.relayCredits.get a + payout (splitPool (l.book.subsidy + fee) relays).2 a
      ≤ u64Max)
    (hs : l.currentSupply + l.book.subsidy ≤ u64Max) (hc : l.dagTxCount + 1 ≤ u64Max) :
    ∃ l', l.mintConfirmedTx fee miner relays = (l', .ok ()) := by
  have hpool : l.book.subsidy + fee ≤ u64Max := by omega
  have hsum := sum_splitPool relays hpool
  set split := splitPool (l.book.subsidy + fee) relays with hsplit
  have hmb := l.balance_le_total miner
  obtain ⟨l₁, h₁⟩ : ∃ l₁, l.creditChecked miner split.1 = (l₁, .ok ()) := by
    by_cases h0 : split.1 = 0
    · exact ⟨l, creditChecked_ok.2 (.inl ⟨h0, rfl⟩)⟩
    · exact ⟨_, creditChecked_ok.2 (.inr ⟨h0, by omega, rfl⟩)⟩
  have e₁ := book_creditChecked h₁
  have t₁ := total_creditChecked h₁
  obtain ⟨l₂, h₂⟩ := payRelays_isOk split.2 (l := l₁)
    (fun a => by
      have h1 := payout_le_sum split.2 a
      have h2 := l₁.balance_le_total a
      omega)
    (fun a => by
      rw [show l₁.relayCredits.get = l.relayCredits.get from congrArg Book.relayCredit e₁]
      exact hr a)
  have e₂ := book_payRelays _ h₂
  rw [e₁] at e₂
  have hs₂ : l₂.currentSupply = l.currentSupply := congrArg Book.supply e₂
  have hc₂ : l₂.dagTxCount = l.dagTxCount := congrArg Book.count e₂
  exact ⟨_, mintConfirmedTx_eq_ok.2 ⟨hpool, l₁, l₂, h₁, h₂, hs₂ ▸ hs, hc₂ ▸ hc, rfl⟩⟩

/-- The mint of a checked spend goes through where there is room for what it pays, and leaves the
totals with that in them. -/
theorem mint_moveSpend {new : ℕ × ℕ} (h : l.checkSpend tx = .ok new) (relays : List Address)
    (ht : l.total + l.book.subsidy ≤ u64Max)
    (hr : l.relayTotal + (l.book.subsidy + tx.fee.toNat) ≤ u64Max)
    (hs : l.currentSupply + l.book.subsidy ≤ u64Max) (hc : l.dagTxCount + 1 ≤ u64Max) :
    ∃ l', (l.moveSpend tx new).mintConfirmedTx tx.fee.toNat tx.sender relays = (l', .ok ())
      ∧ l'.total = l.total + l.book.subsidy
      ∧ l'.relayTotal ≤ l.relayTotal + (l.book.subsidy + tx.fee.toNat)
      ∧ l'.currentSupply = l.currentSupply + l.book.subsidy
      ∧ l'.dagTxCount = l.dagTxCount + 1 := by
  have hmove := total_moveSpend h
  have hpool : l.book.subsidy + tx.fee.toNat ≤ u64Max := by omega
  obtain ⟨l', h'⟩ := mintConfirmedTx_isOk (l := l.moveSpend tx new) tx.fee.toNat tx.sender relays
    (by change (l.moveSpend tx new).total + (l.book.subsidy + tx.fee.toNat) ≤ u64Max; omega)
    (fun a => by
      have h1 : l.relayCredits.get a ≤ l.relayTotal := Tally.get_le_total l.relayCredits a
      have h2 := payout_le_sum (splitPool (l.book.subsidy + tx.fee.toNat) relays).2 a
      have h3 := sum_splitPool relays hpool
      change l.relayCredits.get a
        + payout (splitPool (l.book.subsidy + tx.fee.toNat) relays).2 a ≤ u64Max
      omega)
    hs hc
  obtain ⟨htotal, hrelays⟩ := total_mintConfirmedTx h'
  have hbook := book_mintConfirmedTx h'
  refine ⟨l', h', ?_, hrelays, congrArg Book.supply hbook, congrArg Book.count hbook⟩
  have htotal : l'.total = (l.moveSpend tx new).total + (l.book.subsidy + tx.fee.toNat) := htotal
  omega

/-- A vertex that is due and covered is taken as long as nothing leaves its word. -/
theorem applyLedgerEffects_isOk (hcov : l.book.Covers tx) (ht : l.total + l.book.subsidy ≤ u64Max)
    (hr : ∀ a, l.relayCredits.get a + payout (l.book.split P tx).2 a ≤ u64Max)
    (hs : l.currentSupply + l.book.subsidy ≤ u64Max) (hc : l.dagTxCount + 1 ≤ u64Max) :
    ∃ l', l.applyLedgerEffects P tx = (l', .ok ()) := by
  have hle : tx.amount.toNat + tx.fee.toNat ≤ l.balance tx.sender := hcov.2
  have hbt := l.balance_le_total tx.sender
  have hcost : tx.cost ≤ u64Max := by
    unfold DagTransaction.cost
    omega
  rcases checkSpend_cases l tx with ⟨hn, -⟩ | ⟨-, h, -⟩ | ⟨-, -, h, -⟩ | ⟨-, -, hne, h, -⟩ |
    ⟨-, -, new, hnew, -⟩
  · exact absurd hcov.1 hn
  · omega
  · exact absurd hcov.2 (not_le.2 h)
  · have := Tally.get_add_get_le_total l.balances hne
    unfold balance total at *
    omega
  · have hmove := total_moveSpend hnew
    have hsub : (l.moveSpend tx new).book.subsidy = l.book.subsidy := rfl
    obtain ⟨l', h'⟩ := mintConfirmedTx_isOk (l := l.moveSpend tx new) tx.fee.toNat
      tx.sender (tx.provenRelayNodes P) (by rw [hsub]; omega) hr hs hc
    refine ⟨l', ?_⟩
    unfold applyLedgerEffects
    rw [hnew]
    exact mapErr_eq_ok.2 h'

end Ledger

end KronMesh
