import KronMesh.Ledger

/-!
# The ledger as a book

What a ledger says of each account, without its maps and without the range of a word. A vertex is
booked when its nonce is due and its sender covers amount and fee; else it leaves no trace. A
ledger that takes a vertex books it (`book_applyLedgerEffects`), and one that refuses it for its
nonce or for want of funds is in front of a book that refuses it too (`book_refused`).
-/

namespace KronMesh

open Word Outcome

@[ext]
structure Book where
  balance : Address → ℕ
  nonce : Address → ℕ
  relayCredit : Address → ℕ
  supply : ℕ
  count : ℕ

/-- What a list of payouts pays `a`. -/
def payout (payouts : List (Address × ℕ)) (a : Address) : ℕ :=
  (payouts.map fun p => if a = p.1 then p.2 else 0).sum

/-- `amount + fee`. -/
def DagTransaction.cost (tx : DagTransaction) : ℕ := tx.amount.toNat + tx.fee.toNat

namespace Book

variable (P : Primitives) (b : Book) (tx : DagTransaction)

/-- The subsidy of the next vertex. -/
def subsidy : ℕ := getCurrentTxSubsidy b.count b.supply

/-- The split of the pool of the next vertex. -/
def split : ℕ × List (Address × ℕ) :=
  splitPool (b.subsidy + tx.fee.toNat) (tx.provenRelayNodes P)

/-- What the mint of the next vertex pays `a`. -/
def gain (a : Address) : ℕ :=
  (if a = tx.sender then (b.split P tx).1 else 0) + payout (b.split P tx).2 a

/-- The nonce is due and the sender covers amount and fee. -/
def Covers : Prop := tx.nonce.toNat = b.nonce tx.sender ∧ tx.cost ≤ b.balance tx.sender

instance : Decidable (b.Covers tx) := inferInstanceAs (Decidable (_ ∧ _))

/-- The book with the vertex in it. -/
def enter : Book where
  balance a := b.balance a - (if a = tx.sender then tx.cost else 0)
    + (if a = tx.recipient then tx.amount.toNat else 0) + b.gain P tx a
  nonce a := if a = tx.sender then saturatingAdd (b.nonce a) 1 else b.nonce a
  relayCredit a := b.relayCredit a + payout (b.split P tx).2 a
  supply := b.supply + b.subsidy
  count := b.count + 1

def apply : Option Book := if b.Covers tx then some (b.enter P tx) else none

variable {P b tx}

theorem enter_balance (a : Address) : (b.enter P tx).balance a
    = b.balance a - (if a = tx.sender then tx.cost else 0)
      + (if a = tx.recipient then tx.amount.toNat else 0) + b.gain P tx a := rfl

theorem enter_nonce (a : Address) : (b.enter P tx).nonce a
    = if a = tx.sender then saturatingAdd (b.nonce a) 1 else b.nonce a := rfl

theorem enter_relayCredit (a : Address) : (b.enter P tx).relayCredit a
    = b.relayCredit a + payout (b.split P tx).2 a := rfl

theorem enter_supply : (b.enter P tx).supply = b.supply + b.subsidy := rfl

theorem enter_count : (b.enter P tx).count = b.count + 1 := rfl

theorem apply_eq_some {b' : Book} : b.apply P tx = some b' ↔ b.Covers tx ∧ b.enter P tx = b' := by
  unfold apply
  split_ifs with h <;> simp [h]

theorem isSome_apply : (b.apply P tx).isSome ↔ b.Covers tx := by
  unfold apply
  split_ifs with h <;> simp [h]

end Book

/-- Who is paid of a pool is on the list. -/
theorem mem_of_mem_splitPool {pool : ℕ} {nodes : List Address} {p : Address × ℕ}
    (h : p ∈ (splitPool pool nodes).2) : p.1 ∈ nodes := by
  unfold splitPool at h
  simp only [] at h
  split_ifs at h with he
  · cases h
  · obtain ⟨⟨b, k⟩, hb, rfl⟩ := List.mem_map.1 h
    have hmem : b ∈ uniqueRelays nodes := (List.mem_zipIdx' hb).2 ▸ List.getElem_mem _
    rw [uniqueRelays, DagTransaction.mem_foldl_pushNew] at hmem
    exact hmem.resolve_left List.not_mem_nil

theorem payout_cons (p : Address × ℕ) (ps : List (Address × ℕ)) (a : Address) :
    payout (p :: ps) a = (if a = p.1 then p.2 else 0) + payout ps a := by
  rw [payout, List.map_cons, List.sum_cons, payout]

/-- No account is paid more than is paid out. -/
theorem payout_le_sum : ∀ (ps : List (Address × ℕ)) (a : Address),
    payout ps a ≤ (ps.map Prod.snd).sum
  | [], _ => Nat.le_refl 0
  | p :: ps, a => by
    have ih := payout_le_sum ps a
    rw [payout_cons, List.map_cons, List.sum_cons]
    split_ifs <;> omega

namespace Ledger

variable {P : Primitives} {l l' : Ledger} {tx : DagTransaction}

def book (l : Ledger) : Book where
  balance := l.balance
  nonce := l.nextNonce.get
  relayCredit := l.relayCredits.get
  supply := l.currentSupply
  count := l.dagTxCount

/-! ## Each part of a mint, in range -/

theorem creditChecked_ok {a : Address} {n : ℕ} :
    l.creditChecked a n = (l', .ok ()) ↔
      (n = 0 ∧ l' = l) ∨
      (n ≠ 0 ∧ l.balance a + n ≤ u64Max
        ∧ l' = { l with balances := l.balances.set a (l.balance a + n) }) := by
  unfold creditChecked checkedAdd
  split_ifs with h0 h
  · simp [h0, eq_comm]
  · simp [h0, h, eq_comm]
  · simp [h0, h]

theorem creditRelay_ok {a : Address} {n : ℕ} :
    l.creditRelay a n = (l', .ok ()) ↔
      l.relayCredits.get a + n ≤ u64Max
        ∧ l' = { l with relayCredits := l.relayCredits.set a (l.relayCredits.get a + n) } := by
  unfold creditRelay checkedAdd
  split_ifs with h
  · simp [h, eq_comm]
  · simp [h]

theorem addSupply_ok {n : ℕ} :
    l.addSupply n = (l', .ok ()) ↔
      l.currentSupply + n ≤ u64Max ∧ l' = { l with currentSupply := l.currentSupply + n } := by
  unfold addSupply checkedAdd
  split_ifs with h
  · simp [h, eq_comm]
  · simp [h]

theorem countTx_ok :
    l.countTx = (l', .ok ()) ↔
      l.dagTxCount + 1 ≤ u64Max ∧ l' = { l with dagTxCount := l.dagTxCount + 1 } := by
  unfold countTx checkedAdd
  split_ifs with h
  · simp [h, eq_comm]
  · simp [h]

/-! ## What each write of a mint keeps -/

section Keeps

variable {Inv : Ledger → Prop}

/-- No payment to an account breaks `Inv`. -/
abbrev KeepsBalance (Inv : Ledger → Prop) : Prop :=
  ∀ l a n, Inv l → l.balance a + n ≤ u64Max →
    Inv { l with balances := l.balances.set a (l.balance a + n) }

/-- No payment to a relay among `relays` breaks `Inv`. -/
abbrev KeepsRelayCredit (relays : List Address) (Inv : Ledger → Prop) : Prop :=
  ∀ l, ∀ a ∈ relays, ∀ n, Inv l → l.relayCredits.get a + n ≤ u64Max →
    Inv { l with relayCredits := l.relayCredits.set a (l.relayCredits.get a + n) }

theorem KeepsBalance.creditChecked (hb : KeepsBalance Inv) (h : Inv l) (a : Address) (n : ℕ) :
    Inv (l.creditChecked a n).1 := by
  unfold Ledger.creditChecked
  split_ifs
  · exact h
  · rcases hs : checkedAdd (l.balance a) n with _ | sum
    · exact h
    · obtain ⟨hle, rfl⟩ := checkedAdd_eq_some.1 hs
      exact hb l a n h hle

theorem KeepsRelayCredit.creditRelay {relays : List Address} (hr : KeepsRelayCredit relays Inv)
    (h : Inv l) {a : Address} (ha : a ∈ relays) (n : ℕ) : Inv (l.creditRelay a n).1 := by
  unfold Ledger.creditRelay
  rcases hs : checkedAdd (l.relayCredits.get a) n with _ | sum
  · exact h
  · obtain ⟨hle, rfl⟩ := checkedAdd_eq_some.1 hs
    exact hr l a ha n h hle

theorem KeepsBalance.payRelays {relays : List Address} (hb : KeepsBalance Inv)
    (hr : KeepsRelayCredit relays Inv) : ∀ (payouts : List (Address × ℕ)) {l : Ledger},
      (∀ p ∈ payouts, p.1 ∈ relays) → Inv l → Inv (l.payRelays payouts).1
  | [], _, _, h => h
  | p :: payouts, l, hmem, h => by
    obtain ⟨hp, hps⟩ := List.forall_mem_cons.1 hmem
    unfold Ledger.payRelays
    refine andThen_fst Inv (hb.creditChecked h _ _) fun l₁ e₁ => ?_
    have h₁ := hb.creditChecked h p.1 p.2
    rw [e₁] at h₁
    refine andThen_fst Inv (hr.creditRelay h₁ hp _) fun l₂ e₂ => ?_
    have h₂ := hr.creditRelay h₁ hp p.2
    rw [e₂] at h₂
    exact payRelays hb hr payouts hps h₂

/-- What each write keeps, a mint keeps, wherever it stops. -/
theorem KeepsBalance.mintConfirmedTx {relays : List Address} (hb : KeepsBalance Inv)
    (hr : KeepsRelayCredit relays Inv)
    (hs : ∀ l n, Inv l → l.currentSupply + n ≤ u64Max →
      Inv { l with currentSupply := l.currentSupply + n })
    (hc : ∀ l, Inv l → l.dagTxCount + 1 ≤ u64Max → Inv { l with dagTxCount := l.dagTxCount + 1 })
    (h : Inv l) (fee : ℕ) (miner : Address) : Inv (l.mintConfirmedTx fee miner relays).1 := by
  unfold Ledger.mintConfirmedTx
  simp only []
  generalize getCurrentTxSubsidy l.dagTxCount l.currentSupply = subsidy
  rcases checkedAdd subsidy fee with _ | pool
  · exact h
  simp only []
  refine andThen_fst Inv (hb.creditChecked h _ _) fun l₁ e₁ => ?_
  have h₁ := hb.creditChecked h miner (splitPool pool relays).1
  rw [e₁] at h₁
  have hpay := hb.payRelays hr (splitPool pool relays).2 (fun _ => mem_of_mem_splitPool) h₁
  refine andThen_fst Inv hpay fun l₂ e₂ => ?_
  rw [e₂] at hpay
  have h₃ : Inv (l₂.addSupply subsidy).1 := by
    unfold addSupply
    rcases hsup : checkedAdd l₂.currentSupply subsidy with _ | sum
    · exact hpay
    · obtain ⟨hle, rfl⟩ := checkedAdd_eq_some.1 hsup
      exact hs l₂ subsidy hpay hle
  refine andThen_fst Inv h₃ fun l₃ e₃ => ?_
  rw [e₃] at h₃
  unfold countTx
  rcases hcnt : checkedAdd l₃.dagTxCount 1 with _ | count
  · exact h₃
  · obtain ⟨hle, rfl⟩ := checkedAdd_eq_some.1 hcnt
    exact hc l₃ h₃ hle

end Keeps

/-! ## What a mint books -/

/-- The book after `payouts` on the side of balances and relay credits. -/
def paid (b : Book) (payouts : List (Address × ℕ)) : Book :=
  { b with
    balance := fun a => b.balance a + payout payouts a
    relayCredit := fun a => b.relayCredit a + payout payouts a }

theorem book_creditChecked {a : Address} {n : ℕ} (h : l.creditChecked a n = (l', .ok ())) :
    l'.book = { l.book with balance := fun x => l.balance x + if x = a then n else 0 } := by
  rcases creditChecked_ok.1 h with ⟨rfl, rfl⟩ | ⟨-, -, rfl⟩
  · simp [book]
  · ext x
    case balance =>
      simp only [book, balance, Tally.get_set]
      split_ifs with hx <;> simp [hx]
    all_goals rfl

theorem book_creditRelay {a : Address} {n : ℕ} (h : l.creditRelay a n = (l', .ok ())) :
    l'.book = { l.book with
      relayCredit := fun x => l.relayCredits.get x + if x = a then n else 0 } := by
  obtain ⟨-, rfl⟩ := creditRelay_ok.1 h
  ext x
  case relayCredit =>
    simp only [book, Tally.get_set]
    split_ifs with hx <;> simp [hx]
  all_goals rfl

theorem book_payRelays : ∀ (payouts : List (Address × ℕ)) {l l' : Ledger},
    l.payRelays payouts = (l', .ok ()) → l'.book = paid l.book payouts
  | [], l, l', h => by
    simp only [payRelays, Prod.mk.injEq, and_true] at h
    subst h
    rfl
  | p :: payouts, l, l', h => by
    obtain ⟨l₁, h₁, h⟩ := andThen_eq_ok.1 h
    obtain ⟨l₂, h₂, h⟩ := andThen_eq_ok.1 h
    have e₁ := book_creditChecked h₁
    have e₂ := book_creditRelay h₂
    have e₃ := book_payRelays payouts h
    rw [e₃, e₂]
    have hb : l₂.balance = l₁.balance := congrArg Book.balance e₂
    have hr : l₁.relayCredits.get = l.relayCredits.get := congrArg Book.relayCredit e₁
    have hl : l₁.balance = fun x => l.balance x + if x = p.1 then p.2 else 0 :=
      congrArg Book.balance e₁
    rw [e₁]
    ext a <;> simp only [paid, book, payout_cons, hr] <;> omega

/-- A mint goes through when every addition in it does. -/
theorem mintConfirmedTx_eq_ok {fee : ℕ} {miner : Address} {relays : List Address} :
    l.mintConfirmedTx fee miner relays = (l', .ok ()) ↔
      l.book.subsidy + fee ≤ u64Max ∧
        ∃ l₁ l₂, l.creditChecked miner (splitPool (l.book.subsidy + fee) relays).1 = (l₁, .ok ())
          ∧ l₁.payRelays (splitPool (l.book.subsidy + fee) relays).2 = (l₂, .ok ())
          ∧ l₂.currentSupply + l.book.subsidy ≤ u64Max ∧ l₂.dagTxCount + 1 ≤ u64Max
          ∧ l' = { l₂ with
            currentSupply := l₂.currentSupply + l.book.subsidy
            dagTxCount := l₂.dagTxCount + 1 } := by
  have hsub : l.book.subsidy = getCurrentTxSubsidy l.dagTxCount l.currentSupply := rfl
  unfold mintConfirmedTx
  rw [hsub]
  simp only []
  rcases hp : checkedAdd (getCurrentTxSubsidy l.dagTxCount l.currentSupply) fee with _ | pool
  · have hlt := checkedAdd_eq_none.1 hp
    refine ⟨fun h => ?_, fun h => ?_⟩
    · cases h
    · omega
  · obtain ⟨hle, rfl⟩ := checkedAdd_eq_some.1 hp
    refine ⟨fun h => ⟨hle, ?_⟩, ?_⟩
    · obtain ⟨l₁, h₁, h⟩ := andThen_eq_ok.1 h
      obtain ⟨l₂, h₂, h⟩ := andThen_eq_ok.1 h
      obtain ⟨l₃, h₃, h⟩ := andThen_eq_ok.1 h
      obtain ⟨hs, rfl⟩ := addSupply_ok.1 h₃
      obtain ⟨hc, rfl⟩ := countTx_ok.1 h
      exact ⟨l₁, l₂, h₁, h₂, hs, hc, rfl⟩
    · rintro ⟨-, l₁, l₂, h₁, h₂, hs, hc, he⟩
      simp only [h₁, andThen_ok, h₂, addSupply_ok.2 ⟨hs, rfl⟩]
      exact countTx_ok.2 ⟨hc, he⟩

/-- What a mint that goes through books. -/
theorem book_mintConfirmedTx {fee : ℕ} {miner : Address} {relays : List Address}
    (h : l.mintConfirmedTx fee miner relays = (l', .ok ())) :
    l'.book = { paid { l.book with
        balance := fun a => l.balance a
          + if a = miner then (splitPool (l.book.subsidy + fee) relays).1 else 0 }
        (splitPool (l.book.subsidy + fee) relays).2 with
      supply := l.currentSupply + l.book.subsidy
      count := l.dagTxCount + 1 } := by
  obtain ⟨-, l₁, l₂, h₁, h₂, -, -, rfl⟩ := mintConfirmedTx_eq_ok.1 h
  have e₁ := book_creditChecked h₁
  have e₂ := book_payRelays _ h₂
  rw [e₁] at e₂
  have hs : l₂.currentSupply = l.currentSupply := congrArg Book.supply e₂
  have hc : l₂.dagTxCount = l.dagTxCount := congrArg Book.count e₂
  ext a
  · exact congrFun (congrArg Book.balance e₂) a
  · exact congrFun (congrArg Book.nonce e₂) a
  · exact congrFun (congrArg Book.relayCredit e₂) a
  · exact congrArg (· + l.book.subsidy) hs
  · exact congrArg (· + 1) hc

/-! ## A spend -/

/-- Everything the checks of a spend can say. -/
theorem checkSpend_cases (l : Ledger) (tx : DagTransaction) :
    (tx.nonce.toNat ≠ l.nextNonce.get tx.sender
      ∧ l.checkSpend tx = .error (.doubleSpend tx.nonce)) ∨
    (tx.nonce.toNat = l.nextNonce.get tx.sender ∧ u64Max < tx.cost
      ∧ l.checkSpend tx = .error .overflow) ∨
    (tx.nonce.toNat = l.nextNonce.get tx.sender ∧ tx.cost ≤ u64Max
      ∧ l.balance tx.sender < tx.cost ∧ l.checkSpend tx = .error .insufficientBalance) ∨
    (l.book.Covers tx ∧ tx.cost ≤ u64Max ∧ tx.sender ≠ tx.recipient
      ∧ u64Max < l.balance tx.recipient + tx.amount.toNat
      ∧ l.checkSpend tx = .error .overflow) ∨
    (l.book.Covers tx ∧ tx.cost ≤ u64Max ∧ ∃ new, l.checkSpend tx = .ok new
      ∧ (tx.sender = tx.recipient ∧ new.1 = l.balance tx.sender - tx.fee.toNat ∨
        tx.sender ≠ tx.recipient ∧ l.balance tx.recipient + tx.amount.toNat ≤ u64Max
          ∧ new = (l.balance tx.sender - tx.cost, l.balance tx.recipient + tx.amount.toNat))) := by
  by_cases hn : tx.nonce.toNat = l.nextNonce.get tx.sender
  case neg => exact .inl ⟨hn, if_pos hn⟩
  refine .inr ?_
  unfold checkSpend
  rw [if_neg (not_not_intro hn)]
  by_cases hc : tx.cost ≤ u64Max
  case neg =>
    have hc : u64Max < tx.cost := not_le.1 hc
    exact .inl ⟨hn, hc, by rw [checkedAdd_eq_none.2 hc]⟩
  refine .inr ?_
  rw [checkedAdd_of_le hc]
  by_cases hb : l.balance tx.sender < tx.cost
  case pos => exact .inl ⟨hn, hc, hb, if_pos hb⟩
  refine .inr ?_
  have hle : tx.cost ≤ l.balance tx.sender := not_lt.1 hb
  have hfee : tx.fee.toNat ≤ l.balance tx.sender := (Nat.le_add_left _ _).trans hle
  have hcov : l.book.Covers tx := ⟨hn, hle⟩
  simp only [show ¬ l.balance tx.sender < tx.amount.toNat + tx.fee.toNat from hb, if_false]
  by_cases hs : tx.sender = tx.recipient
  · refine .inr ⟨hcov, hc, (l.balance tx.sender - tx.fee.toNat,
      l.balance tx.sender - tx.fee.toNat), ?_, .inl ⟨hs, rfl⟩⟩
    rw [if_pos hs, checkedSub_of_le hfee]
  · simp only [if_neg hs, checkedSub_of_le (show tx.amount.toNat + tx.fee.toNat ≤ _ from hle)]
    by_cases hr : l.balance tx.recipient + tx.amount.toNat ≤ u64Max
    · exact .inr ⟨hcov, hc, _, by rw [checkedAdd_of_le hr]; rfl, .inr ⟨hs, hr, rfl⟩⟩
    · have hr : u64Max < l.balance tx.recipient + tx.amount.toNat := not_le.1 hr
      exact .inl ⟨hcov, hc, hs, hr, by rw [checkedAdd_eq_none.2 hr]⟩

theorem checkSpend_ok {new : ℕ × ℕ} (h : l.checkSpend tx = .ok new) :
    l.book.Covers tx ∧ tx.cost ≤ u64Max
      ∧ (tx.sender = tx.recipient ∧ new.1 = l.balance tx.sender - tx.fee.toNat ∨
        tx.sender ≠ tx.recipient ∧ l.balance tx.recipient + tx.amount.toNat ≤ u64Max
          ∧ new = (l.balance tx.sender - tx.cost, l.balance tx.recipient + tx.amount.toNat)) := by
  rcases checkSpend_cases l tx with ⟨-, h'⟩ | ⟨-, -, h'⟩ | ⟨-, -, -, h'⟩ | ⟨-, -, -, -, h'⟩ |
    ⟨hcov, hc, new', h', hnew⟩
  all_goals rw [h'] at h
  case inr.inr.inr.inr =>
    cases h
    exact ⟨hcov, hc, hnew⟩
  all_goals cases h

/-- A spend moves its amount from the sender, who pays the fee too, to the recipient. -/
theorem balance_moveSpend {new : ℕ × ℕ} (h : l.checkSpend tx = .ok new) (a : Address) :
    (l.moveSpend tx new).balance a
      = l.balance a - (if a = tx.sender then tx.cost else 0)
        + if a = tx.recipient then tx.amount.toNat else 0 := by
  obtain ⟨⟨-, hle⟩, -, ⟨hs, hnew⟩ | ⟨hs, -, rfl⟩⟩ := checkSpend_ok h
  · unfold moveSpend balance
    simp only []
    rw [if_pos hs, ← hs, Tally.get_set, hnew]
    have hle : tx.amount.toNat + tx.fee.toNat ≤ l.balances.get tx.sender := hle
    unfold DagTransaction.cost balance
    split_ifs with ha
    · rw [ha]
      omega
    · rfl
  · unfold moveSpend balance
    simp only [if_neg hs, Tally.get_set]
    split_ifs with h1 h2 h2
    · exact absurd (h2.symm.trans h1) hs
    · rw [h1]
      rfl
    · rw [h2]
      rfl
    · rfl

/-- A ledger that takes a vertex books it. -/
theorem book_applyLedgerEffects (h : l.applyLedgerEffects P tx = (l', .ok ())) :
    l.book.apply P tx = some l'.book := by
  unfold applyLedgerEffects at h
  rcases hc : l.checkSpend tx with e | new
  · rw [hc] at h
    cases h
  · rw [hc] at h
    have hcov := (checkSpend_ok hc).1
    have hm := book_mintConfirmedTx (mapErr_eq_ok.1 h)
    rw [Book.apply, if_pos hcov, hm]
    refine congrArg some (Book.ext ?_ ?_ ?_ rfl rfl)
    · funext a
      have hb := balance_moveSpend hc a
      change _ = _ + _ + _
      rw [hb, Nat.add_assoc]
      rfl
    · funext a
      change _ = Tally.get (l.nextNonce.set _ _) a
      rw [Tally.get_set]
      change ite _ (saturatingAdd (l.nextNonce.get a) 1) (l.nextNonce.get a) = _
      split_ifs with ha
      · rw [ha]
      · rfl
    · rfl

/-- A ledger that refuses a vertex for its nonce or for want of funds is left as it was, and its
book refuses the vertex too. -/
theorem book_refused {e : DagError} (h : l.applyLedgerEffects P tx = (l', .error e))
    (he : e ≠ .overflow) : l' = l ∧ l.book.apply P tx = none := by
  unfold applyLedgerEffects at h
  rcases checkSpend_cases l tx with ⟨hn, hc⟩ | ⟨-, -, hc⟩ | ⟨-, -, hb, hc⟩ | ⟨-, -, -, -, hc⟩ |
    ⟨-, -, new, hc, -⟩
  all_goals rw [hc] at h
  case inl =>
    cases h
    exact ⟨rfl, if_neg fun hcov => hn hcov.1⟩
  case inr.inr.inl =>
    cases h
    exact ⟨rfl, if_neg fun hcov => absurd hcov.2 (not_le.2 hb)⟩
  case inr.inr.inr.inr =>
    simp only [] at h
    rcases hm : (l.moveSpend tx new).mintConfirmedTx tx.fee.toNat tx.sender
      (tx.provenRelayNodes P) with ⟨l₁, ⟨⟩ | ⟨⟨⟩⟩⟩
    · rw [hm] at h
      cases h
      exact absurd rfl he
    · rw [hm] at h
      cases h
  all_goals
    cases h
    exact absurd rfl he

end Ledger

end KronMesh
