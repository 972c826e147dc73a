import KronMesh.Compose
import KronMesh.Convergence
import KronMesh.Mining

/-!
# A miner that never stalls

A share of the first era pays its sender back more than it costs. So a wallet that sends nothing but
shares, one for each nonce, can pay for every one of them in every replay, whatever the vertices of
others do: none of its shares is ever refused, its nonce stays their number, and its next one can be
composed and attached (`miner_run`). The dust is credited for the first of them only.
-/

namespace KronMesh

open Word Outcome

/-! ## The books of the wallet -/

theorem shareCost_eq : shareCost = 1001 := by decide

/-- A share: one unit for the fixed fee, without carriers. -/
structure DagTransaction.IsShare (tx : DagTransaction) : Prop where
  amount : tx.amount = 1
  fee : tx.fee.toNat = fixedTransactionFee
  relayProofs : tx.relayProofs = []

theorem DagTransaction.IsShare.cost_eq {tx : DagTransaction} (h : tx.IsShare) :
    tx.cost = shareCost := by
  rw [cost, h.amount, h.fee]
  rfl

/-- The nonces that `a` spends in a list of vertices. -/
def ownNonces (a : Address) (txs : List DagTransaction) : List ℕ :=
  (txs.filter fun tx => tx.sender = a).map fun tx => tx.nonce.toNat

namespace Book

variable {P : Primitives} {b : Book} {tx : DagTransaction} {a : Address} {k n : ℕ}

/-- The account has used `k` nonces and can pay for a share. -/
structure Funds (b : Book) (a : Address) (k : ℕ) : Prop where
  nonce : b.nonce a = k
  balance : shareCost ≤ b.balance a

theorem InEra.step (h : b.InEra (n + 1)) : (Replay.step (Book.apply P) b tx).InEra n := by
  by_cases hc : b.Covers tx
  · rw [Replay.step_some (apply_eq_some.2 ⟨hc, rfl⟩)]
    exact h.enter
  · rw [Replay.step_none (Option.not_isSome_iff_eq_none.1 (isSome_apply.not.2 hc))]
    exact ⟨h.schedule, (Nat.le_succ _).trans h.count⟩

/-- A share that is due is covered, and mints its sender more than it costs. -/
theorem Funds.share (h : b.Funds a k) (hera : b.InEra (n + 1)) (hs : tx.IsShare)
    (ha : tx.sender = a) (hn : tx.nonce.toNat = k) (hk : k + 1 ≤ u64Max) :
    b.Covers tx ∧ (b.enter P tx).Funds a (k + 1) := by
  obtain ⟨hnonce, hbal⟩ := h
  subst ha
  have hcost := hs.cost_eq
  refine ⟨⟨hn.trans hnonce.symm, hcost.trans_le hbal⟩, ?_, ?_⟩
  · rw [enter_nonce, if_pos rfl, hnonce, saturatingAdd_of_le hk]
  · have hsplit : b.split P tx = (101000, []) := by
      rw [hera.split_eq, hs.fee, DagTransaction.provenRelayNodes_nil hs.relayProofs]
      decide
    rw [enter_balance, if_pos rfl, gain, if_pos rfl, hsplit, hcost]
    rw [shareCost_eq] at hbal ⊢
    omega

/-- The vertices of others leave the account its nonce, and take nothing from it. -/
theorem Funds.step (h : b.Funds a k) (hne : tx.sender ≠ a) :
    (Replay.step (Book.apply P) b tx).Funds a k := by
  obtain ⟨hnonce, hbal⟩ := h
  by_cases hc : b.Covers tx
  · rw [Replay.step_some (apply_eq_some.2 ⟨hc, rfl⟩)]
    refine ⟨?_, ?_⟩
    · rw [enter_nonce, if_neg (Ne.symm hne), hnonce]
    · rw [enter_balance, if_neg (Ne.symm hne)]
      omega
  · rw [Replay.step_none (Option.not_isSome_iff_eq_none.1 (isSome_apply.not.2 hc))]
    exact ⟨hnonce, hbal⟩

/-- A replay in which the account spends shares, one for each nonce, takes them all. -/
theorem Funds.greedy : ∀ (txs : List DagTransaction) {b : Book} {k m : ℕ}, b.Funds a k →
    b.InEra txs.length → (∀ tx ∈ txs, tx.sender = a → tx.IsShare) →
    ownNonces a txs = List.range' k m → k + m ≤ u64Max →
      (Replay.greedy (Book.apply P) b txs).Funds a (k + m)
  | [], b, k, m, h, _, _, hown, _ => by
    have hm : m = 0 := by
      have hlen := congrArg List.length hown
      rw [List.length_range'] at hlen
      exact hlen.symm
    rw [hm]
    exact h
  | tx :: txs, b, k, m, h, hera, hshare, hown, hk => by
    obtain ⟨htx, hshare⟩ := List.forall_mem_cons.1 hshare
    rw [Replay.greedy_cons]
    by_cases ha : tx.sender = a
    · have hcons : ownNonces a (tx :: txs) = tx.nonce.toNat :: ownNonces a txs := by
        simp [ownNonces, ha]
      rcases m with _ | m
      · rw [hcons] at hown
        cases hown
      rw [hcons, List.range'_succ, List.cons.injEq] at hown
      obtain ⟨hcov, hfunds⟩ := h.share (P := P) hera (htx ha) ha hown.1 (by omega)
      have hstep : Replay.step (Book.apply P) b tx = b.enter P tx :=
        Replay.step_some (apply_eq_some.2 ⟨hcov, rfl⟩)
      rw [hstep]
      have hera' : (b.enter P tx).InEra txs.length := hera.enter
      have ih := Funds.greedy txs hfunds hera' hshare hown.2 (by omega)
      rwa [Nat.add_right_comm, Nat.add_assoc] at ih
    · have hskip : ownNonces a (tx :: txs) = ownNonces a txs := by
        simp [ownNonces, ha]
      rw [hskip] at hown
      exact Funds.greedy txs (h.step ha) hera.step hshare hown hk

end Book

/-- Whoever spends every nonce once has all its vertices replayed. -/
theorem Graph.WF.filter_replayed {g : Graph} (hg : g.WF) {a : Address}
    (hown : ∀ tx ∈ g.transactionsInOrder, tx.sender = a → tx.isGenesis = false)
    (hnd : (ownNonces a g.transactionsInOrder).Nodup) :
    (g.replayed.filter fun tx => tx.sender = a)
      = g.transactionsInOrder.filter fun tx => tx.sender = a := by
  unfold Graph.replayed Graph.transactionsInOrder
  rw [List.filter_filterMap, List.filter_filterMap]
  refine List.filterMap_congr fun id _ => ?_
  rcases hl : g.vertices.lookup id with _ | tx
  · have hr : g.replayedAt id = none := by
      rw [Option.eq_none_iff_forall_ne_some]
      intro tx htx
      rw [(Graph.replayedAt_eq_some.1 htx).2.1] at hl
      cases hl
    rw [hr]
  by_cases ha : tx.sender = a
  · have hid := hg.id_eq hl
    have hmem : ∀ {id' tx'}, g.vertices.lookup id' = some tx' → tx' ∈ g.transactionsInOrder :=
      fun {id' tx'} hl' => (Graph.mem_transactionsInOrder hg).2 (by rwa [hg.id_eq hl'])
    -- nobody else spends the nonce, so nobody outranks it
    have htop : g.Top id := by
      refine ⟨(tx.sender, tx.nonce), ⟨tx, hl, hown tx (hmem hl) ha, rfl⟩, ?_⟩
      rintro id' ⟨tx', hl', -, hkey⟩
      obtain ⟨hsender, hnonce⟩ := Prod.ext_iff.1 hkey
      have heq : tx' = tx := by
        refine List.inj_on_of_nodup_map hnd ?_ ?_ (congrArg UInt64.toNat hnonce)
        · exact List.mem_filter.2 ⟨hmem hl', by simpa using hsender.trans ha⟩
        · exact List.mem_filter.2 ⟨hmem hl, by simpa using ha⟩
      rw [← hg.id_eq hl', heq, hid]
      exact Graph.RankLE.refl id
    rw [hg.replayedAt_eq_some_iff.2 ⟨htop, hl⟩]
  · rcases hr : g.replayedAt id with _ | tx'
    · simp [Option.filter, ha]
    · rw [(Graph.replayedAt_eq_some.1 hr).2.1] at hl
      cases hl
      rfl

/-! ## The wallet's node -/

theorem ownNonces_concat {a : Address} (txs : List DagTransaction) (tx : DagTransaction) :
    ownNonces a (txs ++ [tx])
      = ownNonces a txs ++ if tx.sender = a then [tx.nonce.toNat] else [] := by
  unfold ownNonces
  by_cases ha : tx.sender = a <;> simp [List.filter_append, ha]

theorem Graph.Addressed.insertVertex {P : Primitives} {g : Graph} {tx : DagTransaction}
    (h : g.Addressed P) (hid : tx.BearsHash P) (hnull : tx.id ≠ nullParent) :
    (g.insertVertex tx).Addressed P := by
  intro x v hl
  rcases Graph.lookup_insertVertex_cases hl with ⟨rfl, rfl⟩ | ⟨-, hl⟩
  · exact ⟨hid, hnull⟩
  · exact h x v hl

namespace KronDAG

variable {P : Primitives} {d₀ d d' : KronDAG} {a : Address} {tx : DagTransaction}

/-- A node grown from `d₀` that has credited `a` the dust, and on which `a` sends nothing but
shares, one for each nonce, and can pay for the next. -/
structure Mines (P : Primitives) (d d₀ : KronDAG) (a : Address) : Prop where
  reached : ∃ ops, run P d₀ ops = d
  addressed : d.Addressed P
  faucet : d.faucet = Tally.set ∅ a shareCost
  own : ∀ tx ∈ d.transactionsInOrder, tx.sender = a → tx.isGenesis = false ∧ tx.IsShare
  nonces : ownNonces a d.transactionsInOrder = List.range (d.book.nonce a)
  balance : shareCost ≤ d.book.balance a

theorem Mines.funds (h : d.Mines P d₀ a) : d.book.Funds a (d.book.nonce a) := ⟨rfl, h.balance⟩

theorem Mines.faucetTotal_le (h : d.Mines P d₀ a) : d.faucetTotal + hardCap ≤ u64Max := by
  have hset := Tally.total_set (∅ : Tally Address) a shareCost
  have htotal : Tally.total (∅ : Tally Address) = 0 := rfl
  have hroom : shareCost + hardCap ≤ u64Max := by decide
  unfold faucetTotal
  rw [h.faucet]
  omega

section

variable (hd₀ : withGenesis P = some d₀)
include hd₀

theorem Mines.grown (h : d.Mines P d₀ a) : d.toGraph.Grown P d₀.toGraph := by
  obtain ⟨ops, rfl⟩ := h.reached
  exact grown_run hd₀ ops

theorem Mines.inRange (h : d.Mines P d₀ a) : d.toLedger.InRange := by
  obtain ⟨ops, rfl⟩ := h.reached
  exact (inRange_run hd₀ ops).ledger

theorem Mines.backed (h : d.Mines P d₀ a) : d.Backed := by
  have hF := h.faucetTotal_le
  obtain ⟨ops, rfl⟩ := h.reached
  exact backed_run hd₀ ops hF

/-- The wallet has used no more nonces than there are vertices. -/
theorem Mines.nonce_le (h : d.Mines P d₀ a) : d.book.nonce a ≤ d.vertexCount := by
  have hlen := congrArg List.length h.nonces
  rw [List.length_range, ownNonces, List.length_map] at hlen
  have hle := List.length_filter_le (fun tx => decide (tx.sender = a)) d.transactionsInOrder
  rw [Graph.length_transactionsInOrder (h.grown hd₀).wf] at hle
  exact hlen.symm.trans_le hle

/-- A vertex that is stored comes last, and what the wallet sends stays shares if it is one. -/
theorem Mines.insertVertex (h : d.Mines P d₀ a) (hcheck : d.checkVertex P tx = .ok ())
    (hgraph : d'.toGraph = d.toGraph.insertVertex tx)
    (htx : tx.sender = a → tx.isGenesis = false ∧ tx.IsShare) :
    d'.transactionsInOrder = d.transactionsInOrder ++ [tx]
      ∧ ∀ y ∈ d'.transactionsInOrder, y.sender = a → y.isGenesis = false ∧ y.IsShare := by
  have horder : d'.transactionsInOrder = d.transactionsInOrder ++ [tx] := by
    rw [hgraph]
    exact Graph.transactionsInOrder_insertVertex (h.grown hd₀).wf (Graph.checkVertex_ok hcheck).1
  refine ⟨horder, fun y hy ha => ?_⟩
  rw [horder, List.mem_append, List.mem_singleton] at hy
  rcases hy with hy | rfl
  · exact h.own y hy ha
  · exact htx ha

/-- A vertex that is attached keeps it up, if it is a share whenever the wallet sends it. -/
theorem Mines.attached (h : d.Mines P d₀ a) (hcheck : d.checkVertex P tx = .ok ()) {new : ℕ × ℕ}
    (hs : d.checkSpend tx = .ok new)
    (hatt : d.attached tx new (tx.provenRelayNodes P) = (d', .ok ()))
    (hreached : ∃ ops, run P d₀ ops = d') (hid : tx.BearsHash P) (hnull : tx.id ≠ nullParent)
    (hshare : tx.sender = a → tx.IsShare) (hera : d'.vertexCount ≤ txHalvingInterval) :
    d'.Mines P d₀ a := by
  have hg := h.grown hd₀
  have hgen := hg.wf.not_isGenesis hcheck
  obtain ⟨hgraph, hfaucet, -⟩ := d.attached_frame tx new (tx.provenRelayNodes P)
  rw [hatt] at hgraph hfaucet
  simp only [] at hgraph hfaucet
  obtain ⟨horder, hown⟩ := h.insertVertex hd₀ hcheck hgraph fun ha => ⟨hgen, hshare ha⟩
  have hcount : d'.vertexCount = d.vertexCount + 1 := by
    have hcount := vertexCount_attached hcheck new (tx.provenRelayNodes P)
    rwa [hatt] at hcount
  obtain ⟨hcov, henter⟩ := Book.apply_eq_some.1
    (Ledger.book_applyLedgerEffects (applyLedgerEffects_of_attached hgen hs hatt))
  have hback := (h.backed hd₀).ledger
  have hbera : d.book.InEra (0 + 1) := by
    refine ⟨hback.schedule, ?_⟩
    have hle : d.book.count ≤ d.vertexCount := hback.count
    omega
  have haddr : d'.Addressed P := by
    rw [hgraph]
    exact h.addressed.insertVertex hid hnull
  by_cases ha : tx.sender = a
  · have hn : tx.nonce.toNat = d.book.nonce a := ha ▸ hcov.1
    have hk : d.book.nonce a + 1 ≤ u64Max := by
      have hle := h.nonce_le hd₀
      have hword : txHalvingInterval ≤ u64Max := by decide
      omega
    obtain ⟨-, hfunds⟩ := h.funds.share (P := P) hbera (hshare ha) ha hn hk
    rw [henter] at hfunds
    refine ⟨hreached, haddr, hfaucet.trans h.faucet, hown, ?_, hfunds.balance⟩
    rw [horder, ownNonces_concat, if_pos ha, h.nonces, hfunds.nonce, hn, List.range_succ]
  · have hfunds := h.funds.step (P := P) ha
    rw [Replay.step_some (Book.apply_eq_some.2 ⟨hcov, rfl⟩), henter] at hfunds
    refine ⟨hreached, haddr, hfaucet.trans h.faucet, hown, ?_, hfunds.balance⟩
    rw [horder, ownNonces_concat, if_neg ha, List.append_nil, h.nonces, hfunds.nonce]

/-- A rebuild behind a vertex of another that is stored aside keeps it up. -/
theorem Mines.resolved (h : d.Mines P d₀ a) (hcheck : d.checkVertex P tx = .ok ())
    (hres : (d.stored tx).resolveConflictsAndRebuildLedger P = (d', .ok ()))
    (hreached : ∃ ops, run P d₀ ops = d') (hid : tx.BearsHash P) (hnull : tx.id ≠ nullParent)
    (hne : tx.sender ≠ a) (hera : d'.vertexCount ≤ txHalvingInterval) : d'.Mines P d₀ a := by
  have hg := h.grown hd₀
  have hwf : (d.stored tx).toGraph.WF := hg.wf.insertVertex hcheck
  obtain ⟨hgraph, hfaucet⟩ := (d.stored tx).resolve_frame (P := P)
  rw [hres] at hgraph hfaucet
  simp only [] at hgraph hfaucet
  obtain ⟨horder, hown⟩ := h.insertVertex hd₀ hcheck hgraph fun ha => absurd ha hne
  have hnonces : ownNonces a d'.transactionsInOrder = List.range (d.book.nonce a) := by
    rw [horder, ownNonces_concat, if_neg hne, List.append_nil, h.nonces]
  rw [hgraph] at hown hnonces
  have hreplayed : ownNonces a (d.stored tx).replayed = List.range' 0 (d.book.nonce a) := by
    rw [← List.range_eq_range', ← hnonces]
    unfold ownNonces
    rw [hwf.filter_replayed (fun y hy ha => (hown y hy ha).1)
      (by rw [hnonces]; exact List.nodup_range)]
  have hshare : ∀ y ∈ (d.stored tx).replayed, y.sender = a → y.IsShare := by
    intro y hy ha
    refine (hown y ?_ ha).2
    exact (Graph.mem_transactionsInOrder hwf).2 (hwf.mem_replayed.1 hy).2
  have hlen : (d.stored tx).replayed.length ≤ txHalvingInterval := by
    refine (length_replayed_le hwf).trans (le_of_eq_of_le ?_ hera)
    unfold vertexCount
    rw [hgraph]
  have hbase : (d.stored tx).baseBook.Funds a 0 := by
    refine ⟨rfl, ?_⟩
    change shareCost ≤ Tally.get d.faucet a
    rw [h.faucet, Tally.get_set_self]
  have hk : 0 + d.book.nonce a ≤ u64Max := by
    rw [Nat.zero_add]
    exact (h.inRange hd₀).nonce a
  have hfunds := hbase.greedy (P := P) (d.stored tx).replayed
    ⟨emitted_zero.symm, (Nat.zero_add _).trans_le hlen⟩ hshare hreplayed hk
  rw [← (resolve_ok hwf hres).1, Nat.zero_add] at hfunds
  refine ⟨hreached, ?_, hfaucet.trans h.faucet, hgraph ▸ hown, ?_, hfunds.balance⟩
  · rw [hgraph]
    exact h.addressed.insertVertex hid hnull
  · rw [hgraph, hnonces, hfunds.nonce]

/-- So does every vertex of another that is handed in, unless the call overflows. -/
theorem Mines.accept (h : d.Mines P d₀ a) (hne : tx.sender ≠ a) (hid : tx.BearsHash P)
    (hnull : tx.id ≠ nullParent) (hno : (d.acceptWireVertex P tx).2 ≠ .error .overflow)
    (hera : (d.acceptWireVertex P tx).1.vertexCount ≤ txHalvingInterval) :
    (d.acceptWireVertex P tx).1.Mines P d₀ a := by
  have hreached : ∃ ops, run P d₀ ops = (d.acceptWireVertex P tx).1 := by
    obtain ⟨ops, hops⟩ := h.reached
    exact ⟨ops ++ [.accept tx], by rw [run_concat, hops, exec_accept]⟩
  rcases accept_cases (P := P) d tx with ⟨-, he⟩ | ⟨e, -, he⟩ | ⟨new, hcheck, hs, he⟩ |
    ⟨e, hcheck, -, -, he⟩
  · rw [he]
    exact h
  · rw [he]
    exact h
  · rw [he] at hno hreached hera ⊢
    have hok := (attached_snd new (tx.provenRelayNodes P)).resolve_right fun h =>
      hno (congrArg (Except.map fun _ => true) h)
    exact h.attached hd₀ hcheck hs (Prod.ext rfl hok) hreached hid hnull
      (fun ha => absurd ha hne) hera
  · rw [he] at hno hreached hera ⊢
    have hok := (d.stored tx).resolve_snd.resolve_right fun h =>
      hno (congrArg (Except.map fun _ => true) h)
    exact h.resolved hd₀ hcheck (Prod.ext rfl hok) hreached hid hnull hne hera

/-- A tick of the wallet attaches its next share. -/
theorem Mines.tick {c d₁ : KronDAG} {created : Bool} {t : MinerTick} (h : c.Mines P d₀ a)
    (hens : d.ensureGenesis P = some (d₁, created))
    (hc : d₁.creditAccount a (d₁.firstShareDust a) = c) (ha : t.wallet.pub.address P = a)
    (hw : t.wallet.Signs P) (hhost : t.device.admitHost t.host = .ok ())
    (hnew : ∀ tx, c.composeAndSign P t.chance t.wallet t.dest 1 = .ok tx →
      c.NoCollision P tx ∧ tx.id ≠ nullParent)
    (hera : c.vertexCount < txHalvingInterval) :
    ∃ d' out, d.minerTick P t = some (d', out) ∧ d'.Mines P d₀ a
      ∧ d'.vertexCount = c.vertexCount + 1 ∧ out.status = .attached
      ∧ out.faucetCredited = d₁.firstShareDust a := by
  subst ha
  have hg := h.grown hd₀
  have hback := h.backed hd₀
  obtain ⟨tx, htx⟩ := composeAndSign_isOk hw t.chance c t.dest 1
  obtain ⟨hcol, hnull⟩ := hnew tx htx
  have hcheck := checkVertex_composed hg h.addressed hw htx hcol
  have hn : c.dagTxCount + 1 ≤ u64Max := by
    have hle := hback.ledger.count
    have hword : txHalvingInterval ≤ u64Max := by decide
    omega
  obtain ⟨new, hs, hok, hatt⟩ := attached_composed hg h.addressed hback h.faucetTotal_le
    (h.inRange hd₀) hn hw htx hcol h.balance
  obtain ⟨-, -, -, -, hamount, hfee, -, -, hproofs⟩ := DagTransaction.assemble_fields htx
  have hshare : tx.IsShare := ⟨hamount, by rw [hfee]; rfl, hproofs⟩
  have hcount := vertexCount_attached hcheck new []
  have hfor : c.attachAndVerifyFor P t.host tx t.device = ((c.attached tx new []).1, .ok ()) := by
    unfold attachAndVerifyFor
    rw [hhost]
    exact hatt.trans (Prod.ext rfl hok)
  have htips : c.tips.isEmpty = false := by
    rw [List.isEmpty_eq_false_iff]
    exact hg.indexed.tips_ne_nil hg.wf
  obtain ⟨out, hout, hdust, -, hstatus⟩ := minerTick_of_attached hens hc htips
    (not_lt.2 h.balance) htx hfor
  refine ⟨_, out, hout, ?_, hcount, hstatus, hdust⟩
  have hreached : ∃ ops, run P d₀ ops = (c.attached tx new []).1 := by
    obtain ⟨ops, hops⟩ := h.reached
    refine ⟨ops ++ [.attach t.host tx t.device], ?_⟩
    rw [run_concat, hops]
    change (c.attachAndVerifyFor P t.host tx t.device).1 = _
    rw [hfor]
  refine h.attached hd₀ hcheck hs ?_ hreached (bearsHash_assemble htx) hnull (fun _ => hshare)
    (by omega)
  rw [DagTransaction.provenRelayNodes_nil hproofs]
  exact Prod.ext rfl hok

end

/-- What is composed does not depend on what is credited. -/
theorem composeAndSign_credit {c : Chance} {w : LatticeKeyPair} {recipient : Address}
    {amount : UInt64} (d : KronDAG) (a : Address) (n : ℕ) :
    (d.creditAccount a n).composeAndSign P c w recipient amount
      = d.composeAndSign P c w recipient amount := by
  unfold creditAccount
  split_ifs <;> rfl

end KronDAG

/-! ## Runs of the wallet's phone -/

/-- A call of a phone that mines, and takes in what others send. -/
inductive PhoneCall
  | tick (t : MinerTick)
  | accept (tx : DagTransaction)

section

variable (P : Primitives)

/-- What a call leaves, and what a tick reports; `none` where the genesis vertex panics. -/
def phoneExec (d : KronDAG) : PhoneCall → Option (KronDAG × List MinerTickOutcome)
  | .tick t => (d.minerTick P t).map fun r => (r.1, [r.2])
  | .accept tx => some ((d.acceptWireVertex P tx).1, [])

def phoneRun (d : KronDAG) : List PhoneCall → Option (KronDAG × List MinerTickOutcome)
  | [] => some (d, [])
  | call :: calls =>
    match phoneExec P d call with
    | none => none
    | some (d, outs) => (phoneRun d calls).map fun r => (r.1, outs ++ r.2)

/-- What is asked of a call: a tick is one of the wallet's on a host that is admitted, and a vertex
that is handed in is one of another's, under its own hash, and overflows nowhere. Hashes neither
collide nor are they the dummy parent. -/
def PhoneCallOk (w : LatticeKeyPair) (d : KronDAG) : PhoneCall → Prop
  | .tick t => t.wallet = w ∧ t.device.admitHost t.host = .ok ()
    ∧ ∀ d₁ created tx, d.ensureGenesis P = some (d₁, created) →
      d₁.composeAndSign P t.chance t.wallet t.dest 1 = .ok tx →
        d₁.NoCollision P tx ∧ tx.id ≠ nullParent
  | .accept tx => tx.sender ≠ w.pub.address P ∧ tx.BearsHash P ∧ tx.id ≠ nullParent
    ∧ (d.acceptWireVertex P tx).2 ≠ .error .overflow

def PhoneCallsOk (w : LatticeKeyPair) : KronDAG → List PhoneCall → Prop
  | _, [] => True
  | d, call :: calls => PhoneCallOk P w d call
    ∧ ∀ d' outs, phoneExec P d call = some (d', outs) → PhoneCallsOk w d' calls

end

section Phone

variable {P : Primitives} {d₀ d d' : KronDAG} {w : LatticeKeyPair} {outs : List MinerTickOutcome}

open KronDAG

theorem phoneRun_cons {call : PhoneCall} {calls : List PhoneCall}
    (h : phoneExec P d call = some (d', outs)) :
    phoneRun P d (call :: calls) = (phoneRun P d' calls).map fun r => (r.1, outs ++ r.2) := by
  rw [phoneRun, h]

theorem vertexCount_accept (d : KronDAG) (tx : DagTransaction) :
    d.vertexCount ≤ (d.acceptWireVertex P tx).1.vertexCount := by
  have hsteps := accept_steps (P := P) d tx
  generalize (d.acceptWireVertex P tx).1 = d' at hsteps
  induction hsteps with
  | refl => exact le_rfl
  | tail _ hs ih => exact ih.trans (vertexCount_step hs)

/-- A call on a graph with a vertex in it goes through, and takes no vertex away. -/
theorem phoneExec_some (hne : 0 < d.vertexCount) (call : PhoneCall) :
    ∃ d' outs, phoneExec P d call = some (d', outs) ∧ d.vertexCount ≤ d'.vertexCount := by
  rcases call with t | tx
  · have hne' : d.vertices.entries ≠ [] := List.ne_nil_of_length_pos hne
    obtain ⟨out, -, c, hc, h | ⟨tx, new, -, hcheck, -, h⟩⟩ := d.minerTick_cases (P := P) t hne'
    · refine ⟨c, [out], by rw [phoneExec, h]; rfl, ?_⟩
      rw [hc, vertexCount_credit]
    · refine ⟨_, [out], by rw [phoneExec, h]; rfl, ?_⟩
      have hcount : c.vertexCount = d.vertexCount := by rw [hc, vertexCount_credit]
      rw [← hcount, vertexCount_attached hcheck]
      exact Nat.le_succ _
  · exact ⟨_, [], rfl, vertexCount_accept d tx⟩

theorem phoneRun_some : ∀ (calls : List PhoneCall) {d : KronDAG}, 0 < d.vertexCount →
    ∃ d' outs, phoneRun P d calls = some (d', outs) ∧ d.vertexCount ≤ d'.vertexCount
  | [], d, _ => ⟨d, [], rfl, le_rfl⟩
  | call :: calls, d, hne => by
    obtain ⟨d₁, outs₁, h₁, hle₁⟩ := phoneExec_some (P := P) hne call
    obtain ⟨d₂, outs₂, h₂, hle₂⟩ := phoneRun_some calls (hne.trans_le hle₁)
    refine ⟨d₂, outs₁ ++ outs₂, ?_, hle₁.trans hle₂⟩
    rw [phoneRun_cons h₁, h₂]
    rfl

theorem vertexCount_phoneRun {calls : List PhoneCall} (hne : 0 < d.vertexCount)
    (h : phoneRun P d calls = some (d', outs)) : d.vertexCount ≤ d'.vertexCount := by
  obtain ⟨d₁, outs₁, h₁, hle⟩ := phoneRun_some (P := P) calls hne
  rw [h] at h₁
  cases h₁
  exact hle

/-- Behind its first share the wallet attaches one with every tick, and credits nothing. -/
theorem attached_phoneRun (hd₀ : withGenesis P = some d₀) (hw : w.Signs P) :
    ∀ (calls : List PhoneCall) {d d' : KronDAG} {outs : List MinerTickOutcome},
      d.Mines P d₀ (w.pub.address P) → 2 ≤ d.vertexCount → PhoneCallsOk P w d calls →
      phoneRun P d calls = some (d', outs) → d'.vertexCount < txHalvingInterval →
        ∀ out ∈ outs, out.status = .attached ∧ out.faucetCredited = 0
  | [], d, d', outs, _, _, _, hrun, _ => by
    cases hrun
    exact fun out hout => absurd hout List.not_mem_nil
  | call :: calls, d, d', outs, hm, htwo, ⟨hok, hrest⟩, hrun, hera => by
    have hpos : 0 < d.vertexCount := by omega
    obtain ⟨d₁, outs₁, hexec, hle⟩ := phoneExec_some (P := P) hpos call
    have hrest := hrest d₁ outs₁ hexec
    rw [phoneRun_cons hexec] at hrun
    obtain ⟨⟨d₂, outs₂⟩, hlater, heq⟩ := Option.map_eq_some_iff.1 hrun
    cases heq
    have hlast := vertexCount_phoneRun (hpos.trans_le hle) hlater
    simp only [] at hera
    suffices hstep : d₁.Mines P d₀ (w.pub.address P)
        ∧ ∀ out ∈ outs₁, out.status = .attached ∧ out.faucetCredited = 0 by
      intro out hout
      rcases List.mem_append.1 hout with hout | hout
      · exact hstep.2 out hout
      · exact attached_phoneRun hd₀ hw calls hstep.1 (htwo.trans hle) hrest hlater hera out hout
    rcases call with t | tx
    · obtain ⟨rfl, hhost, hnew⟩ := hok
      have hens : d.ensureGenesis P = some (d, false) :=
        ensureGenesis_of_ne (List.ne_nil_of_length_pos hpos)
      have hdust : d.firstShareDust (t.wallet.pub.address P) = 0 := by
        unfold firstShareDust
        rw [if_neg fun h => absurd h.1 (by omega)]
      obtain ⟨d₃, out, htick, hm', -, hstatus, hcredited⟩ := hm.tick hd₀ hens
        (by rw [hdust]; rfl) rfl hw hhost (fun tx htx => hnew d false tx hens htx) (by omega)
      rw [phoneExec, htick] at hexec
      cases hexec
      refine ⟨hm', fun o ho => ?_⟩
      rw [List.mem_singleton.1 ho]
      exact ⟨hstatus, hcredited.trans hdust⟩
    · obtain ⟨hne, hid, hnull, hno⟩ := hok
      cases hexec
      exact ⟨hm.accept hd₀ hne hid hnull hno (by omega),
        fun o ho => absurd ho List.not_mem_nil⟩

/-- The first state has one vertex. The dust on it is what a share costs, and with it the wallet can
mine. -/
theorem KronDAG.mines_withGenesis (hd₀ : withGenesis P = some d₀)
    (hnull : d₀.genesisIdOr ≠ nullParent) {a : Address}
    (hkey : a ≠ (LatticeKeyPair.fromSeed P genesisSeed).pub.address P) :
    d₀.vertexCount = 1 ∧ d₀.firstShareDust a = shareCost
      ∧ (d₀.creditAccount a shareCost).Mines P d₀ a := by
  obtain ⟨g, hg, hgen, hcheck, rfl⟩ := withGenesis_eq hd₀
  have hsender : g.sender ≠ a := by
    rw [(DagTransaction.assemble_fields hg).2.2.1]
    exact hkey.symm
  have hself := (signedGenesisTx_ok hg).2.1
  have hbal : (Ledger.empty.moveSpend g (0, 0)).balance a = 0 := by
    unfold Ledger.balance Ledger.moveSpend
    simp only []
    rw [if_pos hself, Tally.get_set_ne _ _ hsender.symm]
    rfl
  have hnonce : (Ledger.empty.moveSpend g (0, 0)).nextNonce.get a = 0 :=
    Tally.get_set_ne _ _ hsender.symm
  have horder : (Graph.empty.insertVertex g).transactionsInOrder = [g] := by
    unfold Graph.transactionsInOrder
    rw [Graph.insertVertex_attachOrder]
    have hl : (Graph.empty.insertVertex g).vertices.lookup g.id = some g := by
      rw [Graph.lookup_insertVertex, if_pos rfl]
    exact List.filterMap_cons_some hl
  have hone : (Graph.empty.insertVertex g).vertices.entries.length = 1 :=
    Graph.length_entries_insertVertex (Graph.checkVertex_ok hcheck).1
  refine ⟨hone, ?_, ⟨[.credit a 1001], rfl⟩, ?_, rfl, fun tx htx ha => ?_, ?_, ?_⟩
  · unfold firstShareDust vertexCount
    simp only []
    rw [hbal, if_pos ⟨hone.le, by decide⟩]
    rfl
  · intro x v hl
    obtain ⟨rfl, rfl⟩ := Graph.lookup_insertVertex_empty hl
    refine ⟨bearsHash_assemble hg, ?_⟩
    unfold Graph.genesisIdOr at hnull
    rwa [Graph.insertVertex_genesisId, if_pos hgen] at hnull
  · have htx : tx ∈ (Graph.empty.insertVertex g).transactionsInOrder := htx
    rw [horder, List.mem_singleton] at htx
    exact absurd (htx ▸ ha) hsender
  · change ownNonces a (Graph.empty.insertVertex g).transactionsInOrder
      = List.range ((Ledger.empty.moveSpend g (0, 0)).nextNonce.get a)
    rw [horder, hnonce]
    simp [ownNonces, hsender]
  · change shareCost ≤ Tally.get (Tally.set _ a _) a
    rw [Tally.get_set_self]
    simp only []
    rw [hbal]
    decide

/-- Every tick of a run that starts on an empty node attaches a share, and the dust is credited by
the first alone. -/
theorem miner_run (hd₀ : withGenesis P = some d₀) (hnull : d₀.genesisIdOr ≠ nullParent)
    (hw : w.Signs P)
    (hkey : w.pub.address P ≠ (LatticeKeyPair.fromSeed P genesisSeed).pub.address P)
    (t : MinerTick) (calls : List PhoneCall) (hok : PhoneCallsOk P w .new (.tick t :: calls)) :
    ∃ d outs, phoneRun P .new (.tick t :: calls) = some (d, outs)
      ∧ (d.vertexCount < txHalvingInterval → ∃ first later, outs = first :: later
        ∧ first.status = .attached ∧ first.faucetCredited = shareCost
        ∧ ∀ out ∈ later, out.status = .attached ∧ out.faucetCredited = 0) := by
  obtain ⟨⟨d₁, created⟩, hens, rfl⟩ := Option.map_eq_some_iff.1 hd₀
  obtain ⟨⟨rfl, hhost, hnew⟩, hrest⟩ := hok
  obtain ⟨hone, hdust, hm⟩ := mines_withGenesis hd₀ hnull hkey
  simp only [] at hd₀ hone hdust hm
  have hframe := (d₁.creditAccount_frame (t.wallet.pub.address P) shareCost).1
  have hcount₁ : (d₁.creditAccount (t.wallet.pub.address P) shareCost).vertexCount = 1 := by
    rw [vertexCount_credit, hone]
  obtain ⟨d₂, out, htick, hm', hcount, hstatus, hcredited⟩ := hm.tick hd₀ hens (by rw [hdust]) rfl
    hw hhost (fun tx htx => by
      rw [composeAndSign_credit] at htx
      rw [hframe]
      exact hnew d₁ created tx hens htx) (by rw [hcount₁]; decide)
  have hexec : phoneExec P .new (.tick t) = some (d₂, [out]) := by
    rw [phoneExec, htick]
    rfl
  rw [hcount₁] at hcount
  obtain ⟨d, outs, hrun, -⟩ := phoneRun_some (P := P) calls (d := d₂) (by omega)
  refine ⟨d, out :: outs, ?_, fun hera => ⟨out, outs, rfl, hstatus, hcredited.trans hdust, ?_⟩⟩
  · rw [phoneRun_cons hexec, hrun]
    rfl
  · exact attached_phoneRun hd₀ hw calls hm' hcount.ge (hrest d₂ [out] hexec) hrun hera

end Phone

/-! ## Two shares around a stray vertex -/

section

open StandIn

/-- A spend of an empty wallet, which is stored aside. -/
def strayTransfer : DagTransaction :=
  transfer 12534542786466 5 genesisId genesisId (address 2) 1000 0

def strayDag : KronDAG := (acceptAdmitted minedDag strayTransfer).1

/-- The second share, on top of the first and of the stray vertex. -/
def nextShare : DagTransaction :=
  transfer 10684978230659 1 12534535901862 12534542786466 (address 2) 1 1

def nextDag : KronDAG := (attachAdmitted strayDag nextShare).1

def strayCalls : List PhoneCall := [.tick shareTick, .accept strayTransfer, .tick shareTick]

theorem ensureGenesis_new :
    ∃ created, KronDAG.ensureGenesis primitives .new = some (genesisDag, created) := by
  have h := withGenesis_genesisDag
  unfold KronDAG.withGenesis at h
  obtain ⟨⟨d, created⟩, hens, rfl⟩ := Option.map_eq_some_iff.1 h
  exact ⟨created, hens⟩

theorem phoneExec_shareTick : ∃ out,
    phoneExec primitives .new (.tick shareTick) = some (minedDag, [out]) := by
  have hdust : genesisDag.firstShareDust (address 1) = 1001 := by decide
  have hcredit : genesisDag.creditAccount (address 1) 1001 = fundedDag 1 1001 := rfl
  have hbal : ¬ (fundedDag 1 1001).balance (address 1) < shareCost := by decide
  rw [← sender_shareTick] at hdust hcredit hbal
  obtain ⟨created, hens⟩ := ensureGenesis_new
  obtain ⟨out, hout, -⟩ := KronDAG.minerTick_of_attached hens
    (by rw [hdust, hcredit]) (by decide) hbal composeAndSign_shareTick attach_shareTick
  exact ⟨out, by rw [phoneExec, hout]; rfl⟩

theorem id_strayTransfer : strayTransfer.BearsHash primitives := by
  unfold DagTransaction.BearsHash
  decide

theorem accept_strayTransfer : minedDag.acceptWireVertex primitives strayTransfer
    = acceptAdmitted minedDag strayTransfer := accept_transfer (by decide)

theorem id_nextShare :
    DagTransaction.computeId primitives nextShare.unsignedBytes = nextShare.id := by
  decide

theorem composeAndSign_strayDag : strayDag.composeAndSign primitives shareTick.chance
    shareTick.wallet shareTick.dest 1 = .ok nextShare := by
  have hpar : strayDag.selectParents shareTick.chance = (12534535901862, 12534542786466) := by
    decide
  have hnonce : UInt64.ofNat (strayDag.nextNonce.get (address 1)) = 1 := by decide
  rw [KronDAG.composeAndSign_of_selectParents hpar, sender_shareTick, hnonce]
  exact userTransfer_eq 1 _ _ (address 2) 1 1 id_nextShare

theorem attach_strayDag : strayDag.attachAndVerifyFor primitives shareTick.host nextShare
    shareTick.device = (nextDag, .ok ()) :=
  attachFor_shareTick (attach_transfer (by decide)) (by decide)

theorem phoneExec_strayDag : ∃ out,
    phoneExec primitives strayDag (.tick shareTick) = some (nextDag, [out]) := by
  have hens : strayDag.ensureGenesis primitives = some (strayDag, false) :=
    KronDAG.ensureGenesis_of_ne (List.ne_nil_of_length_pos (by decide))
  have hdust : strayDag.firstShareDust (address 1) = 0 := by decide
  have hbal : ¬ strayDag.balance (address 1) < shareCost := by decide
  rw [← sender_shareTick] at hdust hbal
  obtain ⟨out, hout, -⟩ := KronDAG.minerTick_of_attached hens (by rw [hdust]; rfl) (by decide) hbal
    composeAndSign_strayDag attach_strayDag
  exact ⟨out, by rw [phoneExec, hout]; rfl⟩

/-- What is stored when the second share is composed has another hash than it. -/
theorem noCollision_nextShare : strayDag.NoCollision primitives nextShare := by
  intro x v hl hcol
  have hall : ∀ e ∈ strayDag.vertices.entries,
      DagTransaction.computeId primitives e.2.unsignedBytes ≠ nextShare.id := by
    decide
  rw [id_nextShare] at hcol
  exact absurd hcol (hall ⟨x, v⟩ (AList.mem_lookup_iff.1 hl))

theorem noCollision_shareTransfer : genesisDag.NoCollision primitives shareTransfer := by
  intro x v hl hcol
  obtain ⟨-, rfl⟩ := Graph.lookup_insertVertex_empty hl
  exact absurd hcol (by decide)

theorem strayCalls_ok : PhoneCallsOk primitives shareTick.wallet .new strayCalls := by
  refine ⟨⟨rfl, rfl, fun d₁ created tx hens htx => ?_⟩, fun d outs hexec => ?_⟩
  · obtain ⟨created', hens'⟩ := ensureGenesis_new
    rw [hens'] at hens
    cases hens
    have hcredit : genesisDag.creditAccount (address 1) 1001 = fundedDag 1 1001 := rfl
    rw [← KronDAG.composeAndSign_credit genesisDag (address 1) 1001, hcredit,
      composeAndSign_shareTick] at htx
    cases htx
    exact ⟨noCollision_shareTransfer, by decide⟩
  obtain ⟨out, hexec'⟩ := phoneExec_shareTick
  rw [hexec'] at hexec
  cases hexec
  refine ⟨⟨?_, id_strayTransfer, by decide, ?_⟩, fun d outs hexec => ?_⟩
  · rw [sender_shareTick]
    decide
  · rw [accept_strayTransfer]
    decide
  rw [phoneExec, accept_strayTransfer] at hexec
  cases hexec
  refine ⟨⟨rfl, rfl, fun d₁ created tx hens htx => ?_⟩, fun _ _ _ => trivial⟩
  rw [KronDAG.ensureGenesis_of_ne (List.ne_nil_of_length_pos (by decide))] at hens
  cases hens
  have htx : strayDag.composeAndSign primitives shareTick.chance shareTick.wallet shareTick.dest 1
      = .ok tx := htx
  rw [composeAndSign_strayDag] at htx
  cases htx
  exact ⟨noCollision_nextShare, by decide⟩

theorem phoneRun_strayCalls :
    ∃ outs, phoneRun primitives .new strayCalls = some (nextDag, outs) := by
  obtain ⟨out, h₁⟩ := phoneExec_shareTick
  obtain ⟨out', h₃⟩ := phoneExec_strayDag
  have h₂ : phoneExec primitives minedDag (.accept strayTransfer) = some (strayDag, []) := by
    rw [phoneExec, accept_strayTransfer]
    rfl
  rw [strayCalls, phoneRun_cons h₁, phoneRun_cons h₂, phoneRun_cons h₃]
  exact ⟨_, rfl⟩

theorem miner_run_strayCalls : ∃ outs, phoneRun primitives .new strayCalls = some (nextDag, outs)
    ∧ ∀ out ∈ outs, out.status = .attached := by
  have hnull : genesisDag.genesisIdOr ≠ nullParent := by decide
  have hw : shareTick.wallet.Signs primitives := signs_fromSeed _
  have hkey : shareTick.wallet.pub.address primitives
      ≠ (LatticeKeyPair.fromSeed primitives genesisSeed).pub.address primitives := by
    rw [sender_shareTick, address_fromSeed]
    decide
  obtain ⟨d, outs, hrun, hall⟩ := miner_run withGenesis_genesisDag hnull hw hkey shareTick
    [.accept strayTransfer, .tick shareTick] strayCalls_ok
  obtain ⟨outs', hlast⟩ := phoneRun_strayCalls
  obtain ⟨hd, -⟩ := Prod.ext_iff.1 (Option.some.inj (hrun.symm.trans hlast))
  obtain rfl : d = nextDag := hd
  obtain ⟨first, later, rfl, hfirst, -, hlater⟩ := hall (by decide)
  refine ⟨_, hrun, fun out hout => ?_⟩
  rcases List.mem_cons.1 hout with rfl | hout
  · exact hfirst
  · exact (hlater out hout).1

end

end KronMesh
