import KronMesh.Calls
import KronMesh.Conservation
import KronMesh.Range

/-!
# The ledger is explained by the graph

A node keeps its ledger up in two ways, vertex by vertex as they are attached and by a rebuild from
nothing, with faucet credits in between. As long as no call fails, both agree: the ledger is the
one a replay of the applied vertices from the present faucet leads to (`replay_explains_run`), but
for the nonce of the protocol key, which the genesis vertex uses and no replay does.

A credit commutes with the vertices before it (`Book.all_credit`), an attached vertex is the last of
the replay, and a rebuild is a replay.
-/

namespace KronMesh

open Word Outcome

namespace Book

variable {P : Primitives} {b b' c c' : Book} {tx : DagTransaction}

/-- A faucet credit. -/
def credit (b : Book) (a : Address) (n : ℕ) : Book :=
  { b with balance := fun x => b.balance x + if x = a then n else 0 }

theorem apply_credit (h : b.apply P tx = some b') (a : Address) (n : ℕ) :
    (b.credit a n).apply P tx = some (b'.credit a n) := by
  obtain ⟨⟨hn, hle⟩, rfl⟩ := apply_eq_some.1 h
  refine apply_eq_some.2 ⟨⟨hn, hle.trans (Nat.le_add_right _ _)⟩, ?_⟩
  refine Book.ext (funext fun x => ?_) rfl rfl rfl rfl
  have hgain : (b.credit a n).gain P tx x = b.gain P tx x := rfl
  simp only [enter]
  rw [hgain]
  simp only [credit]
  by_cases hx : x = tx.sender
  · subst hx
    simp only [if_true]
    omega
  · simp only [if_neg hx]
    omega

/-- A credit could as well have come before the vertices. -/
theorem all_credit (a : Address) (n : ℕ) : ∀ (txs : List DagTransaction) {b b' : Book},
    Replay.all (Book.apply P) b txs = some b' →
      Replay.all (Book.apply P) (b.credit a n) txs = some (b'.credit a n)
  | [], b, b', h => by
    cases h
    rfl
  | tx :: txs, b, b', h => by
    obtain ⟨b₁, h₁, h⟩ := Option.bind_eq_some_iff.1 h
    rw [Replay.all, apply_credit h₁, Option.bind_some]
    exact all_credit a n txs h

/-- The books agree but for the nonce of `key`. -/
structure EqOff (key : Address) (b c : Book) : Prop where
  balance : b.balance = c.balance
  nonce : ∀ a, a ≠ key → b.nonce a = c.nonce a
  relayCredit : b.relayCredit = c.relayCredit
  supply : b.supply = c.supply
  count : b.count = c.count

/-- A vertex of another sender keeps the agreement. -/
theorem EqOff.apply {key : Address} (h : b.EqOff key c) (hs : tx.sender ≠ key)
    (hb : b.apply P tx = some b') : ∃ c', c.apply P tx = some c' ∧ b'.EqOff key c' := by
  obtain ⟨⟨hn, hle⟩, rfl⟩ := apply_eq_some.1 hb
  rw [h.nonce _ hs] at hn
  rw [h.balance] at hle
  refine ⟨_, apply_eq_some.2 ⟨⟨hn, hle⟩, rfl⟩, ?_⟩
  have hsplit : b.split P tx = c.split P tx := by
    unfold split subsidy
    rw [h.count, h.supply]
  refine ⟨funext fun a => ?_, fun a ha => ?_, funext fun a => ?_, ?_, ?_⟩
  · simp only [enter, gain, hsplit, h.balance]
  · simp only [enter, h.nonce a ha]
  · simp only [enter, hsplit, h.relayCredit]
  · simp only [enter, subsidy, h.supply, h.count]
  · simp only [enter, h.count]

/-- Relay credits and the count only grow. -/
theorem all_mono : ∀ (txs : List DagTransaction) {b b' : Book},
    Replay.all (Book.apply P) b txs = some b' →
      (∀ a, b.relayCredit a ≤ b'.relayCredit a) ∧ b.count ≤ b'.count
  | [], b, b', h => by
    cases h
    exact ⟨fun _ => Nat.le_refl _, Nat.le_refl _⟩
  | tx :: txs, b, b', h => by
    obtain ⟨b₁, h₁, h⟩ := Option.bind_eq_some_iff.1 h
    obtain ⟨-, rfl⟩ := apply_eq_some.1 h₁
    obtain ⟨hr, hc⟩ := all_mono txs h
    exact ⟨fun a => (Nat.le_add_right _ _).trans (hr a), (Nat.le_add_right _ _).trans hc⟩

end Book

namespace Ledger

variable {P : Primitives} {l : Ledger}

/-- `apply_ledger_effects` along a list, to the first error. -/
def applyAll (P : Primitives) : Ledger → List DagTransaction → Outcome Ledger DagError
  | l, [] => (l, .ok ())
  | l, tx :: txs => andThen (l.applyLedgerEffects P tx) fun l => applyAll P l txs

/-- What the book takes, the ledger takes, as long as the faucet leaves room for the cap and the
book at the end is in range. -/
theorem applyAll_isOk {F : ℕ} (hF : F + hardCap ≤ u64Max) : ∀ (txs : List DagTransaction)
    {l : Ledger} {b : Book}, Replay.all (Book.apply P) l.book txs = some b →
      l.total = F + l.currentSupply → l.OnSchedule → (∀ a, b.relayCredit a ≤ u64Max) →
      b.count ≤ u64Max → ∃ l', l.applyAll P txs = (l', .ok ()) ∧ l'.book = b
  | [], l, b, h, _, _, _, _ => by
    cases h
    exact ⟨l, rfl, rfl⟩
  | tx :: txs, l, b, h, ht, hsch, hr, hc => by
    obtain ⟨b₁, h₁, h⟩ := Option.bind_eq_some_iff.1 h
    obtain ⟨hcov, he⟩ := Book.apply_eq_some.1 h₁
    obtain ⟨hmr, hmc⟩ := Book.all_mono txs h
    have hsup : l.currentSupply + l.book.subsidy ≤ hardCap :=
      add_getCurrentTxSubsidy_le (hsch.le.trans (emitted_le _))
    have hcount : l.dagTxCount + 1 ≤ u64Max := by
      rw [← he] at hmc
      exact hmc.trans hc
    obtain ⟨l₁, hl₁⟩ := applyLedgerEffects_isOk (P := P) hcov (by omega)
      (fun a => by
        rw [← he] at hmr
        exact (hmr a).trans (hr a))
      (by omega) hcount
    have hbook := book_applyLedgerEffects hl₁
    rw [h₁] at hbook
    obtain rfl : b₁ = l₁.book := Option.some.inj hbook
    have ht₁ := (total_applyLedgerEffects hl₁).1
    have hs₁ : l₁.currentSupply = l.currentSupply + l.book.subsidy :=
      (congrArg Book.supply he).symm
    have hsch₁ : (l.applyLedgerEffects P tx).1.OnSchedule := onSchedule_applyLedgerEffects hsch
    rw [hl₁] at hsch₁
    obtain ⟨l', hl', hb'⟩ := applyAll_isOk hF txs h (by omega) hsch₁ hr hc
    exact ⟨l', by rw [applyAll, hl₁, andThen_ok, hl'], hb'⟩

end Ledger

/-! ## Along a run -/

namespace KronDAG

variable {P : Primitives} {d d' : KronDAG} {tx : DagTransaction} {key : Address}

/-- The ledger is the replay of the applied vertices, but for the nonce of `key`. -/
structure Explained (P : Primitives) (key : Address) (d : KronDAG) : Prop extends d.WF where
  total : d.toLedger.total = d.faucetTotal + d.currentSupply
  replay : ∃ b, Replay.all (Book.apply P) d.baseBook d.applied = some b ∧ d.book.EqOff key b

/-- The applied vertices, and with them the replay, are a matter of graph and conflicts. -/
theorem applied_congr (hg : d'.toGraph = d.toGraph) (hc : d'.conflicts = d.conflicts) :
    d'.applied = d.applied := by
  unfold applied appliedAt isConflict
  rw [hg, hc]

/-- A vertex put into the graph, with the conflicts as they were, is the last of those applied. -/
theorem applied_insertVertex (hd : d.WF) (hcheck : d.checkVertex P tx = .ok ())
    (hg : d'.toGraph = d.toGraph.insertVertex tx) (hc : d'.conflicts = d.conflicts) :
    d'.applied = d.applied ++ [tx] := by
  have hnew := (Graph.checkVertex_ok hcheck).1
  have hgen := hd.graph.not_isGenesis hcheck
  have hnc : d.isConflict tx.id = false :=
    hd.isConflict_of_not_contains (Graph.contains_eq_false.2 hnew)
  have hlast : d'.appliedAt tx.id = some tx := by
    refine appliedAt_eq_some.2 ⟨?_, ?_, hgen⟩
    · unfold isConflict
      rw [hc]
      exact hnc
    · rw [hg, Graph.lookup_insertVertex, if_pos rfl]
  have hrest : ∀ id ∈ d.attachOrder, d'.appliedAt id = d.appliedAt id := by
    intro id hid
    have hne : id ≠ tx.id := by
      rintro rfl
      have := (hd.graph.mem_order _).1 hid
      rw [hnew] at this
      cases this
    unfold appliedAt isConflict
    rw [hg, hc, Graph.lookup_insertVertex, if_neg hne]
  unfold applied
  rw [hg, Graph.insertVertex_attachOrder, List.filterMap_append, List.filterMap_congr hrest,
    List.filterMap_cons, hlast]
  rfl

theorem applied_attached (hd : d.WF) (hcheck : d.checkVertex P tx = .ok ()) (new : ℕ × ℕ)
    (relays : List Address) : (d.attached tx new relays).1.applied = d.applied ++ [tx] := by
  obtain ⟨hg, -, hc⟩ := d.attached_frame tx new relays
  exact applied_insertVertex hd hcheck hg hc

/-- A credit that does not saturate, read off the books and the sums. -/
theorem creditAccount_effects {a : Address} {n : ℕ} (hb : d.balance a + n ≤ u64Max)
    (hf : d.faucet.get a + n ≤ u64Max) :
    (d.creditAccount a n).book = d.book.credit a n
      ∧ (d.creditAccount a n).baseBook = d.baseBook.credit a n
      ∧ (d.creditAccount a n).toLedger.total = d.toLedger.total + n
      ∧ (d.creditAccount a n).faucetTotal = d.faucetTotal + n := by
  have hget : ∀ (t : Tally Address) x, t.get a + n ≤ u64Max →
      (t.set a (saturatingAdd (t.get a) n)).get x = t.get x + if x = a then n else 0 := by
    intro t x ht
    rw [Tally.get_set, saturatingAdd_of_le ht]
    split_ifs with hx
    · rw [hx]
    · rfl
  have htotal : ∀ t : Tally Address, t.get a + n ≤ u64Max →
      (t.set a (saturatingAdd (t.get a) n)).total = t.total + n := by
    intro t ht
    have h := Tally.total_set t a (saturatingAdd (t.get a) n)
    rw [saturatingAdd_of_le ht] at h ⊢
    omega
  unfold creditAccount
  split_ifs with h0
  · subst h0
    refine ⟨?_, ?_, rfl, rfl⟩ <;> simp [Book.credit]
  · exact ⟨Book.ext (funext fun x => hget d.balances x hb) rfl rfl rfl rfl,
      Book.ext (funext fun x => hget d.faucet x hf) rfl rfl rfl rfl, htotal _ hb, htotal _ hf⟩

theorem explained_credit (h : d.Explained P key) {a : Address} {n : ℕ}
    (hb : d.balance a + n ≤ u64Max) (hf : d.faucet.get a + n ≤ u64Max) :
    (d.creditAccount a n).Explained P key := by
  obtain ⟨hg, hc⟩ := d.creditAccount_frame a n
  obtain ⟨b, hall, heq⟩ := h.replay
  obtain ⟨hbook, hbase, htotal, hfaucet⟩ := creditAccount_effects hb hf
  have hsupply : (d.creditAccount a n).currentSupply = d.currentSupply :=
    congrArg Book.supply hbook
  refine ⟨wf_credit h.toWF a n, ?_, b.credit a n, ?_, ?_⟩
  · rw [htotal, hfaucet, hsupply, h.total]
    omega
  · rw [applied_congr hg hc, hbase]
    exact Book.all_credit a n _ hall
  · rw [hbook]
    exact ⟨by rw [Book.credit, Book.credit, heq.balance], heq.nonce, heq.relayCredit, heq.supply,
      heq.count⟩

theorem explained_attached (h : d.Explained P key) {new : ℕ × ℕ}
    (hcheck : d.checkVertex P tx = .ok ()) (hs : d.checkSpend tx = .ok new)
    (hok : d.attached tx new (tx.provenRelayNodes P) = (d', .ok ())) (hkey : tx.sender ≠ key) :
    d'.Explained P key := by
  obtain ⟨hg, hf, hc⟩ := d.attached_frame tx new (tx.provenRelayNodes P)
  have hgen := h.graph.not_isGenesis hcheck
  have happ := applyLedgerEffects_of_attached hgen hs hok
  have hord := applied_attached h.toWF hcheck new (tx.provenRelayNodes P)
  rw [hok] at hg hf hc hord
  obtain ⟨b, hall, heq⟩ := h.replay
  have hbook := Ledger.book_applyLedgerEffects happ
  obtain ⟨c, hc', heq'⟩ := heq.apply hkey hbook
  refine ⟨⟨?_, fun {id} hid => ?_⟩, ?_, c, ?_, heq'⟩
  · rw [hg]
    exact h.graph.insertVertex hcheck
  · unfold isConflict at hid
    rw [hc] at hid
    rw [hg, Graph.contains_insertVertex, h.conflicts hid, Bool.or_true]
  · have ht := (Ledger.total_applyLedgerEffects happ).1
    have hsup : d'.currentSupply = d.currentSupply + d.book.subsidy := by
      obtain ⟨-, he⟩ := Book.apply_eq_some.1 hbook
      exact (congrArg Book.supply he).symm
    have hF : d'.faucetTotal = d.faucetTotal := congrArg Tally.total hf
    have htot := h.total
    omega
  · have hbase : d'.baseBook = d.baseBook := by
      unfold baseBook baseline
      rw [hf]
    rw [hord, hbase, Replay.all_concat, hall, Option.bind_some]
    exact hc'

theorem explained_resolve (hd : d.toGraph.WF)
    (h : d.resolveConflictsAndRebuildLedger P = (d', .ok ())) : d'.Explained P key := by
  obtain ⟨hbook, happ, -⟩ := resolve_ok hd h
  have hf := (d.resolve_frame (P := P)).2
  rw [h] at hf
  have hbase : d'.baseBook = d.baseBook := by
    unfold baseBook baseline
    rw [hf]
  refine ⟨WF_resolve hd h, ?_, d'.book, ?_, rfl, fun _ _ => rfl, rfl, rfl, rfl⟩
  · have hF : d'.faucetTotal = d.faucetTotal := congrArg Tally.total hf
    rw [hF]
    obtain ⟨l, extra, hr, rfl⟩ := replayLoop_of_resolve h
    refine replayLoop_ok_invariant (P := P) (fun l => l.total = d.faucetTotal + l.currentSupply)
      (fun tx l l' ha hl => ?_) _ hr rfl
    have ht := (Ledger.total_applyLedgerEffects ha).1
    have hsup : l'.currentSupply = l.currentSupply + l.book.subsidy := by
      obtain ⟨-, he⟩ := Book.apply_eq_some.1 (Ledger.book_applyLedgerEffects ha)
      exact (congrArg Book.supply he).symm
    omega
  · rw [happ, hbase, hbook]
    exact Replay.all_kept _ _

/-- A call that does not fail leaves the ledger explained, unless it attaches a vertex of `key`. -/
theorem explained_exec (h : d.Explained P key) {op : Op} (hok : CallOk P d op)
    (hkey : ∀ id tx, (exec P d op).vertices.lookup id = some tx → tx.isGenesis = false →
      tx.sender ≠ key) : (exec P d op).Explained P key := by
  rcases exec_cases_of_callOk h.graph hok with he | ⟨a, n, rfl, he⟩ |
    ⟨tx, new, hcheck, hs, he⟩ | ⟨d₁, hd₁, -, he⟩
  · rwa [he]
  · rw [he]
    exact explained_credit h hok.1 hok.2
  · refine explained_attached h hcheck hs he (hkey tx.id tx ?_ (h.graph.not_isGenesis hcheck))
    have hg := (d.attached_frame tx new (tx.provenRelayNodes P)).1
    rw [he] at hg
    rw [hg, Graph.lookup_insertVertex, if_pos rfl]
  · exact explained_resolve hd₁ he

end KronDAG

/-- The address of the protocol key, which signs the genesis vertex. -/
def genesisKey (P : Primitives) : Address := (LatticeKeyPair.fromSeed P genesisSeed).pub.address P

section Run

variable {P : Primitives} {d : KronDAG}

open KronDAG

theorem applied_withGenesis (h : withGenesis P = some d) : d.applied = [] := by
  obtain ⟨g, -, hgen, -, rfl⟩ := withGenesis_eq h
  refine List.filterMap_eq_nil_iff.2 fun id _ =>
    Option.eq_none_iff_forall_ne_some.2 fun tx htx => ?_
  obtain ⟨-, hl, hng⟩ := appliedAt_eq_some.1 htx
  rw [(Graph.lookup_insertVertex_empty hl).2, hgen] at hng
  cases hng

theorem explained_withGenesis (h : withGenesis P = some d) : d.Explained P (genesisKey P) := by
  have hsound := sound_withGenesis h
  have happ := applied_withGenesis h
  have htotal := hsound.ledger.total
  have hF := faucetTotal_withGenesis h
  refine ⟨wf_withGenesis h, htotal, d.baseBook, by rw [happ]; rfl, ?_⟩
  obtain ⟨g, hsig, -, -, hd⟩ := withGenesis_eq h
  have hledger : d.toLedger = Ledger.empty.moveSpend g (0, 0) := by rw [hd]
  have hkey : g.sender = genesisKey P := (DagTransaction.assemble_fields hsig).2.2.1
  have hfaucet : d.faucet = ∅ := by rw [hd]; rfl
  have hsupply : d.currentSupply = 0 := by rw [hledger]; rfl
  have hbook : ∀ a, d.baseBook.balance a = 0 := by
    intro a
    change Tally.get d.faucet a = 0
    rw [hfaucet, Tally.get_empty]
  refine ⟨funext fun a => ?_, fun a ha => ?_, ?_, hsupply, ?_⟩
  · have hle := d.toLedger.balance_le_total a
    rw [hbook]
    exact Nat.le_zero.1 (hle.trans (by omega))
  · rw [hledger]
    change Tally.get (Ledger.empty.nextNonce.set g.sender _) a = 0
    rw [hkey, Tally.get_set_ne _ _ ha]
    rfl
  · rw [hledger]
    rfl
  · rw [hledger]
    rfl

/-- In every state of a run without a failed call, and with room for the cap, the replay of the
applied vertices goes through and ends in the ledger of the state, but for the nonce of the protocol
key. -/
theorem replay_explains_run (h : withGenesis P = some d) (ops : List Op)
    (hok : CallsOk P d ops) (hF : credited ops + hardCap ≤ u64Max)
    (hkey : ∀ id tx, (run P d ops).vertices.lookup id = some tx → tx.isGenesis = false →
      tx.sender ≠ genesisKey P) :
    ∃ l, (run P d ops).baseline.applyAll P (run P d ops).applied = (l, .ok ())
      ∧ (∀ a, l.balance a = (run P d ops).balance a)
      ∧ (∀ a, a ≠ genesisKey P → l.nextNonce.get a = (run P d ops).nextNonce.get a)
      ∧ (∀ a, l.relayCredits.get a = (run P d ops).relayCredits.get a)
      ∧ l.currentSupply = (run P d ops).currentSupply
      ∧ l.dagTxCount = (run P d ops).dagTxCount := by
  have hexp : (run P d ops).Explained P (genesisKey P) := by
    induction ops using List.reverseRecOn with
    | nil => exact explained_withGenesis h
    | append_singleton ops op ih =>
      obtain ⟨hok, hlast⟩ := (callsOk_concat op ops d).1 hok
      rw [credited_append] at hF
      rw [run_concat] at hkey ⊢
      refine explained_exec (ih hok (by omega) fun id tx hl => ?_) hlast hkey
      exact hkey id tx (lookup_exec op hl)
  have hrange := (inRange_run h ops).ledger
  have hfaucet : (run P d ops).faucetTotal ≤ credited ops := by
    have hle := faucetTotal_run (P := P) (d := d) ops
    have h0 := faucetTotal_withGenesis h
    omega
  obtain ⟨b, hall, heq⟩ := hexp.replay
  obtain ⟨l, hl, rfl⟩ := Ledger.applyAll_isOk (P := P) (l := (run P d ops).baseline)
    (F := (run P d ops).faucetTotal) (by omega) _ hall rfl emitted_zero.symm
    (fun a => heq.relayCredit ▸ hrange.relayCredit a) (heq.count ▸ hrange.count)
  exact ⟨l, hl, fun a => congrFun heq.balance.symm a, fun a ha => (heq.nonce a ha).symm,
    fun a => congrFun heq.relayCredit.symm a, heq.supply.symm, heq.count.symm⟩

open StandIn in
theorem callsOk_firstOps : CallsOk primitives genesisDag firstOps := by
  have h : (fundedDag 1 1000000).acceptWireVertex primitives firstTransfer
      = acceptAdmitted (fundedDag 1 1000000) firstTransfer := accept_transfer (by decide)
  have hok : (acceptAdmitted (fundedDag 1 1000000) firstTransfer).2 ≠ .error .overflow := by
    decide
  refine ⟨⟨by decide, by decide⟩, ?_, trivial⟩
  rw [CallOk, exec_credit]
  change ((fundedDag 1 1000000).acceptWireVertex primitives firstTransfer).2 ≠ _
  rw [h]
  exact hok

open StandIn in
theorem replay_explains_run_firstOps :
    ∃ l, firstDag.baseline.applyAll primitives firstDag.applied = (l, .ok ())
      ∧ ∀ a, l.balance a = firstDag.balance a := by
  have hkey : ∀ e ∈ firstDag.vertices.entries, e.2.isGenesis = false →
      e.2.sender ≠ addressOf genesisSeed := by
    decide
  obtain ⟨l, hl, hb, -⟩ := replay_explains_run withGenesis_genesisDag firstOps callsOk_firstOps
    (by decide) fun id tx hlook hgen => by
      rw [run_firstOps] at hlook
      rw [genesisKey, address_fromSeed]
      exact hkey ⟨id, tx⟩ (AList.mem_lookup_iff.1 hlook) hgen
  rw [run_firstOps] at hl hb
  exact ⟨l, hl, hb⟩

namespace StandIn

def secondTransfer : DagTransaction :=
  transfer 12534537842122 1 genesisId genesisId (address 2) 1000000 1

theorem id_secondTransfer :
    secondTransfer.id = DagTransaction.computeId primitives secondTransfer.unsignedBytes := by
  decide

/-- Two spends from an account near the end of a word, which is then topped up. -/
def topUpOps : List Op :=
  [.credit (address 1) 18446744073708751615, .accept firstTransfer, .accept secondTransfer,
    .credit (address 1) 800000]

def topUpDag : KronDAG :=
  (acceptAll (fundedDag 1 18446744073708751615) [firstTransfer, secondTransfer]).creditAccount
    (address 1) 800000

theorem run_topUpOps : run primitives genesisDag topUpOps = topUpDag
    ∧ CallsOk primitives genesisDag topUpOps := by
  have ht : ∀ tx ∈ [firstTransfer, secondTransfer], IsTransfer tx :=
    List.forall_mem_cons.2
      ⟨isTransfer_transfer .., List.forall_mem_singleton.2 (isTransfer_transfer ..)⟩
  obtain ⟨hrun, hcalls⟩ := @run_transfers _ (fundedDag 1 18446744073708751615) ht (by decide)
  have hops : topUpOps = (.credit (address 1) 18446744073708751615
      :: [firstTransfer, secondTransfer].map .accept) ++ [.credit (address 1) 800000] := rfl
  have hstart : exec primitives genesisDag (.credit (address 1) 18446744073708751615)
      = fundedDag 1 18446744073708751615 := exec_credit ..
  rw [hops, run_concat, callsOk_concat, run_cons, hstart, hrun, exec_credit, CallsOk, hstart]
  exact ⟨rfl, ⟨⟨by decide, by decide⟩, hcalls⟩, by decide, by decide⟩

end StandIn

open StandIn in
/-- The genesis vertex has used a nonce that no replay uses. And a faucet that is topped up to the
end of a word behind two spends leaves no room for the first of them in the replay. -/
theorem replay_misses_ledger :
    (KronDAG.withGenesis primitives = some genesisDag
      ∧ genesisDag.baseline.applyAll primitives genesisDag.applied = (genesisDag.baseline, .ok ())
      ∧ genesisDag.baseline.nextNonce.get (genesisKey primitives)
        ≠ genesisDag.nextNonce.get (genesisKey primitives)) ∧
    (CallsOk primitives genesisDag topUpOps
      ∧ (∀ e ∈ (run primitives genesisDag topUpOps).vertices.entries, e.2.isGenesis = false →
        e.2.sender ≠ genesisKey primitives)
      ∧ ((run primitives genesisDag topUpOps).baseline.applyAll primitives
        (run primitives genesisDag topUpOps).applied).2 = .error .overflow) := by
  have hkey : genesisKey primitives = addressOf genesisSeed := address_fromSeed _
  obtain ⟨hrun, hcalls⟩ := run_topUpOps
  rw [hkey, hrun]
  refine ⟨⟨withGenesis_genesisDag, ?_, by decide⟩, hcalls, by decide, by decide⟩
  have happ : genesisDag.applied = [] := by
    rw [← List.length_eq_zero_iff]
    decide
  rw [happ]
  rfl

end Run

end KronMesh
