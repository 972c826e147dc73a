import KronMesh.Emission
import KronMesh.Value

/-!
# Conservation of value along a run

While the faucet leaves room for the cap, and there are not more vertices than the relay credits
have room for, the balances sum to the faucet and the supply in every state, and no mint overflows
(`sound_run`, `mint_run`). What can still fail is a spend whose amount and fee exceed a word. Such
a vertex is stored like any other, and a rebuild that meets it when its nonce is due ends there
(`resolve_run_iff`), with the ledger half replayed.
-/

namespace KronMesh

open Word Outcome

namespace Ledger

variable {P : Primitives} {l l' : Ledger} {tx : DagTransaction} {F n : ℕ}

/-- The balances are the faucet `F` and the supply, the supply is on schedule, the relays were
credited no more than was paid out, and at most `n` vertices are confirmed. -/
structure Sound (F n : ℕ) (l : Ledger) : Prop where
  total : l.total = F + l.currentSupply
  schedule : l.OnSchedule
  relays : l.relayTotal ≤ l.currentSupply + fixedTransactionFee * l.dagTxCount
  count : l.dagTxCount ≤ n

theorem Sound.mono {m : ℕ} (h : l.Sound F n) (hm : n ≤ m) : l.Sound F m :=
  ⟨h.total, h.schedule, h.relays, h.count.trans hm⟩

/-- There is room in a word for the faucet and the cap, and for what `n` vertices can credit their
relays. -/
structure Room (F n : ℕ) : Prop where
  faucet : F + hardCap ≤ u64Max
  vertices : hardCap + fixedTransactionFee * n ≤ u64Max

/-- Less needs no more room. -/
theorem Room.mono {F' n' : ℕ} (h : Room F n) (hF : F' ≤ F) (hn : n' ≤ n) : Room F' n' :=
  ⟨(Nat.add_le_add_right hF _).trans h.faucet,
    (Nat.add_le_add_left (Nat.mul_le_mul_left _ hn) _).trans h.vertices⟩

theorem Sound.supply_le (h : l.Sound F n) : l.currentSupply + l.book.subsidy ≤ hardCap :=
  add_getCurrentTxSubsidy_le (h.schedule.le.trans (emitted_le _))

/-- In a sound ledger a checked spend is minted for, and the ledger stays sound. -/
theorem Sound.mint (h : l.Sound F n) (hroom : Room F (n + 1))
    (hfee : tx.fee.toNat = fixedTransactionFee) {new : ℕ × ℕ} (hs : l.checkSpend tx = .ok new)
    (relays : List Address) :
    ∃ l', (l.moveSpend tx new).mintConfirmedTx tx.fee.toNat tx.sender relays = (l', .ok ())
      ∧ l'.Sound F (n + 1) := by
  have hsup := h.supply_le
  obtain ⟨htot, hsch, hrel, hcount⟩ := h
  obtain ⟨hF, hn⟩ := hroom
  have hmul : fixedTransactionFee * l.dagTxCount ≤ fixedTransactionFee * n :=
    Nat.mul_le_mul_left _ hcount
  rw [Nat.mul_succ] at hn
  have hfix : 1 ≤ fixedTransactionFee := by decide
  have hn1 : n ≤ fixedTransactionFee * n := Nat.le_mul_of_pos_left _ hfix
  obtain ⟨l', h', ht', hr', hs', hc'⟩ := mint_moveSpend hs relays (by omega) (by omega) (by omega)
    (by omega)
  have hsch' := onSchedule_mintConfirmedTx (l := l.moveSpend tx new) hsch tx.fee.toNat tx.sender
    relays
  rw [h'] at hsch'
  refine ⟨l', h', by omega, hsch', ?_, by omega⟩
  rw [hc', Nat.mul_succ]
  omega

/-- In a sound ledger only a spend that itself exceeds a word overflows. -/
theorem Sound.checkSpend_overflow (h : l.Sound F n) (hF : F + hardCap ≤ u64Max)
    (hs : l.checkSpend tx = .error .overflow) :
    tx.nonce.toNat = l.nextNonce.get tx.sender ∧ u64Max < tx.cost := by
  have hsup := h.supply_le
  rcases checkSpend_cases l tx with ⟨-, h'⟩ | ⟨hn, hc, -⟩ | ⟨-, -, -, h'⟩ |
    ⟨hcov, hc, hne, hlt, -⟩ | ⟨-, -, new, h', -⟩
  · rw [h'] at hs
    cases hs
  · exact ⟨hn, hc⟩
  · rw [h'] at hs
    cases hs
  · have h2 := Tally.get_add_get_le_total l.balances hne
    have hle : tx.amount.toNat + tx.fee.toNat ≤ l.balance tx.sender := hcov.2
    have htot := h.total
    unfold Ledger.total balance at *
    omega
  · rw [h'] at hs
    cases hs

/-- A sound ledger stays sound, whatever a vertex makes of it; it fails only for a vertex that is
due and exceeds a word. -/
theorem Sound.apply (h : l.Sound F n) (hroom : Room F (n + 1))
    (hfee : tx.fee.toNat = fixedTransactionFee) :
    (l.applyLedgerEffects P tx).1.Sound F (n + 1)
      ∧ ((l.applyLedgerEffects P tx).2 = .error .overflow ↔
        tx.nonce.toNat = l.nextNonce.get tx.sender ∧ u64Max < tx.cost) := by
  unfold applyLedgerEffects
  rcases hs : l.checkSpend tx with e | new
  · refine ⟨h.mono (Nat.le_succ n), ?_⟩
    constructor
    · intro he
      cases he
      exact h.checkSpend_overflow hroom.faucet hs
    · rintro ⟨hn, hc⟩
      rcases checkSpend_cases l tx with ⟨hn', -⟩ | ⟨-, -, h'⟩ | ⟨-, hc', -⟩ | ⟨-, hc', -⟩ |
        ⟨-, hc', -⟩
      · exact absurd hn hn'
      · rw [h'] at hs
        cases hs
        rfl
      · exact absurd hc (not_lt.2 hc')
      · exact absurd hc (not_lt.2 hc')
      · exact absurd hc (not_lt.2 hc')
  · obtain ⟨l', hm, hs'⟩ := h.mint hroom hfee hs (tx.provenRelayNodes P)
    simp only [hm, mapErr]
    refine ⟨hs', ?_⟩
    constructor
    · intro he
      cases he
    · rintro ⟨-, hc⟩
      exact absurd (checkSpend_ok hs).2.1 (not_le.2 hc)

end Ledger

namespace KronDAG

variable {P : Primitives} {d d' : KronDAG}

/-- The faucet's credits in all. -/
def faucetTotal (d : KronDAG) : ℕ := Tally.total d.faucet

/-- A sound ledger over a well-formed graph. -/
structure Sound (d : KronDAG) : Prop where
  graph : d.toGraph.WF
  ledger : d.toLedger.Sound d.faucetTotal d.vertexCount

/-- The room a node has. -/
def HasRoom (d : KronDAG) : Prop := Ledger.Room d.faucetTotal d.vertexCount

theorem fee_replayedAt (hd : d.toGraph.WF) {id : TxHash} {tx : DagTransaction}
    (h : d.replayedAt id = some tx) : tx.fee.toNat = fixedTransactionFee := by
  obtain ⟨-, hl, hgen⟩ := Graph.replayedAt_eq_some.1 h
  exact (hd.fee hl).trans (DagTransaction.requiredFee_of hgen)

theorem vertexCount_step (h : Step P d d') : d.vertexCount ≤ d'.vertexCount := by
  rcases step_graph h with he | ⟨tx, ha, he⟩
  · unfold vertexCount
    rw [he]
  · unfold vertexCount
    rw [he, Graph.length_entries_insertVertex (Graph.checkVertex_ok ha).1]
    exact Nat.le_succ _

theorem vertexCount_attached {tx : DagTransaction} (h : d.checkVertex P tx = .ok ())
    (new : ℕ × ℕ) (relays : List Address) :
    (d.attached tx new relays).1.vertexCount = d.vertexCount + 1 := by
  unfold vertexCount
  rw [(d.attached_frame tx new relays).1,
    Graph.length_entries_insertVertex (Graph.checkVertex_ok h).1]

theorem vertexCount_resolve (d : KronDAG) :
    (d.resolveConflictsAndRebuildLedger P).1.vertexCount = d.vertexCount := by
  unfold vertexCount
  rw [d.resolve_frame.1]

theorem faucet_step (h : Step P d d') : d'.faucet = d.faucet := by
  cases h with
  | attach tx new ha hs => exact (d.attached_frame tx new _).2.1
  | store tx relayOf ha => rfl
  | rebuild => exact d.resolve_frame.2

theorem vertexCount_credit (d : KronDAG) (a : Address) (n : ℕ) :
    (d.creditAccount a n).vertexCount = d.vertexCount := by
  unfold vertexCount
  rw [(d.creditAccount_frame a n).1]

/-- A credit adds to the faucet what it adds, or less where a word ends. -/
theorem faucetTotal_credit (d : KronDAG) (a : Address) (n : ℕ) :
    (d.creditAccount a n).faucetTotal ≤ d.faucetTotal + n := by
  unfold creditAccount
  split_ifs with h0
  · exact Nat.le_add_right _ _
  · have h := Tally.total_set d.faucet a (saturatingAdd (d.faucet.get a) n)
    unfold faucetTotal
    simp only []
    unfold saturatingAdd at *
    omega

/-- A credit within room is not cut. -/
theorem faucetTotal_credit_eq (d : KronDAG) (a : Address) (n : ℕ)
    (h : (d.creditAccount a n).faucetTotal + hardCap ≤ u64Max) :
    (d.creditAccount a n).faucetTotal = d.faucetTotal + n := by
  have hcap : 0 < hardCap := by decide
  unfold creditAccount at *
  split_ifs at * with h0
  · rw [h0, Nat.add_zero]
  · have ht := Tally.total_set d.faucet a (saturatingAdd (d.faucet.get a) n)
    have hle := Tally.get_le_total (d.faucet.set a (saturatingAdd (d.faucet.get a) n)) a
    rw [Tally.get_set_self] at hle
    unfold faucetTotal at *
    simp only [] at *
    unfold saturatingAdd at *
    omega

theorem sound_credit (d : KronDAG) (a : Address) (n : ℕ) (hroom : (d.creditAccount a n).HasRoom)
    (h : d.Sound) : (d.creditAccount a n).Sound := by
  have hF := faucetTotal_credit_eq d a n hroom.faucet
  obtain ⟨hg, htot, hsch, hrel, hcount⟩ := h
  have hsup := hsch.le.trans (emitted_le _)
  refine ⟨?_, ?_, onSchedule_credit hsch a n, ?_, ?_⟩
  · rw [(d.creditAccount_frame a n).1]
    exact hg
  · have hr := hroom.faucet
    rw [hF] at hr ⊢
    unfold creditAccount
    split_ifs with h0
    · rw [htot, h0, Nat.add_zero]
    · have ht := Tally.total_set d.balances a (saturatingAdd (d.balance a) n)
      have hle := Tally.get_le_total d.balances a
      have hsat : saturatingAdd (d.balance a) n = d.balance a + n := by
        apply saturatingAdd_of_le
        unfold Ledger.balance Ledger.total at *
        omega
      rw [hsat] at ht ⊢
      unfold Ledger.total Ledger.balance at *
      simp only []
      omega
  · unfold creditAccount
    split_ifs <;> exact hrel
  · rw [vertexCount_credit]
    unfold creditAccount
    split_ifs <;> exact hcount

/-- The ledger a rebuild starts from is sound, with no vertex confirmed. -/
theorem sound_baseline (d : KronDAG) : d.baseline.Sound d.faucetTotal 0 :=
  ⟨rfl, emitted_zero.symm, Nat.zero_le _, Nat.le_refl 0⟩

/-- A replay keeps the ledger sound at every place, also where it ends in an error. -/
theorem sound_replayLoop (hd : d.toGraph.WF) (hroom : d.HasRoom) :
    (replayLoop P d.vertices d.winnerOf d.baseline [] d.attachOrder).1.Sound d.faucetTotal
      d.vertexCount := by
  have hlen : d.attachOrder.length = d.vertexCount := hd.length
  have hloop := replayLoop_invariant (P := P) (g := d.toGraph)
    (fun k l => k ≤ d.vertexCount → l.Sound d.faucetTotal k)
    (fun k l h hk => (h (by omega)).mono (Nat.le_succ k))
    (fun k id tx l hr h hk => by
      have hr' : Ledger.Room d.faucetTotal (k + 1) := hroom.mono le_rfl hk
      exact ((h (by omega)).apply hr' (fee_replayedAt hd hr)).1)
    d.attachOrder 0 d.baseline [] fun _ => d.sound_baseline
  rw [Nat.zero_add, hlen] at hloop
  exact hloop (Nat.le_refl _)

theorem sound_step (h : Step P d d') (hroom : d'.HasRoom) (hd : d.Sound) : d'.Sound := by
  have hg := step_graphWF hd.graph h
  have hF : d'.faucetTotal = d.faucetTotal := congrArg Tally.total (faucet_step h)
  refine ⟨hg, ?_⟩
  unfold HasRoom at hroom
  rw [hF] at hroom ⊢
  cases h with
  | attach tx new ha hs =>
    have hgen := hd.graph.not_isGenesis ha
    have hfee := (Graph.checkVertex_ok ha).2.2.1.trans (DagTransaction.requiredFee_of hgen)
    rw [vertexCount_attached ha] at hroom ⊢
    obtain ⟨l', hm, hl'⟩ := hd.ledger.mint hroom hfee hs (tx.provenRelayNodes P)
    unfold attached onLedger
    simp only [hgen, if_true, mapErr_fst, hm]
    exact hl'
  | store tx relayOf ha => exact hd.ledger.mono (vertexCount_step (.store d tx relayOf ha))
  | rebuild =>
    rw [vertexCount_resolve] at hroom ⊢
    rw [d.resolve_toLedger]
    exact sound_replayLoop hd.graph hroom

end KronDAG

section Run

variable {P : Primitives} {d : KronDAG}

open KronDAG

theorem sound_withGenesis (h : withGenesis P = some d) : d.Sound := by
  refine ⟨Graph.WF_withGenesis h, ?_⟩
  obtain ⟨g, hg, -, -, rfl⟩ := withGenesis_eq h
  have hgen := signedGenesisTx_ok hg
  have hmove := Ledger.total_moveSpend (checkSpend_genesis hgen.2)
  rw [hgen.2.2.2.1] at hmove
  exact ⟨hmove, emitted_zero.symm, Nat.zero_le _, Nat.zero_le _⟩

theorem faucetTotal_withGenesis (h : withGenesis P = some d) : d.faucetTotal = 0 := by
  obtain ⟨g, -, -, -, rfl⟩ := withGenesis_eq h
  rfl

/-- A run's faucet holds no more than the run credits. -/
theorem faucetTotal_run (ops : List Op) :
    (run P d ops).faucetTotal ≤ d.faucetTotal + credited ops := by
  induction ops using List.reverseRecOn with
  | nil => exact Nat.le_refl _
  | append_singleton ops op ih =>
    rw [run_concat, credited_append]
    rcases exec_cases (P := P) (run P d ops) op with ⟨a, n, rfl, he⟩ | ⟨h0, hs⟩
    · rw [he]
      have h := faucetTotal_credit (run P d ops) a n.toNat
      simp only [credited]
      omega
    · have hf : (exec P (run P d ops) op).faucetTotal = (run P d ops).faucetTotal := by
        unfold faucetTotal
        generalize exec P (run P d ops) op = d' at hs
        induction hs with
        | refl => rfl
        | tail _ hs ih => rw [faucet_step hs, ih]
      rw [hf]
      omega

/-- Every run within room keeps a node sound. -/
theorem KronDAG.Sound.run (hd : d.Sound) (ops : List Op) (hroom : (run P d ops).HasRoom) :
    (run P d ops).Sound := by
  refine run_invariant_of (P := P) Sound HasRoom ?_ ?_ ?_ ?_ ops hd hroom
  · intro d a n hr
    have hF := faucetTotal_credit_eq d a n.toNat hr.faucet
    have h1 := hr.faucet
    have h2 := hr.vertices
    rw [vertexCount_credit] at h2
    exact ⟨by omega, h2⟩
  · intro d d' hs hr
    have hF : d'.faucetTotal = d.faucetTotal := congrArg Tally.total (faucet_step hs)
    exact hr.mono hF.ge (vertexCount_step hs)
  · exact fun d a n hr hd => sound_credit d a n.toNat hr hd
  · exact fun d d' hs hr hd => sound_step hs hr hd

/-- Every run within room leaves a sound node. -/
theorem sound_run (h : withGenesis P = some d) (ops : List Op) (hroom : (run P d ops).HasRoom) :
    (run P d ops).Sound :=
  (sound_withGenesis h).run ops hroom

/-- The room of a run, from what it credits and what it stores. -/
theorem hasRoom_run (h : withGenesis P = some d) (ops : List Op)
    (hF : credited ops + hardCap ≤ u64Max)
    (hn : hardCap + fixedTransactionFee * (run P d ops).vertexCount ≤ u64Max) :
    (run P d ops).HasRoom := by
  have hf := faucetTotal_run (P := P) (d := d) ops
  have h0 := faucetTotal_withGenesis h
  exact ⟨by omega, hn⟩

end Run

/-! ## The mints of a call -/

/-- A call of `mint_confirmed_tx`. -/
structure MintCall where
  ledger : Ledger
  fee : ℕ
  miner : Address
  relayNodes : List Address

def MintCall.outcome (c : MintCall) : Outcome Ledger EconomicError :=
  c.ledger.mintConfirmedTx c.fee c.miner c.relayNodes

section MintCalls

variable (P : Primitives)

/-- The mint of a vertex on a ledger: it has one once its spend is checked. -/
def spendMints (l : Ledger) (tx : DagTransaction) : List MintCall :=
  match l.checkSpend tx with
  | .error _ => []
  | .ok new => [⟨l.moveSpend tx new, tx.fee.toNat, tx.sender, tx.provenRelayNodes P⟩]

/-- The mints of a replay, up to the error that ends it. -/
def replayMints (g : Graph) : Ledger → List TxHash → List MintCall
  | _, [] => []
  | l, id :: order =>
    match g.replayedAt id with
    | none => replayMints g l order
    | some tx =>
      spendMints P l tx ++
        match l.applyLedgerEffects P tx with
        | (_, .error .overflow) => []
        | (l, _) => replayMints g l order

def rebuildMints (d : KronDAG) : List MintCall := replayMints P d.toGraph d.baseline d.attachOrder

def attachMints (d : KronDAG) (tx : DagTransaction) : List MintCall :=
  match d.checkVertex P tx with
  | .error _ => []
  | .ok () => if tx.isGenesis then [] else spendMints P d.toLedger tx

def acceptMints (d : KronDAG) (tx : DagTransaction) : List MintCall :=
  match d.checkVertex P tx, d.checkSpend tx with
  | .error _, _ => []
  | .ok (), .ok _ => attachMints P d tx
  | .ok (), .error .overflow => []
  | .ok (), .error _ => rebuildMints P { d with toGraph := d.toGraph.insertVertex tx }

def mergeMints (d : KronDAG) (incomingTxs : List DagTransaction) (relayNodeId : Address) :
    List MintCall :=
  match topoOrderIncoming d.toGraph incomingTxs with
  | .error _ => []
  | .ok ordered =>
    match KronDAG.mergeLoop P relayNodeId d 0 ordered with
    | (_, .error _) => []
    | (d, .ok inserted) => if 0 < inserted then rebuildMints P d else []

/-- The mints a call makes, in their order. -/
def mintCalls (d : KronDAG) : Op → List MintCall
  | .credit _ _ => []
  | .attach host tx device =>
    match device.admitHost host with
    | .error _ => []
    | .ok () => attachMints P d tx
  | .accept tx => acceptMints P d tx
  | .merge incomingTxs relayNodeId => mergeMints P d incomingTxs relayNodeId
  | .rebuild => rebuildMints P d

end MintCalls

section

variable {P : Primitives} {d : KronDAG} {tx : DagTransaction}

theorem spendMints_ok {l : Ledger} {F n : ℕ} (h : l.Sound F n) (hroom : Ledger.Room F (n + 1))
    (hfee : tx.fee.toNat = fixedTransactionFee) :
    ∀ c ∈ spendMints P l tx, c.outcome.2 = .ok () := by
  unfold spendMints
  rcases hs : l.checkSpend tx with e | new
  · intro c hc
    cases hc
  · intro c hc
    obtain ⟨l', hm, -⟩ := h.mint hroom hfee hs (tx.provenRelayNodes P)
    rw [List.mem_singleton.1 hc]
    exact congrArg Prod.snd hm

theorem replayMints_ok (hd : d.toGraph.WF) (hroom : d.HasRoom) :
    ∀ (order : List TxHash) (k : ℕ) (l : Ledger), l.Sound d.faucetTotal k →
      k + order.length ≤ d.vertexCount →
        ∀ c ∈ replayMints P d.toGraph l order, c.outcome.2 = .ok ()
  | [], _, _, _, _ => fun c hc => by cases hc
  | id :: order, k, l, hl, hk => by
    intro c hc
    rw [List.length_cons] at hk
    unfold replayMints at hc
    rcases hr : d.replayedAt id with _ | tx
    · rw [hr] at hc
      exact replayMints_ok hd hroom order k l hl (by omega) c hc
    · have hr' : Ledger.Room d.faucetTotal (k + 1) := hroom.mono le_rfl (by omega)
      have hfee := KronDAG.fee_replayedAt hd hr
      rw [hr] at hc
      simp only [List.mem_append] at hc
      rcases hc with hc | hc
      · exact spendMints_ok hl hr' hfee c hc
      · have happ := (hl.apply (P := P) hr' hfee).1
        rcases ha : l.applyLedgerEffects P tx with ⟨l', e | ⟨⟨⟩⟩⟩
        · rw [ha] at hc happ
          by_cases he : e = .overflow
          · subst he
            cases hc
          · have hc' : c ∈ replayMints P d.toGraph l' order := by
              cases e <;> first | exact hc | exact absurd rfl he
            exact replayMints_ok hd hroom order (k + 1) l' happ (by omega) c hc'
        · rw [ha] at hc happ
          exact replayMints_ok hd hroom order (k + 1) l' happ (by omega) c hc

theorem rebuildMints_ok (hd : d.toGraph.WF) (hroom : d.HasRoom) :
    ∀ c ∈ rebuildMints P d, c.outcome.2 = .ok () :=
  replayMints_ok hd hroom d.attachOrder 0 d.baseline d.sound_baseline
    ((Nat.zero_add _).trans hd.length).le

theorem hasRoom_resolve : (d.resolveConflictsAndRebuildLedger P).1.HasRoom ↔ d.HasRoom := by
  unfold KronDAG.HasRoom KronDAG.vertexCount KronDAG.faucetTotal
  rw [d.resolve_frame.1, d.resolve_frame.2]

theorem attachMints_ok (hd : d.Sound) {new : ℕ × ℕ} (ha : d.checkVertex P tx = .ok ())
    (hroom : (d.attached tx new (tx.provenRelayNodes P)).1.HasRoom) :
    ∀ c ∈ attachMints P d tx, c.outcome.2 = .ok () := by
  have hgen := hd.graph.not_isGenesis ha
  unfold attachMints
  rw [ha]
  simp only [hgen, Bool.false_eq_true, if_false]
  refine spendMints_ok hd.ledger ?_ ?_
  · unfold KronDAG.HasRoom KronDAG.vertexCount KronDAG.faucetTotal at hroom
    obtain ⟨h1, h2, -⟩ := d.attached_frame tx new (tx.provenRelayNodes P)
    rw [h1, h2, Graph.length_entries_insertVertex (Graph.checkVertex_ok ha).1] at hroom
    exact hroom
  · exact (Graph.checkVertex_ok ha).2.2.1.trans (DagTransaction.requiredFee_of hgen)

theorem acceptMints_ok (hd : d.Sound) (hroom : (d.acceptWireVertex P tx).1.HasRoom) :
    ∀ c ∈ acceptMints P d tx, c.outcome.2 = .ok () := by
  unfold acceptMints
  rcases accept_cases (P := P) d tx with ⟨hc, -⟩ | ⟨e, ha | ⟨hs, rfl⟩, -⟩ | ⟨new, ha, hs, he⟩ |
    ⟨e, ha, hs, hne, he⟩
  · have ha : d.checkVertex P tx = .error (.duplicateTx tx.id) := by
      unfold Graph.checkVertex
      rw [if_pos hc]
    rw [ha]
    intro c hc
    cases hc
  · rw [ha]
    intro c hc
    cases hc
  · rw [hs]
    rcases d.checkVertex P tx with e | ⟨⟨⟩⟩ <;>
    · intro c hc
      cases hc
  · rw [he] at hroom
    rw [ha, hs]
    exact attachMints_ok hd ha hroom
  · rw [he] at hroom
    rw [ha, hs]
    have hst := hasRoom_resolve.1 hroom
    have hmints := rebuildMints_ok (P := P)
      (d := { d with toGraph := d.toGraph.insertVertex tx }) (hd.graph.insertVertex ha) hst
    cases e <;> first | exact hmints | exact absurd rfl hne

/-! ### The ledger behind them -/

/-- The ledger that the last of some mints leaves, or the one before them all. -/
def ledgerBehind (l : Ledger) (cs : List MintCall) : Ledger :=
  (cs.getLast?.map fun c => c.outcome.1).getD l

theorem ledger_of_getLast {l l' : Ledger} {cs : List MintCall} {c : MintCall}
    (h : cs.getLast? = some c) (hl : l' = ledgerBehind l cs) : l' = c.outcome.1 := by
  rw [hl, ledgerBehind, h]
  rfl

theorem ledgerBehind_append (l : Ledger) (cs cs' : List MintCall) :
    ledgerBehind l (cs ++ cs') = ledgerBehind (ledgerBehind l cs) cs' := by
  unfold ledgerBehind
  rw [List.getLast?_append]
  cases cs'.getLast? <;> rfl

theorem applyLedgerEffects_fst (l : Ledger) (tx : DagTransaction) :
    (l.applyLedgerEffects P tx).1 = ledgerBehind l (spendMints P l tx) := by
  unfold Ledger.applyLedgerEffects spendMints
  rcases l.checkSpend tx with e | new
  · rfl
  · exact mapErr_fst ..

theorem replayLoop_fst {g : Graph} : ∀ (order : List TxHash) (l : Ledger) (extra : List TxHash),
    (replayLoop P g.vertices g.winnerOf l extra order).1 = ledgerBehind l (replayMints P g l order)
  | [], _, _ => rfl
  | id :: order, l, extra => by
    rw [replayMints]
    rcases hr : g.replayedAt id with _ | tx
    · rw [replayLoop_none l extra order hr]
      exact replayLoop_fst order l extra
    · have hstep := applyLedgerEffects_fst (P := P) l tx
      simp only []
      rw [ledgerBehind_append, ← hstep]
      rcases replayLoop_some (P := P) l extra order hr with ⟨l₁, ha, he⟩ |
        ⟨e, ha, hne, -, he⟩ | ⟨l₁, ha, he⟩
      · rw [he, ha]
        exact replayLoop_fst order l₁ extra
      · rw [he, ha]
        cases e <;> first | exact replayLoop_fst order l _ | exact absurd rfl hne
      · rw [he, ha]
        rfl

theorem toLedger_resolve (d : KronDAG) :
    (d.resolveConflictsAndRebuildLedger P).1.toLedger
      = ledgerBehind d.baseline (rebuildMints P d) :=
  d.resolve_toLedger.trans (replayLoop_fst _ _ _)

theorem toLedger_attach (hd : d.toGraph.WF) (tx : DagTransaction) :
    (d.attachVertexAndMaybeMint P tx true (tx.provenRelayNodes P)).1.toLedger
      = ledgerBehind d.toLedger (attachMints P d tx) := by
  unfold attachMints spendMints
  rcases attach_cases (P := P) d tx (tx.provenRelayNodes P) with ⟨e, ha, he⟩ | ⟨e, ha, hs, he⟩ |
    ⟨new, ha, hs, he⟩
  · rw [he, ha]
    rfl
  · rw [he, ha, hs]
    simp only [ite_self]
    rfl
  · have hgen := hd.not_isGenesis ha
    rw [he, ha, hs]
    simp only [KronDAG.attached, KronDAG.onLedger, hgen, if_true, mapErr_fst, Bool.false_eq_true,
      if_false]
    rfl

theorem toLedger_accept (hd : d.toGraph.WF) {c : MintCall}
    (h : (acceptMints P d tx).getLast? = some c) :
    (d.acceptWireVertex P tx).1.toLedger = c.outcome.1 := by
  unfold acceptMints at h
  rcases hc : d.checkVertex P tx with e | ⟨⟨⟩⟩
  · rw [hc] at h
    cases h
  rw [hc] at h
  rw [accept_admitted hc]
  rcases hs : d.checkSpend tx with e | new
  · rw [hs] at h
    have hrebuild := toLedger_resolve (P := P) (d.stored tx)
    cases e <;> first
      | cases h
      | exact ledger_of_getLast h hrebuild
  · have hattach := toLedger_attach (P := P) hd tx
    rw [hs] at h
    rcases attach_cases (P := P) d tx (tx.provenRelayNodes P) with ⟨e, ha, -⟩ | ⟨e, -, hs', -⟩ |
      ⟨new', -, hs', he⟩
    · rw [hc] at ha
      cases ha
    · rw [hs] at hs'
      cases hs'
    · rw [hs] at hs'
      cases hs'
      rw [he] at hattach
      exact ledger_of_getLast h hattach

theorem toLedger_merge {c : MintCall} {txs : List DagTransaction} {relay : Address}
    (h : (mergeMints P d txs relay).getLast? = some c) :
    (d.mergeOfflineGraphs P txs relay).1.toLedger = c.outcome.1 := by
  unfold mergeMints at h
  unfold KronDAG.mergeOfflineGraphs
  rcases ht : topoOrderIncoming d.toGraph txs with e | ordered
  · rw [ht] at h
    cases h
  rw [ht] at h
  simp only [] at h ⊢
  rcases hm : KronDAG.mergeLoop P relay d 0 ordered with ⟨d', e | n⟩
  · rw [hm] at h
    cases h
  rw [hm] at h
  simp only [] at h ⊢
  split_ifs at h ⊢
  · have hrebuild := ledger_of_getLast h (toLedger_resolve (P := P) d')
    rcases hr : d'.resolveConflictsAndRebuildLedger P with ⟨d'', e | ⟨⟨⟩⟩⟩
    all_goals
      rw [hr] at hrebuild
      exact hrebuild
  · cases h

/-- Where a call mints, its last mint leaves the ledger that the node has behind the call. -/
theorem toLedger_exec (hd : d.toGraph.WF) {c : MintCall} : ∀ op : Op,
    (mintCalls P d op).getLast? = some c → (exec P d op).toLedger = c.outcome.1
  | .credit _ _, h => by cases h
  | .attach host tx device, h => by
    rw [mintCalls] at h
    rw [exec, KronDAG.attachAndVerifyFor]
    rcases hh : device.admitHost host with e | ⟨⟨⟩⟩
    · rw [hh] at h
      cases h
    · rw [hh] at h
      exact ledger_of_getLast h (toLedger_attach hd tx)
  | .accept _, h => toLedger_accept hd h
  | .merge _ _, h => toLedger_merge h
  | .rebuild, h => ledger_of_getLast h (toLedger_resolve d)

theorem graphWF_steps {d' : KronDAG} (hd : d.toGraph.WF)
    (h : Relation.ReflTransGen (Step P) d d') : d'.toGraph.WF := by
  induction h with
  | refl => exact hd
  | tail _ hs ih => exact KronDAG.step_graphWF ih hs

theorem mergeMints_ok (hd : d.Sound) (txs : List DagTransaction) (relay : Address)
    (hroom : (d.mergeOfflineGraphs P txs relay).1.HasRoom) :
    ∀ c ∈ mergeMints P d txs relay, c.outcome.2 = .ok () := by
  have hnil : ∀ c ∈ ([] : List MintCall), c.outcome.2 = .ok () := fun c hc => by cases hc
  unfold mergeMints
  unfold KronDAG.mergeOfflineGraphs at hroom
  rcases ht : topoOrderIncoming d.toGraph txs with e | ordered
  · exact hnil
  · have hsteps := mergeLoop_steps (P := P) relay ordered d 0
    rw [ht] at hroom
    simp only [] at hroom ⊢
    rcases hm : KronDAG.mergeLoop P relay d 0 ordered with ⟨d', e | n⟩
    · exact hnil
    · rw [hm] at hroom hsteps
      simp only [] at hroom ⊢
      split_ifs with hn
      · rw [if_pos hn] at hroom
        refine rebuildMints_ok (graphWF_steps hd.graph hsteps) (hasRoom_resolve (P := P).1 ?_)
        rcases hr : d'.resolveConflictsAndRebuildLedger P with ⟨d'', e | ⟨⟨⟩⟩⟩
        all_goals
          rw [hr] at hroom
          exact hroom
      · exact hnil

/-- A call from a sound node, into one with room, makes no mint that fails. -/
theorem mintCalls_ok (hd : d.Sound) : ∀ (op : Op), (exec P d op).HasRoom →
    ∀ c ∈ mintCalls P d op, c.outcome.2 = .ok ()
  | .credit _ _, _ => fun c hc => by cases hc
  | .attach host tx device, hroom => by
    rw [exec, KronDAG.attachAndVerifyFor] at hroom
    rw [mintCalls]
    rcases hh : device.admitHost host with e | ⟨⟨⟩⟩
    · exact fun c hc => by cases hc
    · rw [hh] at hroom
      simp only [] at hroom ⊢
      rcases attach_cases (P := P) d tx (tx.provenRelayNodes P) with ⟨e, ha, -⟩ | ⟨e, ha, hs, -⟩ |
        ⟨new, ha, hs, he⟩
      · unfold attachMints
        rw [ha]
        exact fun c hc => by cases hc
      · unfold attachMints spendMints
        rw [ha, hs]
        simp only [ite_self]
        exact fun c hc => by cases hc
      · rw [he] at hroom
        exact attachMints_ok hd ha hroom
  | .accept _, hroom => acceptMints_ok hd hroom
  | .merge txs relay, hroom => mergeMints_ok hd txs relay hroom
  | .rebuild, hroom => rebuildMints_ok hd.graph (hasRoom_resolve.1 hroom)

end

/-! ## Every state of a run, and every mint -/

section Runs

variable {P : Primitives} {d : KronDAG}

theorem vertexCount_exec (d : KronDAG) (op : Op) : d.vertexCount ≤ (exec P d op).vertexCount := by
  rcases exec_cases (P := P) d op with ⟨a, n, -, he⟩ | ⟨-, hs⟩
  · rw [he, KronDAG.vertexCount_credit]
  · generalize exec P d op = d' at hs
    induction hs with
    | refl => exact Nat.le_refl _
    | tail _ hs ih => exact ih.trans (KronDAG.vertexCount_step hs)

theorem vertexCount_run (d : KronDAG) (ops : List Op) :
    d.vertexCount ≤ (run P d ops).vertexCount := by
  induction ops using List.reverseRecOn with
  | nil => exact Nat.le_refl _
  | append_singleton ops op ih =>
    rw [run_concat]
    exact ih.trans (vertexCount_exec _ op)

/-- A prefix of a run has at least the room of the run. -/
theorem hasRoom_append (h : KronDAG.withGenesis P = some d) {ops pre post : List Op}
    (hops : ops = pre ++ post) (hF : credited ops + hardCap ≤ u64Max)
    (hn : hardCap + fixedTransactionFee * (run P d ops).vertexCount ≤ u64Max) :
    (run P d pre).HasRoom := by
  subst hops
  rw [credited_append] at hF
  rw [run_append] at hn
  have hle := vertexCount_run (P := P) (run P d pre) post
  exact hasRoom_run h pre (by omega) ((Nat.add_le_add_left (Nat.mul_le_mul_left _ hle) _).trans hn)

/-- While the faucet leaves room for the cap and at most `10 ^ 12` vertices are stored, the balances
sum to the faucet and the supply in every state of a run, and no mint of it overflows; the last mint
of a call leaves the ledger that the node has behind the call. -/
theorem conservation_run (h : KronDAG.withGenesis P = some d) (ops : List Op)
    (hF : credited ops + hardCap ≤ u64Max) (hn : (run P d ops).vertexCount ≤ 10 ^ 12) :
    (∀ pre post, ops = pre ++ post →
      Tally.total (run P d pre).balances
        = Tally.total (run P d pre).faucet + (run P d pre).currentSupply) ∧
    ∀ pre op post, ops = pre ++ op :: post →
      (∀ c ∈ mintCalls P (run P d pre) op,
        (c.ledger.mintConfirmedTx c.fee c.miner c.relayNodes).2 = .ok ())
      ∧ ∀ c, (mintCalls P (run P d pre) op).getLast? = some c →
        (run P d (pre ++ [op])).toLedger
          = (c.ledger.mintConfirmedTx c.fee c.miner c.relayNodes).1 := by
  have hn' : hardCap + fixedTransactionFee * (run P d ops).vertexCount ≤ u64Max := by
    rw [hardCap_eq]
    unfold fixedTransactionFee u64Max
    omega
  constructor
  · intro pre post hops
    exact (sound_run h pre (hasRoom_append h hops hF hn')).ledger.total
  · intro pre op post hops
    have hroom := hasRoom_append h hops hF hn'
    have hops' : ops = (pre ++ [op]) ++ post := by rw [hops, List.append_assoc]; rfl
    have hroom' := hasRoom_append h hops' hF hn'
    rw [run_concat] at hroom' ⊢
    have hsound := sound_run h pre hroom
    exact ⟨mintCalls_ok hsound op hroom', fun c => toLedger_exec hsound.graph op⟩

open StandIn in
/-- The one mint of the first transfer. -/
theorem conservation_run_firstOps :
    Tally.total firstDag.balances = Tally.total firstDag.faucet + firstDag.currentSupply
      ∧ ∃ c, mintCalls primitives (fundedDag 1 1000000) (.accept firstTransfer) = [c]
        ∧ (c.ledger.mintConfirmedTx c.fee c.miner c.relayNodes).2 = .ok ()
        ∧ firstDag.toLedger = (c.ledger.mintConfirmedTx c.fee c.miner c.relayNodes).1 := by
  have hn : (run primitives genesisDag firstOps).vertexCount ≤ 10 ^ 12 := by
    rw [run_firstOps]
    decide
  have hcheck : (fundedDag 1 1000000).checkVertex primitives firstTransfer = .ok () :=
    checkVertex_transfer (by decide)
  have hspend : (fundedDag 1 1000000).checkSpend firstTransfer = .ok (998000, 1000) := by decide
  have hmints : mintCalls primitives (fundedDag 1 1000000) (.accept firstTransfer)
      = [⟨(fundedDag 1 1000000).moveSpend firstTransfer (998000, 1000), firstTransfer.fee.toNat,
        firstTransfer.sender, firstTransfer.provenRelayNodes primitives⟩] := by
    rw [mintCalls, acceptMints, attachMints, spendMints, hcheck, hspend]
    rfl
  have hrun : run primitives genesisDag [.credit (address 1) 1000000] = fundedDag 1 1000000 := by
    rw [run_cons, exec_credit, run_nil]
    rfl
  obtain ⟨h1, h2⟩ := conservation_run withGenesis_genesisDag firstOps (by decide) hn
  obtain ⟨hok, hledger⟩ := h2 [.credit (address 1) 1000000] (.accept firstTransfer) [] rfl
  have hlast := hledger _ (by rw [hrun, hmints]; rfl)
  have htotal := h1 firstOps [] (List.append_nil _).symm
  have hend : run primitives genesisDag ([.credit (address 1) 1000000] ++ [.accept firstTransfer])
      = firstDag := run_firstOps
  rw [run_firstOps] at htotal
  rw [hrun, hmints] at hok
  rw [hend] at hlast
  exact ⟨htotal, _, hmints, hok _ List.mem_cons_self, hlast⟩

end Runs

end KronMesh
