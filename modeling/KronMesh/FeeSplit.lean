import KronMesh.Carriers
import KronMesh.Explorer
import KronMesh.Paid

/-!
# The fee split the explorer shows

The explorer does not read what a mint paid: it splits the pool again, with the subsidy of a place
in its own order of vertices and of a supply of zero, and always into the miner's part and the
relays' part. What it shows is what was paid exactly for vertices with relays, each named once,
whose mint had that subsidy and was not cut short.
-/

namespace KronMesh

open Word

/-! ## Shares of a pool -/

/-- A pool of a scheduled subsidy and the fee is far below a word, and both parts of it are some. -/
theorem split_pool {s : ℕ} (h : s ≤ initialTxSubsidy) :
    s + fixedTransactionFee ≤ u64Max ∧ 0 < dagMinerShareOf (s + fixedTransactionFee)
      ∧ 0 < dagRelayTotalOf (s + fixedTransactionFee) := by
  have hadd := dagMinerShareOf_add (s + fixedTransactionFee)
  unfold dagMinerShareOf saturatingMul dagMinerSharePercent fixedTransactionFee u64Max
    initialTxSubsidy at *
  omega

theorem nodup_foldl_pushNew : ∀ (nodes : List Address) {out : List Address}, out.Nodup →
    (nodes.foldl DagTransaction.pushNew out).Nodup
  | [], _, h => h
  | n :: nodes, out, h => by
    rw [List.foldl_cons]
    refine nodup_foldl_pushNew nodes ?_
    unfold DagTransaction.pushNew
    split_ifs with hc
    · exact h
    · rw [List.contains_iff_mem] at hc
      exact List.nodup_append.2 ⟨h, List.nodup_singleton n, fun a ha b hb => by
        rintro rfl
        exact hc (List.mem_singleton.1 hb ▸ ha)⟩

theorem nodup_uniqueRelays (nodes : List Address) : (uniqueRelays nodes).Nodup :=
  nodup_foldl_pushNew nodes List.nodup_nil

/-- The relays that are paid are those that a checked vertex names. -/
theorem mem_uniqueRelays_proven {P : Primitives} {tx : DagTransaction}
    (h : tx.verifyRelayProofs P = true) {a : Address} :
    a ∈ uniqueRelays (tx.provenRelayNodes P) ↔ a ∈ tx.relayNodes := by
  obtain ⟨hnodes, hproofs⟩ := DagTransaction.verifyRelayProofs_iff.1 h
  unfold uniqueRelays DagTransaction.provenRelayNodes
  rw [if_pos h]
  simp only [DagTransaction.mem_foldl_pushNew, List.not_mem_nil, false_or, List.mem_map]
  constructor
  · rintro ⟨proof, hproof, rfl⟩
    exact (hproofs proof hproof).2.1
  · exact hnodes a

theorem map_fst_relayPayouts (r : ℕ) (relays : List Address) :
    (relayPayouts r relays).map Prod.fst = relays := by
  rw [relayPayouts, List.map_map]
  exact List.zipIdx_map_fst 0 relays

/-- Every relay gets something when there are not more relays than units. -/
theorem relayPayouts_pos {r : ℕ} {relays : List Address} (hne : relays ≠ []) :
    (∀ p ∈ relayPayouts r relays, 0 < p.2) ↔ relays.length ≤ r := by
  have hlen : 0 < relays.length := List.length_pos_iff.2 hne
  unfold relayPayouts
  constructor
  · intro h
    by_contra hlt
    have heach : r / relays.length = 0 := Nat.div_eq_of_lt (not_le.1 hlt)
    have hmod : r % relays.length = r := Nat.mod_eq_of_lt (not_le.1 hlt)
    rw [heach, hmod] at h
    rcases relays with _ | ⟨a, _ | ⟨b, relays⟩⟩
    · exact hne rfl
    · -- the only relay gets all there is, which is nothing
      have ha := h (a, saturatingAdd 0 r) (by simp)
      rw [List.length_singleton] at hlt
      unfold saturatingAdd at ha
      simp only [] at ha
      omega
    · -- the dust is the first one's
      have hb := h (b, saturatingAdd 0 0) (by simp)
      exact absurd hb (Nat.lt_irrefl 0)
  · intro hle p hp
    obtain ⟨⟨a, k⟩, -, rfl⟩ := List.mem_map.1 hp
    have heach : 0 < r / relays.length := Nat.div_pos hle hlen
    simp only []
    unfold saturatingAdd u64Max
    omega

/-- A pool is the two parts of it. -/
theorem pool_inj {p q : ℕ} (hminer : dagMinerShareOf p = dagMinerShareOf q)
    (hrelay : dagRelayTotalOf p = dagRelayTotalOf q) : p = q := by
  have hp := dagMinerShareOf_add p
  have hq := dagMinerShareOf_add q
  omega

/-- As many names as are paid something, of which the payouts go to each once: then all are paid,
and each name is one of them. -/
theorem all_paid {nodes : List Address} {paid payouts : List (Address × ℕ)}
    (hnd : (payouts.map Prod.fst).Nodup) (hmem : ∀ a ∈ payouts.map Prod.fst, a ∈ nodes)
    (hinitial : paid <+: payouts)
    (hlen : nodes.length = (paid.filter fun p => decide (0 < p.2)).length) :
    paid = payouts ∧ (∀ p ∈ payouts, 0 < p.2) ∧ (payouts.map Prod.fst).Perm nodes := by
  have hfilter := List.length_filter_le (fun p => decide (0 < p.2)) paid
  have hpaid := hinitial.length_le
  have hsub : (payouts.map Prod.fst).Subperm nodes := hnd.subperm hmem
  have hsublen := hsub.length_le
  rw [List.length_map] at hsublen
  obtain rfl : paid = payouts := hinitial.eq_of_length (by omega)
  have hall := List.length_filter_eq_length_iff.1
    (show (paid.filter fun p => decide (0 < p.2)).length = paid.length by omega)
  refine ⟨rfl, fun p hp => of_decide_eq_true (hall p hp), hsub.perm_of_length_le ?_⟩
  rw [List.length_map]
  omega

/-! ## What is shown and what is paid -/

/-- The split shows the miner's part, the relays' part in all, and each relay that is paid, once. -/
structure FeeSplit.Shows (fs : FeeSplit) (paid : ℕ × List (Address × ℕ)) : Prop where
  miner : fs.minerAmount = paid.1
  relay : fs.relayAmount = (paid.2.map Prod.snd).sum
  relays : fs.relayAddresses.Perm ((paid.2.filter fun p => 0 < p.2).map fun p => encodeKron p.1)

/-- The split shows both parts of the pool of the place `before`, and the relays of the vertex. -/
structure FeeSplit.Guesses (fs : FeeSplit) (tx : DagTransaction) (before : ℕ) : Prop where
  miner : fs.minerAmount
    = dagMinerShareOf (getCurrentTxSubsidy before 0 + fixedTransactionFee)
  relay : fs.relayAmount
    = dagRelayTotalOf (getCurrentTxSubsidy before 0 + fixedTransactionFee)
  relays : fs.relayAddresses = tx.relayNodes.map encodeKron

/-- The mint of a vertex in front of which `before` others are attached: there are relays, each
named once and no more of them than units for them, the subsidy is that of the place, and the
miner's part and every payout fit what is held. -/
structure MintCall.ShownAs (c : MintCall) (P : Primitives) (tx : DagTransaction) (before : ℕ) :
    Prop where
  relays : tx.relayNodes ≠ []
  once : tx.relayNodes.Nodup
  units : tx.relayNodes.length
    ≤ dagRelayTotalOf (getCurrentTxSubsidy before 0 + fixedTransactionFee)
  subsidy : getCurrentTxSubsidy c.ledger.dagTxCount c.ledger.currentSupply
    = getCurrentTxSubsidy before 0
  miner : c.ledger.balance tx.sender
    + dagMinerShareOf (getCurrentTxSubsidy before 0 + fixedTransactionFee) ≤ u64Max
  payouts : ({ c.ledger.book with
    balance := fun a => c.ledger.balance a + if a = tx.sender then
      dagMinerShareOf (getCurrentTxSubsidy before 0 + fixedTransactionFee) else 0 } : Book).Fits
    (relayPayouts (dagRelayTotalOf (getCurrentTxSubsidy before 0 + fixedTransactionFee))
      (uniqueRelays (tx.provenRelayNodes P)))

namespace MintCall

variable {P : Primitives} {c : MintCall} {tx : DagTransaction}

/-- What a mint of the fixed fee pays, by whether the miner's part fits. -/
theorem paid_cases (c : MintCall) (hfee : c.fee = fixedTransactionFee) {pool : ℕ}
    (hpool : pool = getCurrentTxSubsidy c.ledger.dagTxCount c.ledger.currentSupply
      + fixedTransactionFee) :
    (u64Max < c.ledger.balance c.miner + (splitPool pool c.relayNodes).1 ∧ c.paid = (0, [])) ∨
    ∃ l, c.ledger.creditChecked c.miner (splitPool pool c.relayNodes).1 = (l, .ok ())
      ∧ c.paid
        = ((splitPool pool c.relayNodes).1, l.relaysPaid (splitPool pool c.relayNodes).2) := by
  have hle := (split_pool (getCurrentTxSubsidy_le c.ledger.dagTxCount c.ledger.currentSupply)).1
  unfold paid
  rw [hfee, checkedAdd_of_le hle, ← hpool]
  simp only []
  rcases h₁ : c.ledger.creditChecked c.miner (splitPool pool c.relayNodes).1 with ⟨l, e | ⟨⟨⟩⟩⟩
  · exact .inl ⟨(Ledger.creditChecked_error h₁).2.2, rfl⟩
  · exact .inr ⟨l, rfl, rfl⟩

/-- Where relays are named, they share the relays' part. -/
theorem splitPool_of_relays {pool : ℕ} {nodes : List Address} (h : uniqueRelays nodes ≠ []) :
    splitPool pool nodes
      = (dagMinerShareOf pool, relayPayouts (dagRelayTotalOf pool) (uniqueRelays nodes)) := by
  unfold splitPool
  simp only []
  rw [if_neg fun he => h (List.isEmpty_iff.1 he)]
  rfl

/-- Without relays the miner gets all. -/
theorem splitPool_of_none {pool : ℕ} {nodes : List Address} (h : uniqueRelays nodes = []) :
    (splitPool pool nodes).2 = [] := by
  unfold splitPool
  simp only []
  rw [if_pos (List.isEmpty_iff.2 h)]

/-- The ledger behind the miner's part, as the payouts see it. -/
theorem fits_behind_miner {l : Ledger} {share : ℕ}
    (h : c.ledger.creditChecked c.miner share = (l, .ok ())) (hminer : c.miner = tx.sender)
    (payouts : List (Address × ℕ)) : l.book.Fits payouts ↔
      ({ c.ledger.book with
        balance := fun a => c.ledger.balance a + if a = tx.sender then share else 0 } : Book).Fits
          payouts := by
  rw [Ledger.book_creditChecked h, hminer]

/-- The relays that are shown are as many as are paid at most, and those that are paid are among
them. So where the two agree all are paid, each is named once, and the two pools are one. -/
theorem shownAs_of_shows (hof : c.Of P tx) (hfee : tx.fee.toNat = fixedTransactionFee)
    (hrel : tx.verifyRelayProofs P = true) {before : ℕ} {fs : FeeSplit}
    (hguess : fs.Guesses tx before) (h : fs.Shows c.paid) :
    c.ShownAs P tx before := by
  obtain ⟨hminer, hrelay, hperm⟩ := h
  obtain ⟨-, hmpos, hrpos⟩ := split_pool (getCurrentTxSubsidy_le before 0)
  rw [hguess.miner] at hminer
  rw [hguess.relay] at hrelay
  rw [hguess.relays] at hperm
  generalize hpool : getCurrentTxSubsidy c.ledger.dagTxCount c.ledger.currentSupply
    + fixedTransactionFee = pool
  obtain ⟨hle, -, -⟩ :=
    split_pool (getCurrentTxSubsidy_le c.ledger.dagTxCount c.ledger.currentSupply)
  rcases c.paid_cases (hof.fee.trans hfee) hpool.symm with ⟨-, hp⟩ | ⟨l, hl, hp⟩
  · rw [hp] at hminer
    omega
  rw [hof.relayNodes] at hl hp
  by_cases hnone : uniqueRelays (tx.provenRelayNodes P) = []
  · rw [hp, splitPool_of_none hnone] at hrelay
    have hzero : dagRelayTotalOf (getCurrentTxSubsidy before 0 + fixedTransactionFee) = 0 := hrelay
    omega
  rw [splitPool_of_relays hnone] at hl hp
  rw [hp] at hminer hrelay hperm
  generalize hR : uniqueRelays (tx.provenRelayNodes P) = relays at *
  generalize hpay : relayPayouts (dagRelayTotalOf pool) relays = payouts at *
  have hfst : payouts.map Prod.fst = relays := hpay ▸ map_fst_relayPayouts _ _
  have hnd : (payouts.map Prod.fst).Nodup := hfst ▸ hR ▸ nodup_uniqueRelays _
  have hmem : ∀ a ∈ payouts.map Prod.fst, a ∈ tx.relayNodes := fun a ha =>
    (mem_uniqueRelays_proven hrel).1 (hR.symm ▸ hfst ▸ ha)
  have hshown := hperm.length_eq
  rw [List.length_map, List.length_map] at hshown
  obtain ⟨hall, hpos, hnodes⟩ := all_paid hnd hmem (l.relaysPaid_initial payouts) hshown
  have hadd := dagMinerShareOf_add pool
  have hsum : dagRelayTotalOf (getCurrentTxSubsidy before 0 + fixedTransactionFee)
      = dagRelayTotalOf pool := by
    have hsum := sum_relayPayouts hnone (r := dagRelayTotalOf pool) (by omega)
    rw [hpay, ← hall] at hsum
    exact hrelay.trans hsum
  obtain rfl := pool_inj hminer hsum
  have hunits := (relayPayouts_pos hnone).1 (hpay ▸ hpos)
  refine ⟨?_, hnodes.nodup_iff.1 hnd, ?_, by omega, ?_, ?_⟩
  · intro hnil
    rw [hnil, hfst] at hnodes
    exact hnone hnodes.eq_nil
  · rw [← hnodes.length_eq, hfst]
    exact hunits
  · rw [← hof.miner]
    rcases Ledger.creditChecked_ok.1 hl with ⟨h0, -⟩ | ⟨-, hfit, -⟩
    · exact absurd h0 hmpos.ne'
    · exact hfit
  · rw [← fits_behind_miner hl hof.miner, hR, hpay]
    exact (Ledger.relaysPaid_eq_iff hnd hpos).1 hall

theorem shows_of_shownAs (hof : c.Of P tx) (hfee : tx.fee.toNat = fixedTransactionFee)
    (hrel : tx.verifyRelayProofs P = true) {before : ℕ} {fs : FeeSplit}
    (hguess : fs.Guesses tx before) (h : c.ShownAs P tx before) :
    fs.Shows c.paid := by
  obtain ⟨hnone, honce, hunits, hsubsidy, hminer, hfits⟩ := h
  obtain ⟨hfsminer, hfsrelay, hfsrelays⟩ := hguess
  obtain ⟨hle, hmpos, -⟩ := split_pool (getCurrentTxSubsidy_le before 0)
  have hmem : ∀ {a}, a ∈ uniqueRelays (tx.provenRelayNodes P) ↔ a ∈ tx.relayNodes :=
    mem_uniqueRelays_proven hrel
  have hperm : tx.relayNodes.Perm (uniqueRelays (tx.provenRelayNodes P)) :=
    (List.perm_ext_iff_of_nodup honce (nodup_uniqueRelays _)).2 fun a => hmem.symm
  have hne : uniqueRelays (tx.provenRelayNodes P) ≠ [] := fun hnil =>
    hnone (List.perm_nil.1 (hnil ▸ hperm))
  rw [hperm.length_eq] at hunits
  generalize hpool : getCurrentTxSubsidy before 0 + fixedTransactionFee = pool at *
  have hpay : pool = getCurrentTxSubsidy c.ledger.dagTxCount c.ledger.currentSupply
      + fixedTransactionFee := by
    rw [hsubsidy, hpool]
  have hpos := (relayPayouts_pos hne).2 hunits
  have hfst := map_fst_relayPayouts (dagRelayTotalOf pool) (uniqueRelays (tx.provenRelayNodes P))
  have hadd := dagMinerShareOf_add pool
  rcases c.paid_cases (hof.fee.trans hfee) hpay with ⟨hover, -⟩ | ⟨l, hl, hp⟩
  · rw [hof.miner, hof.relayNodes, splitPool_of_relays hne] at hover
    exact absurd hminer (not_le.2 hover)
  rw [hof.relayNodes, splitPool_of_relays hne] at hl hp
  have hall := (Ledger.relaysPaid_eq_iff (hfst.symm ▸ nodup_uniqueRelays _) hpos).2
    ((fits_behind_miner hl hof.miner _).2 hfits)
  rw [hp]
  refine ⟨hfsminer, ?_, ?_⟩
  · rw [hall, sum_relayPayouts hne (by omega)]
    exact hfsrelay
  · have hnames : (relayPayouts (dagRelayTotalOf pool) (uniqueRelays (tx.provenRelayNodes P))).map
        (fun p => encodeKron p.1) = (uniqueRelays (tx.provenRelayNodes P)).map encodeKron :=
      List.map_map.symm.trans (congrArg (List.map encodeKron) hfst)
    rw [hall, List.filter_eq_self.2 fun p hp => decide_eq_true (hpos p hp), hfsrelays, hnames]
    exact hperm.map encodeKron

end MintCall

/-! ## The row of a vertex -/

/-- How many vertices that are no genesis are attached before `id`. -/
def Graph.confirmedBefore (g : Graph) (id : TxHash) : ℕ :=
  (g.transactionsInOrder.takeWhile fun tx => tx.id ≠ id).countP fun tx => !tx.isGenesis

section Row

variable {P : Primitives} {start : Graph} {d : KronDAG} {tx : DagTransaction}

/-- The row of a vertex counts it and those before it. -/
theorem mem_indexRows_split (hgen : tx.isGenesis = false) (post : List DagTransaction) :
    ∀ (pre : List DagTransaction) {i : ℕ}, i ≤ u64Max →
      indexVertex d tx (min (i + pre.countP (fun y => !y.isGenesis) + 1) u64Max)
        ∈ indexRows d i (pre ++ tx :: post)
  | [], i, _ => by
    rw [List.nil_append, indexRows, hgen]
    exact List.mem_cons_self
  | y :: pre, i, hi => by
    rw [List.cons_append, indexRows]
    refine List.mem_cons_of_mem _ ?_
    rcases hy : y.isGenesis
    · have hnext := mem_indexRows_split hgen post pre (i := saturatingAdd i 1) (min_le_right _ _)
      rw [List.countP_cons_of_pos (by rw [hy]; rfl)]
      rw [if_pos rfl]
      have hsum : min (saturatingAdd i 1 + pre.countP (fun y => !y.isGenesis) + 1) u64Max
          = min (i + (pre.countP (fun y => !y.isGenesis) + 1) + 1) u64Max := by
        unfold saturatingAdd
        omega
      rwa [hsum] at hnext
    · rw [List.countP_cons_of_neg (by rw [hy]; decide), if_neg (by decide)]
      exact mem_indexRows_split hgen post pre hi

/-- Past the last halving the count that is cut at a word is as good as the whole. -/
theorem getCurrentTxSubsidy_min (n : ℕ) :
    getCurrentTxSubsidy (min (n + 1) u64Max - 1) 0 = getCurrentTxSubsidy n 0 := by
  rcases Nat.lt_or_ge n u64Max with h | h
  · rw [min_eq_left h, Nat.add_sub_cancel]
  · have hlast : ∀ {m}, u64Max - 1 ≤ m → getCurrentTxSubsidy m 0 = 0 := by
      intro m hm
      have hera : 64 ≤ m / txHalvingInterval :=
        (Nat.le_div_iff_mul_le (by decide)).2 (Nat.le_trans (by decide) hm)
      unfold getCurrentTxSubsidy
      simp [hera]
    rw [min_eq_right (by omega), hlast le_rfl, hlast (by omega)]

/-- The split in the row of a stored vertex. -/
theorem Graph.Grown.feeSplit_row (hg : d.toGraph.Grown P start)
    (hl : d.vertices.lookup tx.id = some tx) (hgen : tx.isGenesis = false)
    (hexDecode : String → Option Wire.Bytes) (e : ExplorerEngine) :
    ∃ row, (e.syncFromDag hexDecode d).txsByHash.lookup tx.id = some row
      ∧ row.feeSplit.Guesses tx (d.confirmedBefore tx.id) := by
  obtain ⟨pre, post, horder⟩ := List.append_of_mem ((Graph.mem_transactionsInOrder hg.wf).2 hl)
  have hbefore : d.confirmedBefore tx.id = pre.countP fun y => !y.isGenesis := by
    have hnd : (d.transactionsInOrder.map DagTransaction.id).Nodup := by
      rw [hg.wf.map_id_transactionsInOrder]
      exact hg.wf.nodup
    rw [horder, List.map_append, List.nodup_append] at hnd
    have hne : ∀ y ∈ pre, decide (y.id ≠ tx.id) = true := fun y hy =>
      decide_eq_true (hnd.2.2 _ (List.mem_map_of_mem hy) _ (List.mem_map_of_mem List.mem_cons_self))
    unfold Graph.confirmedBefore
    rw [horder, List.takeWhile_append_of_pos hne, List.takeWhile_cons_of_neg (by simp),
      List.append_nil]
  have hrow := mem_indexRows_split (d := d) hgen post pre (Nat.zero_le u64Max)
  rw [← horder, Nat.zero_add, ← hbefore] at hrow
  have hlookup : (e.syncFromDag hexDecode d).txsByHash.lookup tx.id = _ :=
    (hg.recorded e).lookup _ hrow
  have hfee := (hg.wf.fee hl).trans (DagTransaction.requiredFee_of hgen)
  have hle := (split_pool (getCurrentTxSubsidy_le (d.confirmedBefore tx.id) 0)).1
  refine ⟨_, hlookup, ?_, ?_, rfl⟩ <;>
    simp only [indexVertex, hgen, Bool.false_eq_true, if_false, getCurrentTxSubsidy_min, hfee,
      saturatingAdd_of_le hle]

end Row

/-! ## Every state of a run -/

section Run

variable {P : Primitives} {d : KronDAG}

/-- In every state of a run the split that the explorer shows of a stored vertex, no genesis, is
what was paid exactly where the vertex has a standing mint and that is as the split takes it to be.
Nothing is paid of a vertex without one. A standing mint was made by a call of the run, and added
what it paid to the balances and nothing else. -/
theorem feeSplit_run_iff (h : KronDAG.withGenesis P = some d) (ops : List Op)
    (hexDecode : String → Option Wire.Bytes) (e : ExplorerEngine) {tx : DagTransaction}
    (hl : (run P d ops).vertices.lookup tx.id = some tx) (hgen : tx.isGenesis = false) :
    (∃ row, (e.syncFromDag hexDecode (run P d ops)).txsByHash.lookup tx.id = some row ∧
      (row.feeSplit.Shows (paidOf (standingMints P d [] ops) tx.id) ↔
        ∃ c, (tx.id, c) ∈ standingMints P d [] ops
          ∧ c.ShownAs P tx ((run P d ops).confirmedBefore tx.id)))
      ∧ ∀ c, (tx.id, c) ∈ standingMints P d [] ops →
        (∃ pre op post, ops = pre ++ op :: post ∧ c ∈ mintCalls P (run P d pre) op)
          ∧ ∀ a, c.outcome.1.balance a
            = c.ledger.balance a + (if a = c.miner then c.paid.1 else 0) + payout c.paid.2 a := by
  refine ⟨?_, fun c hc =>
    ⟨(mem_standingMints hc).resolve_left (List.not_mem_nil), c.balance_outcome⟩⟩
  have hg := grown_run h ops
  obtain ⟨row, hrow, hguess⟩ := hg.feeSplit_row hl hgen hexDecode e
  have hfee := (hg.wf.fee hl).trans (DagTransaction.requiredFee_of hgen)
  have hrel := (hg.verified hl).2
  obtain ⟨hmints, honce⟩ := mints_run h ops
  refine ⟨row, hrow, ?_⟩
  simp only [← Assoc.lookup_eq_some_iff_mem honce]
  unfold paidOf
  rcases hc : (standingMints P d [] ops).lookup tx.id with _ | c
  · constructor
    · intro hshows
      have hpos := (split_pool (getCurrentTxSubsidy_le
        ((run P d ops).confirmedBefore tx.id) 0)).2.1
      have hzero : row.feeSplit.minerAmount = 0 := hshows.miner
      rw [hguess.miner] at hzero
      omega
    · rintro ⟨c, hc', -⟩
      cases hc'
  · obtain ⟨y, hy, hof⟩ := hmints _ ((Assoc.lookup_eq_some_iff_mem honce).1 hc)
    obtain rfl : tx = y := Option.some.inj (hl.symm.trans hy)
    constructor
    · exact fun hshows => ⟨c, rfl, MintCall.shownAs_of_shows hof hfee hrel hguess hshows⟩
    · rintro ⟨c', hc', hshown⟩
      obtain rfl := Option.some.inj hc'
      exact MintCall.shows_of_shownAs hof hfee hrel hguess hshown

section

open StandIn

/-- The one mint behind a vertex that is accepted by a funded node. -/
theorem standingMints_funded {tx : DagTransaction} {new : ℕ × ℕ} (hgen : tx.isGenesis = false)
    (hcheck : (fundedDag 1 1000000).checkVertex primitives tx = .ok ())
    (hspend : (fundedDag 1 1000000).checkSpend tx = .ok new) :
    standingMints primitives genesisDag [] [.credit (address 1) 1000000, .accept tx]
      = [(tx.id, ⟨(fundedDag 1 1000000).moveSpend tx new, tx.fee.toNat, tx.sender,
        tx.provenRelayNodes primitives⟩)] := by
  change acceptStanding primitives (fundedDag 1 1000000) [] tx = _
  unfold acceptStanding attachMints spendMints
  simp only [hcheck, hspend, hgen]
  rfl

/-- A vertex that names its carrier is shown with what was paid. -/
theorem feeSplit_run_iff_carriedOps : ∃ row,
    (ExplorerEngine.default.syncFromDag (fun _ => none)
      (run primitives genesisDag carriedOps)).txsByHash.lookup (carried firstTransfer 3).id
        = some row ∧
      row.feeSplit.Shows (paidOf (standingMints primitives genesisDag [] carriedOps)
        (carried firstTransfer 3).id) := by
  have hl : (run primitives genesisDag carriedOps).vertices.lookup (carried firstTransfer 3).id
      = some (carried firstTransfer 3) := by
    rw [run_carriedOps]
    rfl
  obtain ⟨⟨row, hrow, hiff⟩, -⟩ := feeSplit_run_iff withGenesis_genesisDag carriedOps
    (fun _ => none) .default hl (by decide)
  have hstanding := standingMints_funded (by decide) checkVertex_carried checkSpend_carried
  rw [provenRelayNodes_carried] at hstanding
  have hbefore : (run primitives genesisDag carriedOps).confirmedBefore
      (carried firstTransfer 3).id = 0 := by
    rw [run_carriedOps]
    decide
  refine ⟨row, hrow, hiff.2 ⟨_, hstanding ▸ List.mem_singleton_self _, ?_⟩⟩
  rw [hbefore]
  refine ⟨by decide, by decide, by decide, by decide, by decide, ?_⟩
  rw [provenRelayNodes_carried]
  exact ⟨by decide, .inl rfl, trivial⟩

/-- Of the first transfer, which names no carrier, the sender was paid all, as its miner; the
explorer shows a fifth of it as paid to relays. -/
theorem feeSplit_firstOps : ∃ row,
    (ExplorerEngine.default.syncFromDag (fun _ => none)
      (run primitives genesisDag firstOps)).txsByHash.lookup firstTransfer.id = some row
      ∧ (run primitives genesisDag firstOps).isConflict firstTransfer.id = false
      ∧ paidOf (standingMints primitives genesisDag [] firstOps) firstTransfer.id = (101000, [])
      ∧ row.feeSplit.minerAmount = 80800 ∧ row.feeSplit.relayAmount = 20200
      ∧ ¬ row.feeSplit.Shows (paidOf (standingMints primitives genesisDag [] firstOps)
        firstTransfer.id) := by
  have hl : (run primitives genesisDag firstOps).vertices.lookup firstTransfer.id
      = some firstTransfer := by
    rw [run_firstOps]
    rfl
  have hbefore : (run primitives genesisDag firstOps).confirmedBefore firstTransfer.id = 0 := by
    rw [run_firstOps]
    decide
  have hconflict : (run primitives genesisDag firstOps).isConflict firstTransfer.id = false := by
    rw [run_firstOps]
    decide
  have hcheck : (fundedDag 1 1000000).checkVertex primitives firstTransfer = .ok () :=
    checkVertex_transfer (by decide)
  have hspend : (fundedDag 1 1000000).checkSpend firstTransfer = .ok (998000, 1000) := by decide
  have hnone : firstTransfer.provenRelayNodes primitives = [] :=
    DagTransaction.provenRelayNodes_nil rfl
  have hstanding := standingMints_funded (by decide) hcheck hspend
  have hpaid : paidOf (standingMints primitives genesisDag [] firstOps) firstTransfer.id
      = (101000, []) := by
    rw [firstOps, hstanding, hnone]
    decide
  obtain ⟨row, hrow, hminer, hrelay, -⟩ := (grown_run withGenesis_genesisDag firstOps).feeSplit_row
    hl (by decide) (fun _ => none) .default
  rw [hbefore] at hminer hrelay
  refine ⟨row, hrow, hconflict, hpaid, hminer, hrelay, fun hshows => ?_⟩
  rw [hpaid] at hshows
  exact absurd (hrelay.symm.trans hshows.relay) (by decide)

end

end Run

end KronMesh
