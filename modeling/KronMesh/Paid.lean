import KronMesh.Calls
import KronMesh.Conservation

/-!
# What the standing mints paid

Of a mint, what it put into balances (`MintCall.paid`), also where an overflow cuts it short. And of
a run, the mints that its ledger stands for: attaching a vertex adds one, and a rebuild starts the
ledger anew, so that only those of its replay stand.
-/

namespace KronMesh

open Word Outcome

/-! ## What a mint puts into balances -/

/-- Each payout fits what its address holds. Behind the last one nothing is paid, so that a relay
credit which does not fit stops no payout. -/
def Book.Fits (b : Book) : List (Address × ℕ) → Prop
  | [] => True
  | p :: payouts =>
    b.balance p.1 + p.2 ≤ u64Max ∧ (payouts = [] ∨ b.relayCredit p.1 + p.2 ≤ u64Max)
      ∧ b.Fits payouts

theorem Book.fits_congr {b b' : Book} : ∀ {payouts : List (Address × ℕ)},
    (∀ a ∈ payouts.map Prod.fst, b.balance a = b'.balance a ∧ b.relayCredit a = b'.relayCredit a) →
    (b.Fits payouts ↔ b'.Fits payouts)
  | [], _ => Iff.rfl
  | p :: payouts, h => by
    obtain ⟨⟨hb, hr⟩, hrest⟩ := List.forall_mem_cons.1 h
    rw [Book.Fits, Book.Fits, hb, hr, Book.fits_congr hrest]

namespace Ledger

/-- What `payRelays` puts into balances: the payouts up to the first that does not fit. -/
def relaysPaid : Ledger → List (Address × ℕ) → List (Address × ℕ)
  | _, [] => []
  | l, p :: payouts =>
    match l.creditChecked p.1 p.2 with
    | (_, .error _) => []
    | (l, .ok ()) =>
      p ::
        match l.creditRelay p.1 p.2 with
        | (_, .error _) => []
        | (l, .ok ()) => relaysPaid l payouts

theorem relaysPaid_initial : ∀ (payouts : List (Address × ℕ)) (l : Ledger),
    l.relaysPaid payouts <+: payouts
  | [], _ => List.nil_prefix
  | p :: payouts, l => by
    unfold relaysPaid
    rcases l.creditChecked p.1 p.2 with ⟨l₁, e | ⟨⟨⟩⟩⟩
    · exact List.nil_prefix
    · rcases hr : l₁.creditRelay p.1 p.2 with ⟨l₂, e | ⟨⟨⟩⟩⟩
      · simp only [hr]
        exact ⟨payouts, rfl⟩
      · simp only [hr]
        exact (List.prefix_cons_inj p).2 (relaysPaid_initial payouts l₂)

theorem creditChecked_error {l l' : Ledger} {a : Address} {n : ℕ} {e : EconomicError}
    (h : l.creditChecked a n = (l', .error e)) : l' = l ∧ n ≠ 0 ∧ u64Max < l.balance a + n := by
  unfold creditChecked checkedAdd at h
  split_ifs at h with h0 hle
  · cases h
  · cases h
  · cases h
    exact ⟨rfl, h0, not_le.1 hle⟩

theorem creditRelay_error {l l' : Ledger} {a : Address} {n : ℕ} {e : EconomicError}
    (h : l.creditRelay a n = (l', .error e)) : l' = l ∧ u64Max < l.relayCredits.get a + n := by
  unfold creditRelay checkedAdd at h
  split_ifs at h with hle
  · cases h
  · cases h
    exact ⟨rfl, not_le.1 hle⟩

/-- The balances of the relays gain what is paid, wherever the payments stop. -/
theorem balance_payRelays : ∀ (payouts : List (Address × ℕ)) (l : Ledger) (a : Address),
    (l.payRelays payouts).1.balance a = l.balance a + payout (l.relaysPaid payouts) a
  | [], _, _ => rfl
  | p :: payouts, l, a => by
    unfold payRelays relaysPaid
    rcases h₁ : l.creditChecked p.1 p.2 with ⟨l₁, e | ⟨⟨⟩⟩⟩
    · rw [andThen_error, (creditChecked_error h₁).1]
      rfl
    have hl₁ : l₁.balance a = l.balance a + if a = p.1 then p.2 else 0 :=
      congrFun (congrArg Book.balance (book_creditChecked h₁)) a
    rw [andThen_ok]
    rcases h₂ : l₁.creditRelay p.1 p.2 with ⟨l₂, e | ⟨⟨⟩⟩⟩
    · simp only [h₂, andThen_error, payout_cons]
      rw [(creditRelay_error h₂).1, hl₁]
      rfl
    · have hl₂ : l₂.balance = l₁.balance := congrArg Book.balance (book_creditRelay h₂)
      simp only [h₂, andThen_ok, payout_cons]
      rw [balance_payRelays payouts l₂ a, hl₂, hl₁, Nat.add_assoc]

/-- Payouts to distinct addresses are all made when each fits. -/
theorem relaysPaid_eq_iff : ∀ {payouts : List (Address × ℕ)} {l : Ledger},
    (payouts.map Prod.fst).Nodup → (∀ p ∈ payouts, 0 < p.2) →
    (l.relaysPaid payouts = payouts ↔ l.book.Fits payouts)
  | [], _, _, _ => ⟨fun _ => trivial, fun _ => rfl⟩
  | p :: payouts, l, hnd, hpos => by
    obtain ⟨hnot, hnd⟩ := List.nodup_cons.1 hnd
    obtain ⟨hp, hpos⟩ := List.forall_mem_cons.1 hpos
    unfold relaysPaid
    rw [Book.Fits]
    rcases h₁ : l.creditChecked p.1 p.2 with ⟨l₁, e | ⟨⟨⟩⟩⟩
    · constructor
      · exact nofun
      · exact fun h => absurd h.1 (not_le.2 (creditChecked_error h₁).2.2)
    have hle : l.book.balance p.1 + p.2 ≤ u64Max := by
      rcases creditChecked_ok.1 h₁ with ⟨h0, -⟩ | ⟨-, hle, -⟩
      · exact absurd h0 hp.ne'
      · exact hle
    have e₁ := book_creditChecked h₁
    have hrel : l₁.relayCredits.get = l.relayCredits.get := congrArg Book.relayCredit e₁
    rcases h₂ : l₁.creditRelay p.1 p.2 with ⟨l₂, e | ⟨⟨⟩⟩⟩
    · have hgt : u64Max < l.book.relayCredit p.1 + p.2 := by
        have hgt := (creditRelay_error h₂).2
        rwa [hrel] at hgt
      simp only [h₂, List.cons.injEq, true_and]
      constructor
      · rintro rfl
        exact ⟨hle, .inl rfl, trivial⟩
      · rintro ⟨-, hnil | hfit, -⟩
        · exact hnil.symm
        · exact absurd hfit (not_le.2 hgt)
    · have hfit : l.book.relayCredit p.1 + p.2 ≤ u64Max := by
        have hfit := (creditRelay_ok.1 h₂).1
        rwa [hrel] at hfit
      have hbook : l₂.book.Fits payouts ↔ l.book.Fits payouts := by
        refine Book.fits_congr fun a ha => ?_
        have hne : a ≠ p.1 := fun h => hnot (h ▸ ha)
        rw [book_creditRelay h₂, e₁]
        simp [hne, hrel, book]
      simp only [h₂, List.cons.injEq, true_and, relaysPaid_eq_iff hnd hpos, hbook]
      exact ⟨fun h => ⟨hle, .inr hfit, h⟩, fun h => h.2.2⟩

end Ledger

namespace MintCall

/-- What a mint puts into balances: the miner's part, and the relays' payouts. -/
def paid (c : MintCall) : ℕ × List (Address × ℕ) :=
  match checkedAdd (getCurrentTxSubsidy c.ledger.dagTxCount c.ledger.currentSupply) c.fee with
  | none => (0, [])
  | some totalTxPool =>
    let split := splitPool totalTxPool c.relayNodes
    match c.ledger.creditChecked c.miner split.1 with
    | (_, .error _) => (0, [])
    | (l, .ok ()) => (split.1, l.relaysPaid split.2)

/-- Every mint adds what it paid to the balances and nothing else, also one that fails. -/
theorem balance_outcome (c : MintCall) (a : Address) : c.outcome.1.balance a
    = c.ledger.balance a + (if a = c.miner then c.paid.1 else 0) + payout c.paid.2 a := by
  unfold outcome paid Ledger.mintConfirmedTx
  simp only []
  generalize getCurrentTxSubsidy c.ledger.dagTxCount c.ledger.currentSupply = subsidy
  rcases checkedAdd subsidy c.fee with _ | pool
  · simp [payout]
  simp only []
  rcases h₁ : c.ledger.creditChecked c.miner (splitPool pool c.relayNodes).1 with ⟨l₁, e | ⟨⟨⟩⟩⟩
  · rw [andThen_error, (Ledger.creditChecked_error h₁).1]
    simp [payout]
  have hl₁ : l₁.balance a = c.ledger.balance a
      + if a = c.miner then (splitPool pool c.relayNodes).1 else 0 :=
    congrFun (congrArg Book.balance (Ledger.book_creditChecked h₁)) a
  have hpay := Ledger.balance_payRelays (splitPool pool c.relayNodes).2 l₁ a
  rw [andThen_ok]
  simp only [← hl₁, ← hpay]
  rcases l₁.payRelays (splitPool pool c.relayNodes).2 with ⟨l₂, e | ⟨⟨⟩⟩⟩
  · rfl
  · rw [andThen_ok]
    refine andThen_fst (fun l : Ledger => l.balance a = l₂.balance a) ?_ fun l₃ h₃ => ?_
    · unfold Ledger.addSupply
      split <;> rfl
    · obtain ⟨-, rfl⟩ := Ledger.addSupply_ok.1 h₃
      unfold Ledger.countTx
      split <;> rfl

end MintCall

/-! ## The mints a ledger stands for -/

section Standing

variable (P : Primitives)

/-- The mints of a replay, each with its vertex. -/
def replayStanding (g : Graph) : Ledger → List TxHash → List (TxHash × MintCall)
  | _, [] => []
  | l, id :: order =>
    match g.replayedAt id with
    | none => replayStanding g l order
    | some tx =>
      (spendMints P l tx).map (id, ·) ++
        match l.applyLedgerEffects P tx with
        | (_, .error .overflow) => []
        | (l, _) => replayStanding g l order

def rebuildStanding (d : KronDAG) : List (TxHash × MintCall) :=
  replayStanding P d.toGraph d.baseline d.attachOrder

/-- The mints that stand behind accepting a vertex: one more, or those of a rebuild. -/
def acceptStanding (d : KronDAG) (standing : List (TxHash × MintCall)) (tx : DagTransaction) :
    List (TxHash × MintCall) :=
  match d.checkVertex P tx, d.checkSpend tx with
  | .error _, _ => standing
  | .ok (), .ok _ => standing ++ (attachMints P d tx).map (tx.id, ·)
  | .ok (), .error .overflow => standing
  | .ok (), .error _ => rebuildStanding P { d with toGraph := d.toGraph.insertVertex tx }

def mergeStanding (d : KronDAG) (standing : List (TxHash × MintCall))
    (incomingTxs : List DagTransaction) (relayNodeId : Address) : List (TxHash × MintCall) :=
  match topoOrderIncoming d.toGraph incomingTxs with
  | .error _ => standing
  | .ok ordered =>
    match KronDAG.mergeLoop P relayNodeId d 0 ordered with
    | (_, .error _) => standing
    | (d, .ok inserted) => if 0 < inserted then rebuildStanding P d else standing

/-- The mints that stand behind a call: those from before it and its own, or those of the rebuild it
ends with. -/
def standingAfter (d : KronDAG) (standing : List (TxHash × MintCall)) :
    Op → List (TxHash × MintCall)
  | .credit _ _ => standing
  | .attach host tx device => standing ++ (mintCalls P d (.attach host tx device)).map (tx.id, ·)
  | .accept tx => acceptStanding P d standing tx
  | .merge incomingTxs relayNodeId => mergeStanding P d standing incomingTxs relayNodeId
  | .rebuild => rebuildStanding P d

/-- The mints that stand behind a run. -/
def standingMints : KronDAG → List (TxHash × MintCall) → List Op → List (TxHash × MintCall)
  | _, standing, [] => standing
  | d, standing, op :: ops => standingMints (exec P d op) (standingAfter P d standing op) ops

/-- What is paid of a vertex: what its standing mint paid, or nothing where it has none. -/
def paidOf (standing : List (TxHash × MintCall)) (id : TxHash) : ℕ × List (Address × ℕ) :=
  match standing.lookup id with
  | none => (0, [])
  | some c => c.paid

end Standing

section

variable {P : Primitives} {d : KronDAG} {standing : List (TxHash × MintCall)}

theorem map_snd_replayStanding (g : Graph) : ∀ (order : List TxHash) (l : Ledger),
    (replayStanding P g l order).map Prod.snd = replayMints P g l order
  | [], _ => rfl
  | id :: order, l => by
    have hsnd : ∀ cs : List MintCall, (cs.map (id, ·)).map Prod.snd = cs := fun cs => by
      rw [List.map_map]
      exact List.map_id' cs
    unfold replayStanding replayMints
    rcases g.replayedAt id with _ | tx
    · exact map_snd_replayStanding g order l
    · simp only [List.map_append, hsnd]
      rcases l.applyLedgerEffects P tx with ⟨l', e | ⟨⟨⟩⟩⟩
      · cases e <;> first | rfl | exact congrArg _ (map_snd_replayStanding g order l')
      · exact congrArg _ (map_snd_replayStanding g order l')

theorem map_snd_rebuildStanding : (rebuildStanding P d).map Prod.snd = rebuildMints P d :=
  map_snd_replayStanding _ _ _

theorem mem_append_map {e : TxHash × MintCall} {cs : List MintCall} {id : TxHash}
    (h : e ∈ standing ++ cs.map (id, ·)) : e ∈ standing ∨ e.1 = id ∧ e.2 ∈ cs := by
  refine (List.mem_append.1 h).imp_right fun hmem => ?_
  obtain ⟨c, hc, rfl⟩ := List.mem_map.1 hmem
  exact ⟨rfl, hc⟩

theorem mem_rebuildMints {e : TxHash × MintCall} (h : e ∈ rebuildStanding P d) :
    e.2 ∈ rebuildMints P d := by
  rw [← map_snd_rebuildStanding]
  exact List.mem_map_of_mem h

/-- What stands behind a call stood before it or is a mint of the call. -/
theorem mem_standingAfter {e : TxHash × MintCall} : ∀ {op : Op}, e ∈ standingAfter P d standing op →
    e ∈ standing ∨ e.2 ∈ mintCalls P d op
  | .credit _ _, h => .inl h
  | .attach _ _ _, h => (mem_append_map h).imp_right And.right
  | .accept tx, h => by
    have h : e ∈ acceptStanding P d standing tx := h
    unfold acceptStanding at h
    rw [mintCalls, acceptMints]
    rcases hc : d.checkVertex P tx with e' | ⟨⟨⟩⟩
    · rw [hc] at h
      exact .inl h
    rcases hs : d.checkSpend tx with e' | new
    · rw [hc, hs] at h
      cases e' <;> first | exact .inl h | exact .inr (mem_rebuildMints h)
    · rw [hc, hs] at h
      exact (mem_append_map h).imp_right And.right
  | .merge txs relay, h => by
    have h : e ∈ mergeStanding P d standing txs relay := h
    unfold mergeStanding at h
    rw [mintCalls, mergeMints]
    rcases ht : topoOrderIncoming d.toGraph txs with e' | ordered
    · rw [ht] at h
      exact .inl h
    rw [ht] at h
    simp only [] at h ⊢
    rcases hm : KronDAG.mergeLoop P relay d 0 ordered with ⟨d', e' | n⟩
    · rw [hm] at h
      exact .inl h
    rw [hm] at h
    simp only [] at h ⊢
    split_ifs at h ⊢
    · exact .inr (mem_rebuildMints h)
    · exact .inl h
  | .rebuild, h => .inr (mem_rebuildMints h)

/-! ## Each is the mint of its vertex -/

/-- A mint of the fee of `tx`, to its sender and to the carriers it proves. -/
structure MintCall.Of (P : Primitives) (c : MintCall) (tx : DagTransaction) : Prop where
  fee : c.fee = tx.fee.toNat
  miner : c.miner = tx.sender
  relayNodes : c.relayNodes = tx.provenRelayNodes P

/-- Each mint is that of the stored vertex, which has no other. -/
structure Graph.Mints (P : Primitives) (g : Graph) (standing : List (TxHash × MintCall)) :
    Prop where
  of : ∀ e ∈ standing, ∃ tx, g.vertices.lookup e.1 = some tx ∧ e.2.Of P tx
  once : (standing.map Prod.fst).Nodup

theorem of_mem_spendMints {l : Ledger} {tx : DagTransaction} {c : MintCall}
    (h : c ∈ spendMints P l tx) : c.Of P tx := by
  unfold spendMints at h
  rcases hs : l.checkSpend tx with e | new
  · rw [hs] at h
    cases h
  · rw [hs] at h
    obtain rfl := List.mem_singleton.1 h
    exact ⟨rfl, rfl, rfl⟩

/-- A vertex has one mint at most. -/
theorem spendMints_sublist (l : Ledger) (tx : DagTransaction) (id : TxHash) :
    (((spendMints P l tx).map (id, ·)).map Prod.fst).Sublist [id] := by
  unfold spendMints
  rcases l.checkSpend tx with e | new
  · exact List.nil_sublist _
  · exact List.Sublist.refl _

theorem Graph.Mints.exec (h : d.toGraph.Mints P standing) (op : Op) :
    (exec P d op).toGraph.Mints P standing := by
  refine ⟨fun e he => ?_, h.once⟩
  obtain ⟨tx, hl, hof⟩ := h.of e he
  exact ⟨tx, lookup_exec op hl, hof⟩

/-- What a replay mints is that of the vertices it looks at, in their order. -/
theorem replayStanding_spec (g : Graph) : ∀ (order : List TxHash) (l : Ledger),
    (∀ e ∈ replayStanding P g l order, ∃ tx, g.vertices.lookup e.1 = some tx ∧ e.2.Of P tx)
      ∧ ((replayStanding P g l order).map Prod.fst).Sublist order
  | [], _ => ⟨nofun, List.Sublist.refl _⟩
  | id :: order, l => by
    unfold replayStanding
    rcases hr : g.replayedAt id with _ | tx
    · obtain ⟨hof, hsub⟩ := replayStanding_spec g order l
      exact ⟨hof, hsub.cons id⟩
    -- what comes behind the mint of this vertex
    have hrest : ∀ {rest : List (TxHash × MintCall)},
        ((∀ e ∈ rest, ∃ tx, g.vertices.lookup e.1 = some tx ∧ e.2.Of P tx)
          ∧ (rest.map Prod.fst).Sublist order) →
        (∀ e ∈ (spendMints P l tx).map (id, ·) ++ rest,
            ∃ tx, g.vertices.lookup e.1 = some tx ∧ e.2.Of P tx)
          ∧ (((spendMints P l tx).map (id, ·) ++ rest).map Prod.fst).Sublist (id :: order) := by
      rintro rest ⟨hof, hsub⟩
      refine ⟨fun e he => ?_, ?_⟩
      · rcases List.mem_append.1 he with he | he
        · obtain ⟨c, hc, rfl⟩ := List.mem_map.1 he
          exact ⟨tx, (Graph.replayedAt_eq_some.1 hr).2.1, of_mem_spendMints hc⟩
        · exact hof e he
      · rw [List.map_append]
        exact (spendMints_sublist l tx id).append hsub
    have hstop : (∀ e ∈ ([] : List (TxHash × MintCall)),
        ∃ tx, g.vertices.lookup e.1 = some tx ∧ e.2.Of P tx)
          ∧ (([] : List (TxHash × MintCall)).map Prod.fst).Sublist order :=
      ⟨nofun, List.nil_sublist _⟩
    simp only []
    rcases l.applyLedgerEffects P tx with ⟨l', e' | ⟨⟨⟩⟩⟩
    · cases e' <;> first
        | exact hrest hstop
        | exact hrest (replayStanding_spec g order l')
    · exact hrest (replayStanding_spec g order l')

/-- The mints of a rebuild are those of the vertices it leaves stored. -/
theorem mints_rebuildStanding (hd : d.toGraph.WF) :
    (d.resolveConflictsAndRebuildLedger P).1.toGraph.Mints P (rebuildStanding P d) := by
  rw [d.resolve_frame.1]
  obtain ⟨hof, hsub⟩ := replayStanding_spec (P := P) d.toGraph d.attachOrder d.baseline
  exact ⟨hof, hd.nodup.sublist hsub⟩

/-- The mint of a vertex that is attached is that of a vertex stored behind the call, and there was
none of it before. -/
theorem Graph.Mints.attach (h : d.toGraph.Mints P standing) (tx : DagTransaction) :
    (d.attachVertexAndMaybeMint P tx true (tx.provenRelayNodes P)).1.toGraph.Mints P
      (standing ++ (attachMints P d tx).map (tx.id, ·)) := by
  unfold attachMints
  rcases attach_cases (P := P) d tx (tx.provenRelayNodes P) with ⟨e', ha, he⟩ | ⟨e', ha, hs, he⟩ |
    ⟨new, ha, hs, he⟩
  · rw [ha, he]
    simpa using h
  · rw [ha, he]
    simpa [spendMints, hs] using h
  have hnew := (Graph.checkVertex_ok ha).1
  have hfresh : tx.id ∉ standing.map Prod.fst := by
    intro hmem
    obtain ⟨e, he, hid⟩ := List.mem_map.1 hmem
    obtain ⟨y, hy, -⟩ := h.of e he
    rw [hid, hnew] at hy
    cases hy
  rw [ha, he, (d.attached_frame tx new _).1]
  simp only []
  refine ⟨fun e he => ?_, ?_⟩
  · rcases mem_append_map he with he | ⟨hid, he⟩
    · obtain ⟨y, hy, hof⟩ := h.of e he
      exact ⟨y, Graph.lookup_insertVertex_of_lookup ha hy, hof⟩
    · split_ifs at he
      · cases he
      · exact ⟨tx, by rw [hid, Graph.lookup_insertVertex, if_pos rfl], of_mem_spendMints he⟩
  · rw [List.map_append]
    refine List.nodup_append.2 ⟨h.once, ?_, ?_⟩
    · split_ifs
      · exact List.nodup_nil
      · exact (List.nodup_singleton tx.id).sublist (spendMints_sublist _ tx tx.id)
    · rintro a ha' b hb rfl
      obtain ⟨e, he, rfl⟩ := List.mem_map.1 hb
      obtain ⟨c, -, rfl⟩ := List.mem_map.1 he
      exact hfresh ha'

theorem Graph.Mints.acceptStanding (h : d.toGraph.Mints P standing) (hd : d.toGraph.WF)
    (tx : DagTransaction) :
    (d.acceptWireVertex P tx).1.toGraph.Mints P (acceptStanding P d standing tx) := by
  have hold := h.exec (.accept tx)
  rw [exec_accept] at hold
  rw [KronMesh.acceptStanding]
  rcases hc : d.checkVertex P tx with e' | ⟨⟨⟩⟩
  · exact hold
  rw [accept_admitted hc] at hold ⊢
  have hatt := h.attach tx
  rcases attach_cases (P := P) d tx (tx.provenRelayNodes P) with ⟨e', ha, -⟩ | ⟨e', -, hs, -⟩ |
    ⟨new, -, hs, he⟩
  · rw [hc] at ha
    cases ha
  · rw [hs] at hold ⊢
    have hresolve := mints_rebuildStanding (P := P)
      (d := { d with toGraph := d.toGraph.insertVertex tx }) (hd.insertVertex hc)
    cases e' <;> first | exact hold | exact hresolve
  · rw [he] at hatt
    rw [hs]
    exact hatt

theorem Graph.Mints.mergeStanding (h : d.toGraph.Mints P standing) (hd : d.toGraph.WF)
    (txs : List DagTransaction) (relay : Address) :
    (d.mergeOfflineGraphs P txs relay).1.toGraph.Mints P
      (mergeStanding P d standing txs relay) := by
  have hold := h.exec (.merge txs relay)
  have hwf : ∀ ordered, (KronDAG.mergeLoop P relay d 0 ordered).1.toGraph.WF := fun ordered =>
    graphWF_steps hd (mergeLoop_steps relay ordered d 0)
  rw [exec_merge] at hold
  rw [KronMesh.mergeStanding]
  unfold KronDAG.mergeOfflineGraphs at hold ⊢
  rcases ht : topoOrderIncoming d.toGraph txs with e' | ordered
  · exact h
  have hwf := hwf ordered
  rw [ht] at hold
  simp only [] at hold ⊢
  rcases hm : KronDAG.mergeLoop P relay d 0 ordered with ⟨d', e' | n⟩
  · rw [hm] at hold
    exact hold
  rw [hm] at hold hwf
  simp only [] at hold ⊢
  split_ifs at hold ⊢
  · have hmint := mints_rebuildStanding (P := P) hwf
    rcases hr : d'.resolveConflictsAndRebuildLedger P with ⟨d'', e' | ⟨⟨⟩⟩⟩
    all_goals
      rw [hr] at hmint
      exact hmint
  · exact hold

theorem Graph.Mints.standingAfter (h : d.toGraph.Mints P standing) (hd : d.toGraph.WF) : ∀ op : Op,
    (KronMesh.exec P d op).toGraph.Mints P (standingAfter P d standing op)
  | .credit a n => h.exec (.credit a n)
  | .attach host tx device => by
    rw [KronMesh.exec, KronDAG.attachAndVerifyFor, KronMesh.standingAfter, mintCalls]
    rcases device.admitHost host with e' | ⟨⟨⟩⟩
    · rw [List.map_nil, List.append_nil]
      exact h
    · exact h.attach tx
  | .accept tx => by
    rw [exec_accept]
    exact h.acceptStanding hd tx
  | .merge txs relay => by
    rw [exec_merge]
    exact h.mergeStanding hd txs relay
  | .rebuild => mints_rebuildStanding hd

theorem mints_run (h : KronDAG.withGenesis P = some d) (ops : List Op) :
    (run P d ops).toGraph.Mints P (standingMints P d [] ops) := by
  have hrun : ∀ (ops pre : List Op) {standing : List (TxHash × MintCall)},
      (run P d pre).toGraph.Mints P standing →
        (run P d (pre ++ ops)).toGraph.Mints P (standingMints P (run P d pre) standing ops) := by
    intro ops
    induction ops with
    | nil =>
      intro pre standing hpre
      rwa [List.append_nil]
    | cons op ops ih =>
      intro pre standing hpre
      have hstep := hpre.standingAfter (wf_run h pre).graph op
      rw [← run_concat] at hstep
      have hrest := ih (pre ++ [op]) hstep
      rw [run_concat, List.append_assoc] at hrest
      exact hrest
  exact hrun ops [] ⟨nofun, List.nodup_nil⟩

/-- Every standing mint was made by a call of the run. -/
theorem mem_standingMints {e : TxHash × MintCall} : ∀ {ops : List Op} {d : KronDAG}
    {standing : List (TxHash × MintCall)}, e ∈ standingMints P d standing ops → e ∈ standing ∨
      ∃ pre op post, ops = pre ++ op :: post ∧ e.2 ∈ mintCalls P (run P d pre) op
  | [], _, _, h => .inl h
  | op :: ops, d, standing, h => by
    have h : e ∈ standingMints P (exec P d op) (standingAfter P d standing op) ops := h
    rcases mem_standingMints h with h | ⟨pre, op', post, rfl, hmem⟩
    · refine (mem_standingAfter h).imp_right fun hmem => ?_
      exact ⟨[], op, ops, rfl, hmem⟩
    · exact .inr ⟨op :: pre, op', post, rfl, hmem⟩

end

end KronMesh
