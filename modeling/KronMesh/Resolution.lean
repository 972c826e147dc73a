import KronMesh.Merge

/-!
# What a rebuild leaves

After a rebuild that goes through, a nonce of a sender has at most one applied vertex, and each
vertex that is not applied is a conflict: with the one that outranks its nonce, or with the dummy
parent when it outranks the others itself. The applied vertices of a sender spend its nonces without
a gap, in attach order, and every one of them is counted.
-/

namespace KronMesh

open Word Outcome

variable {P : Primitives} {d d' : KronDAG}

namespace Ledger

/-- A mint that goes through has counted its vertex within a word. -/
theorem count_applyLedgerEffects {l l' : Ledger} {tx : DagTransaction}
    (h : l.applyLedgerEffects P tx = (l', .ok ())) :
    l'.dagTxCount = l.dagTxCount + 1 ∧ l.dagTxCount + 1 ≤ u64Max := by
  have hcount : l'.dagTxCount = l.dagTxCount + 1 := by
    obtain ⟨-, hb⟩ := Book.apply_eq_some.1 (book_applyLedgerEffects h)
    exact (congrArg Book.count hb).symm
  refine ⟨hcount, ?_⟩
  unfold applyLedgerEffects at h
  rcases hs : l.checkSpend tx with e | new
  · rw [hs] at h
    cases h
  · rw [hs] at h
    obtain ⟨-, l₁, l₂, -, -, -, hc, rfl⟩ := mintConfirmedTx_eq_ok.1 (mapErr_eq_ok.1 h)
    exact hcount ▸ hc

/-- One vertex spends the nonce that is due and moves that of its sender on by one. No nonce
saturates, being no more than the count of vertices. -/
theorem nonce_applyLedgerEffects {l l' : Ledger} {tx : DagTransaction} {a : Address}
    (h : l.applyLedgerEffects P tx = (l', .ok ())) (hle : l.nextNonce.get a ≤ l.dagTxCount) :
    (tx.sender = a → tx.nonce.toNat = l.nextNonce.get a)
      ∧ l'.nextNonce.get a = l.nextNonce.get a + (if tx.sender = a then 1 else 0)
      ∧ l'.nextNonce.get a ≤ l'.dagTxCount := by
  obtain ⟨⟨hdue, -⟩, hb⟩ := Book.apply_eq_some.1 (book_applyLedgerEffects h)
  obtain ⟨hc, hmax⟩ := count_applyLedgerEffects h
  have hn : l'.nextNonce.get a
      = if a = tx.sender then saturatingAdd (l.nextNonce.get a) 1 else l.nextNonce.get a :=
    (congrFun (congrArg Book.nonce hb) a).symm
  by_cases ha : tx.sender = a
  · subst ha
    have hsat : saturatingAdd (l.nextNonce.get tx.sender) 1 = l.nextNonce.get tx.sender + 1 :=
      min_eq_left (by omega)
    rw [if_pos rfl, hsat] at hn
    exact ⟨fun _ => hdue, by rw [hn, if_pos rfl], by omega⟩
  · rw [if_neg (Ne.symm ha)] at hn
    exact ⟨fun h => absurd h ha, by rw [hn, if_neg ha, Nat.add_zero], by omega⟩

/-- The vertices of a sender that are taken spend its nonces one after the other. -/
theorem nonces_applyAll (a : Address) : ∀ (txs : List DagTransaction) {l l' : Ledger},
    l.applyAll P txs = (l', .ok ()) → l.nextNonce.get a ≤ l.dagTxCount →
      l.nextNonce.get a ≤ l'.nextNonce.get a ∧
      (txs.filter fun tx => tx.sender = a).map (fun tx => tx.nonce.toNat)
        = List.range' (l.nextNonce.get a) (l'.nextNonce.get a - l.nextNonce.get a)
  | [], l, l', h, _ => by
    cases h
    simp
  | tx :: txs, l, l', h, hle => by
    obtain ⟨l₁, h₁, h⟩ := andThen_eq_ok.1 h
    obtain ⟨hdue, hn, hle₁⟩ := nonce_applyLedgerEffects (a := a) h₁ hle
    obtain ⟨hmono, hrest⟩ := nonces_applyAll a txs h hle₁
    by_cases ha : tx.sender = a
    · rw [if_pos ha] at hn
      refine ⟨by omega, ?_⟩
      have hlen : l'.nextNonce.get a - l.nextNonce.get a
          = (l'.nextNonce.get a - l₁.nextNonce.get a) + 1 := by omega
      rw [List.filter_cons_of_pos (by simpa using ha), List.map_cons, hrest, hdue ha, hlen,
        List.range'_succ, hn]
    · rw [if_neg ha, Nat.add_zero] at hn
      rw [List.filter_cons_of_neg (by simpa using ha), hrest, hn]
      exact ⟨hn ▸ hmono, rfl⟩

end Ledger

namespace KronDAG

/-- A vertex that is outranked is a conflict with the one that outranks its nonce. -/
theorem conflict_of_spends (hd : d.toGraph.WF)
    (h : d.resolveConflictsAndRebuildLedger P = (d', .ok ())) {key : Address × UInt64}
    {id w : TxHash} (hid : d.Spends id key) (hw : d.Spends w key) (hne : id ≠ w)
    (htop : ∀ c, d.Spends c key → d.RankLE c w) : d'.conflicts.lookup id = some w := by
  have hl := (Graph.lookup_winnerOf hd id w).2 ⟨key, hid, hw, hne, htop⟩
  rw [(resolve_ok hd h).2.2, lookup_noteExtraLosers, hl]
  rfl

/-- A vertex that outranks its nonce is no conflict, or one with the dummy parent. -/
theorem conflict_of_top (hd : d.toGraph.WF)
    (h : d.resolveConflictsAndRebuildLedger P = (d', .ok ())) {id : TxHash} (htop : d.Top id) :
    d'.conflicts.lookup id = none ∨ d'.conflicts.lookup id = some nullParent := by
  have hl : ¬ (d.winnerOf.lookup id).isSome := fun hw =>
    ((Graph.winnerOf_isSome hd id).1 hw).2 htop
  rw [(resolve_ok hd h).2.2, lookup_noteExtraLosers, if_neg hl]
  split_ifs
  · exact .inr rfl
  · exact .inl rfl

/-- What is applied outranks its nonce. -/
theorem top_of_appliedAt (hd : d.toGraph.WF)
    (h : d.resolveConflictsAndRebuildLedger P = (d', .ok ())) {id : TxHash} {tx : DagTransaction}
    (ha : d'.appliedAt id = some tx) : d.Top id := by
  have hg := (d.resolve_frame (P := P)).1
  rw [h] at hg
  obtain ⟨hconf, hl, hgen⟩ := appliedAt_eq_some.1 ha
  rw [hg] at hl
  by_contra hnot
  have hlose := (Graph.winnerOf_isSome hd id).2 ⟨⟨_, tx, hl, hgen, rfl⟩, hnot⟩
  unfold isConflict at hconf
  rw [(resolve_ok hd h).2.2, lookup_noteExtraLosers, if_pos hlose, hlose] at hconf
  cases hconf

/-- The state behind any rebuild that goes through: which vertices are applied, what the others are
recorded with, and the nonces and the count of the applied ones. -/
theorem rebuild_postcondition (h : withGenesis P = some d) (ops : List Op)
    (hres : (run P d ops).resolveConflictsAndRebuildLedger P = (d', .ok ())) :
    (∀ id id' tx tx', d'.appliedAt id = some tx → d'.appliedAt id' = some tx' →
      tx.sender = tx'.sender → tx.nonce = tx'.nonce → id = id')
    ∧ (∀ key, (∃ id, d'.Spends id key) → ∃ w, d'.Spends w key
      ∧ (∀ c, d'.Spends c key → d'.RankLE c w)
      ∧ (∀ id, d'.Spends id key → id ≠ w → d'.conflicts.lookup id = some w)
      ∧ (d'.appliedAt w = none → d'.conflicts.lookup w = some nullParent))
    ∧ (∀ a, (d'.applied.filter fun tx => tx.sender = a).map (fun tx => tx.nonce.toNat)
      = List.range (d'.nextNonce.get a))
    ∧ d'.dagTxCount = d'.applied.length := by
  have hd := (wf_run h ops).graph
  have hg := ((run P d ops).resolve_frame (P := P)).1
  rw [hres] at hg
  have hall := resolve_applyAll hd hres
  refine ⟨fun id id' tx tx' ha ha' hs hn => ?_, fun key hkey => ?_, fun a => ?_, ?_⟩
  · obtain ⟨key, hid, ht⟩ := top_of_appliedAt hd hres ha
    obtain ⟨key', hid', ht'⟩ := top_of_appliedAt hd hres ha'
    obtain ⟨-, hl, hgen⟩ := appliedAt_eq_some.1 ha
    obtain ⟨-, hl', hgen'⟩ := appliedAt_eq_some.1 ha'
    rw [hg] at hl hl'
    have hkey := hid.key_eq ⟨tx, hl, hgen, rfl⟩
    have hkey' := hid'.key_eq ⟨tx', hl', hgen', rfl⟩
    rw [hs, hn, ← hkey'] at hkey
    subst hkey
    exact Graph.RankLE.antisymm (ht' id hid) (ht id' hid')
  · rw [hg] at hkey ⊢
    obtain ⟨id, hid⟩ := hkey
    obtain ⟨w, hw, ht⟩ := Graph.exists_top hd hid
    refine ⟨w, hw, ht, fun c hc hne => conflict_of_spends hd hres hc hw hne ht, fun hnone => ?_⟩
    refine (conflict_of_top hd hres ⟨key, hw, ht⟩).resolve_left fun hconf => ?_
    obtain ⟨tx, hl, hgen, -⟩ := hw
    have hisconf : d'.isConflict w = true :=
      isConflict_of_appliedAt_eq_none (hg ▸ hl) hgen hnone
    unfold isConflict at hisconf
    rw [hconf] at hisconf
    cases hisconf
  · have hnone : (run P d ops).baseline.nextNonce.get a = 0 := rfl
    obtain ⟨-, hr⟩ := Ledger.nonces_applyAll a _ hall (Nat.zero_le _)
    rw [hr, hnone, Nat.sub_zero, List.range_eq_range']
  · have hc := Ledger.count_applyAll _ hall
    have h0 : (run P d ops).baseline.dagTxCount = 0 := rfl
    rw [hc, h0, Nat.zero_add]

end KronDAG

section

open StandIn

/-- Of two spends of one nonce the rebuild leaves the one of greater id applied and records the
other with it. -/
theorem rebuild_postcondition_forkOps : ∃ d',
    (run primitives genesisDag forkOps).resolveConflictsAndRebuildLedger primitives = (d', .ok ())
      ∧ d'.conflicts.lookup firstTransfer.id = some rivalTransfer.id
      ∧ (d'.applied.filter fun tx => tx.sender = address 1).map (fun tx => tx.nonce.toNat)
        = List.range (d'.nextNonce.get (address 1))
      ∧ d'.dagTxCount = d'.applied.length := by
  have hok : (forkDag.resolveConflictsAndRebuildLedger primitives).2 = .ok () := by decide
  have hrival : (forkDag.resolveConflictsAndRebuildLedger primitives).1.isConflict
      rivalTransfer.id = false := by
    decide
  rw [← run_forkOps] at hok hrival
  obtain ⟨d', hres⟩ := Outcome.of_snd_ok hok
  rw [hres] at hrival
  obtain ⟨-, hkeys, hnonces, hcount⟩ :=
    KronDAG.rebuild_postcondition withGenesis_genesisDag forkOps hres
  refine ⟨d', hres, ?_, hnonces (address 1), hcount⟩
  have hgraph := ((run primitives genesisDag forkOps).resolve_frame (P := primitives)).1
  rw [hres, run_forkOps] at hgraph
  obtain ⟨hfirst, hsecond⟩ : d'.Spends firstTransfer.id (address 1, 0)
      ∧ d'.Spends rivalTransfer.id (address 1, 0) := by
    rw [hgraph]
    exact spends_forkDag
  obtain ⟨w, -, -, hloses, -⟩ := hkeys _ ⟨_, hfirst⟩
  -- the rival is no conflict, so it is the winner
  have hw : rivalTransfer.id = w := by
    by_contra hne
    have hconf := hloses _ hsecond hne
    rw [KronDAG.isConflict, hconf] at hrival
    cases hrival
  subst hw
  exact hloses _ hfirst (by decide)

end

end KronMesh
