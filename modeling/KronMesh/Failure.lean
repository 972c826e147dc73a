import KronMesh.Conservation

/-!
# What an error leaves

A rebuild fails where it meets a vertex whose amount and fee exceed a word when its nonce is due,
and within room nowhere else (`resolve_isOk_iff`). Attaching within room never fails after it has
changed the node. Accepting fails after a change exactly when the vertex is stored aside and the
rebuild behind it fails (`error_unchanged_run`).
-/

namespace KronMesh

open Word Outcome

namespace KronDAG

variable {P : Primitives} {d : KronDAG} {tx : DagTransaction}

/-- The book of a rebuild when it has gone through `pre`. -/
def bookBefore (P : Primitives) (d : KronDAG) (pre : List TxHash) : Book :=
  Replay.greedy (Book.apply P) d.baseBook (pre.filterMap d.replayedAt)

/-- A vertex that is replayed is kept when the book at its place covers it. -/
theorem mem_kept_replayed (hd : d.toGraph.WF) {pre post : List TxHash}
    (ho : d.attachOrder = pre ++ tx.id :: post) (hrep : d.replayedAt tx.id = some tx) :
    tx ∈ Replay.kept (Book.apply P) d.baseBook d.replayed ↔ (d.bookBefore P pre).Covers tx := by
  have hsplit : d.replayed = pre.filterMap d.replayedAt ++ tx :: post.filterMap d.replayedAt := by
    unfold Graph.replayed
    rw [ho, List.filterMap_append, List.filterMap_cons_some hrep]
  have hnd := hd.nodup_replayed
  rw [hsplit, List.nodup_append] at hnd
  obtain ⟨-, hpost, hdisj⟩ := hnd
  rw [hsplit, Replay.mem_kept_iff (fun hm => hdisj tx hm tx List.mem_cons_self rfl)
    (List.nodup_cons.1 hpost).1]
  unfold bookBefore Book.apply
  split_ifs with hc <;> simp [hc]

/-- No vertex that is replayed and exceeds a word is due at its place in the attach order. -/
def ReplaySafe (P : Primitives) (d : KronDAG) : Prop :=
  ∀ pre id post tx, d.attachOrder = pre ++ id :: post → d.replayedAt id = some tx →
    u64Max < tx.cost → tx.nonce.toNat ≠ (d.bookBefore P pre).nonce tx.sender

/-- A graph without a vertex that exceeds a word is safe. -/
theorem replaySafe_of_cost (h : ∀ id tx, d.vertices.lookup id = some tx → tx.cost ≤ u64Max) :
    d.ReplaySafe P := by
  intro pre id post tx _ hr hc
  exact absurd (h id tx (Graph.replayedAt_eq_some.1 hr).2.1) (not_le.2 hc)

/-- An order has nothing in it that is due and exceeds a word exactly when its first place has not,
nor the rest from the book behind it. -/
theorem forall_places_cons {id : TxHash} {order : List TxHash} {b c : Book}
    (hb : ∀ pre, Replay.greedy (Book.apply P) b ((id :: pre).filterMap d.replayedAt)
      = Replay.greedy (Book.apply P) c (pre.filterMap d.replayedAt)) :
    (∀ pre id' post tx, id :: order = pre ++ id' :: post → d.replayedAt id' = some tx →
      u64Max < tx.cost → tx.nonce.toNat
        ≠ (Replay.greedy (Book.apply P) b (pre.filterMap d.replayedAt)).nonce tx.sender) ↔
      (∀ tx, d.replayedAt id = some tx → u64Max < tx.cost → tx.nonce.toNat ≠ b.nonce tx.sender) ∧
      ∀ pre id' post tx, order = pre ++ id' :: post → d.replayedAt id' = some tx →
        u64Max < tx.cost → tx.nonce.toNat
          ≠ (Replay.greedy (Book.apply P) c (pre.filterMap d.replayedAt)).nonce tx.sender := by
  constructor
  · intro h
    refine ⟨fun tx hr hc => h [] id order tx rfl hr hc, fun pre id' post tx ho hr hc => ?_⟩
    rw [← hb]
    exact h (id :: pre) id' post tx (by rw [ho]; rfl) hr hc
  · rintro ⟨h1, h2⟩ pre id' post tx ho hr hc
    rcases pre with _ | ⟨x, pre⟩
    · cases ho
      exact h1 tx hr hc
    · cases ho
      rw [hb]
      exact h2 pre id' post tx rfl hr hc

/-- Within room, a replay goes through exactly when it meets no vertex that is due and exceeds a
word. -/
theorem replayLoop_isOk_iff (hd : d.toGraph.WF) (hroom : d.HasRoom) :
    ∀ (order : List TxHash) (k : ℕ) (l : Ledger) (extra : List TxHash),
      l.Sound d.faucetTotal k → k + order.length ≤ d.vertexCount →
      ((∃ l' extra', replayLoop P d.vertices d.winnerOf l extra order = (l', .ok extra')) ↔
        ∀ pre id post tx, order = pre ++ id :: post → d.replayedAt id = some tx →
          u64Max < tx.cost → tx.nonce.toNat
            ≠ (Replay.greedy (Book.apply P) l.book (pre.filterMap d.replayedAt)).nonce tx.sender)
  | [], k, l, extra, _, _ => by
    refine iff_of_true ⟨l, extra, rfl⟩ fun pre id post tx h => ?_
    simp at h
  | id :: order, k, l, extra, hl, hk => by
    rw [List.length_cons] at hk
    rcases hr : d.replayedAt id with _ | tx
    · rw [replayLoop_none l extra order hr, forall_places_cons (c := l.book) (fun pre => by
        rw [List.filterMap_cons, hr]), replayLoop_isOk_iff hd hroom order k l extra hl (by omega)]
      simp [hr]
    · have hr' : Ledger.Room d.faucetTotal (k + 1) := hroom.mono le_rfl (by omega)
      obtain ⟨hsound, hover⟩ := hl.apply (P := P) hr' (fee_replayedAt hd hr)
      have hdue : (l.applyLedgerEffects P tx).2 ≠ .error .overflow →
          ∀ tx', d.replayedAt id = some tx' → u64Max < tx'.cost →
            tx'.nonce.toNat ≠ l.book.nonce tx'.sender := by
        intro hne tx' hr' hc hn
        rw [hr] at hr'
        cases hr'
        exact hne (hover.2 ⟨hn, hc⟩)
      rcases replayLoop_some (P := P) l extra order hr with ⟨l₁, ha, he⟩ |
        ⟨e, ha, hne, hb, he⟩ | ⟨l₁, ha, he⟩
      · have hbook := Ledger.book_applyLedgerEffects ha
        rw [ha] at hsound hdue
        rw [he, forall_places_cons (c := l₁.book) (fun pre => by
          rw [List.filterMap_cons, hr]
          simp only []
          rw [Replay.greedy_cons, Replay.step_some hbook]),
          replayLoop_isOk_iff hd hroom order (k + 1) l₁ extra hsound (by omega)]
        exact ⟨fun h => ⟨hdue (by simp), h⟩, fun h => h.2⟩
      · rw [ha] at hdue
        rw [he, forall_places_cons (c := l.book) (fun pre => by
          rw [List.filterMap_cons, hr]
          simp only []
          rw [Replay.greedy_cons, Replay.step_none hb]),
          replayLoop_isOk_iff hd hroom order k l _ hl (by omega)]
        have hne' : (Except.error e : Except DagError Unit) ≠ .error .overflow := by
          simpa using hne
        exact ⟨fun h => ⟨hdue hne', h⟩, fun h => h.2⟩
      · obtain ⟨hn, hc⟩ := hover.1 (by rw [ha])
        rw [he]
        constructor
        · rintro ⟨l', extra', h⟩
          cases h
        · exact fun h => absurd hn (h [] id order tx rfl hr hc)

/-- Within room, a rebuild goes through exactly when its replay is safe. -/
theorem resolve_isOk_iff (hd : d.toGraph.WF) (hroom : d.HasRoom) :
    (∃ d', d.resolveConflictsAndRebuildLedger P = (d', .ok ())) ↔ d.ReplaySafe P := by
  have hloop := replayLoop_isOk_iff (P := P) hd hroom d.attachOrder 0 d.baseline []
    d.sound_baseline ((Nat.zero_add _).trans hd.length).le
  rw [ReplaySafe, show (∀ pre id post tx, d.attachOrder = pre ++ id :: post →
    d.replayedAt id = some tx → u64Max < tx.cost →
      tx.nonce.toNat ≠ (d.bookBefore P pre).nonce tx.sender) ↔ _ from hloop.symm]
  unfold resolveConflictsAndRebuildLedger
  simp only []
  rcases replayLoop P d.vertices d.winnerOf d.baseline [] d.attachOrder with ⟨l, e | extra⟩
  · simp
  · simp

/-- The vertex is admitted, but its spend cannot be applied at once. -/
def StoredAside (P : Primitives) (d : KronDAG) (tx : DagTransaction) : Prop :=
  d.checkVertex P tx = .ok () ∧ ∃ e, d.checkSpend tx = .error e ∧ e ≠ .overflow

/-- The room for one more vertex. -/
theorem HasRoom.of_stored (hcheck : d.checkVertex P tx = .ok ())
    (hroom : Ledger.Room d.faucetTotal (d.vertexCount + 1)) : (d.stored tx).HasRoom := by
  unfold HasRoom vertexCount faucetTotal
  rw [Graph.length_entries_insertVertex (Graph.checkVertex_ok hcheck).1]
  exact hroom

/-- Within room, a vertex whose spend is checked is attached without an error. -/
theorem attached_isOk (hd : d.Sound) (hroom : Ledger.Room d.faucetTotal (d.vertexCount + 1))
    {new : ℕ × ℕ} (hcheck : d.checkVertex P tx = .ok ()) (hs : d.checkSpend tx = .ok new)
    (relays : List Address) : (d.attached tx new relays).2 = .ok () := by
  have hgen := hd.graph.not_isGenesis hcheck
  have hfee := (Graph.checkVertex_ok hcheck).2.2.1.trans (DagTransaction.requiredFee_of hgen)
  obtain ⟨l', hm, -⟩ := hd.ledger.mint hroom hfee hs relays
  unfold attached onLedger
  simp only [hgen, if_true, hm, mapErr]

theorem attach_error_unchanged (hd : d.Sound)
    (hroom : Ledger.Room d.faucetTotal (d.vertexCount + 1)) (host : Except ShieldError Unit)
    (device : AttachingDevice) {d' : KronDAG} {e : DagError}
    (h : d.attachAndVerifyFor P host tx device = (d', .error e)) : d' = d := by
  rcases attachFor_cases (P := P) d host tx device with ⟨e', ha⟩ | ⟨new, hcheck, hs, ha⟩
  · rw [ha] at h
    cases h
    rfl
  · have hok := attached_isOk hd hroom hcheck hs (tx.provenRelayNodes P)
    rw [ha] at h
    rw [h] at hok
    cases hok

/-- Within room, accepting fails after a change exactly when the vertex is stored aside and the
replay with it in is not safe. -/
theorem accept_error_unchanged_iff (hd : d.Sound)
    (hroom : Ledger.Room d.faucetTotal (d.vertexCount + 1)) :
    (∀ d' e, d.acceptWireVertex P tx = (d', .error e) → d' = d) ↔
      (d.StoredAside P tx → (d.stored tx).ReplaySafe P) := by
  have hsafe : d.checkVertex P tx = .ok () →
      ((∃ d', (d.stored tx).resolveConflictsAndRebuildLedger P = (d', .ok ()))
        ↔ (d.stored tx).ReplaySafe P) := fun hcheck =>
    resolve_isOk_iff (hd.graph.insertVertex hcheck) (.of_stored hcheck hroom)
  constructor
  · rintro h ⟨hcheck, e, hs, hne⟩
    rw [← hsafe hcheck]
    rcases hr : (d.stored tx).resolveConflictsAndRebuildLedger P with ⟨d', e' | ⟨⟨⟩⟩⟩
    · -- the state left has the vertex in it, the one before had not
      have hacc : d.acceptWireVertex P tx = (d', .error e') := by
        rcases accept_cases (P := P) d tx with ⟨hc, -⟩ | ⟨e₁, ha | ⟨hs₁, -⟩, -⟩ | ⟨new, -, hs₁, -⟩ |
          ⟨e₁, -, -, -, he⟩
        · rw [Graph.not_contains_of_checkVertex hcheck] at hc
          cases hc
        · rw [hcheck] at ha
          cases ha
        · rw [hs] at hs₁
          cases hs₁
          exact absurd rfl hne
        · rw [hs] at hs₁
          cases hs₁
        · rw [he, hr]
          rfl
      have heq := h d' e' hacc
      have hg := (d.stored tx).resolve_frame (P := P) |>.1
      rw [hr, heq] at hg
      have hl := congrArg (fun g => g.vertices.entries.length) hg
      simp only [Graph.length_entries_insertVertex (Graph.checkVertex_ok hcheck).1] at hl
      omega
    · exact ⟨d', rfl⟩
  · intro h d' e hacc
    rcases accept_cases (P := P) d tx with ⟨-, he⟩ | ⟨e₁, -, he⟩ | ⟨new, hcheck, hs, he⟩ |
      ⟨e₁, hcheck, hs, hne, he⟩
    · rw [he] at hacc
      cases hacc
    · rw [he] at hacc
      cases hacc
      rfl
    · rw [he, attached_isOk hd hroom hcheck hs] at hacc
      cases hacc
    · obtain ⟨d₁, hr⟩ := (hsafe hcheck).2 (h ⟨hcheck, e₁, hs, hne⟩)
      rw [he, hr] at hacc
      cases hacc

end KronDAG

section Runs

variable {P : Primitives} {d : KronDAG}

open KronDAG

/-- In every state of a run within room, the rebuild goes through exactly when its replay is safe,
so whenever no stored vertex exceeds a word. -/
theorem rebuild_run_iff (h : withGenesis P = some d) (ops : List Op)
    (hF : credited ops + hardCap ≤ u64Max)
    (hn : hardCap + fixedTransactionFee * (run P d ops).vertexCount ≤ u64Max) :
    ((∃ d', (run P d ops).resolveConflictsAndRebuildLedger P = (d', .ok ()))
        ↔ (run P d ops).ReplaySafe P) ∧
      ((∀ id tx, (run P d ops).vertices.lookup id = some tx →
          tx.amount.toNat + tx.fee.toNat ≤ u64Max) →
        ∃ d', (run P d ops).resolveConflictsAndRebuildLedger P = (d', .ok ())) := by
  have hroom := hasRoom_run h ops hF hn
  have hiff := resolve_isOk_iff (P := P) (sound_run h ops hroom).graph hroom
  exact ⟨hiff, fun hcost => hiff.2 (replaySafe_of_cost hcost)⟩

open StandIn in
theorem rebuild_run_iff_firstOps :
    ∃ d', (run primitives genesisDag firstOps).resolveConflictsAndRebuildLedger primitives
      = (d', .ok ()) := by
  have hn : hardCap + fixedTransactionFee * (run primitives genesisDag firstOps).vertexCount
      ≤ u64Max := by
    rw [run_firstOps]
    decide
  refine (rebuild_run_iff withGenesis_genesisDag firstOps (by decide) hn).2 fun id tx hl => ?_
  rw [run_firstOps] at hl
  have hall : ∀ e ∈ firstDag.vertices.entries, e.2.amount.toNat + e.2.fee.toNat ≤ u64Max := by
    decide
  exact hall ⟨id, tx⟩ (AList.mem_lookup_iff.1 hl)

namespace StandIn

/-- A spend of all a word can count, from an empty wallet. -/
def hugeTransfer : DagTransaction :=
  transfer 12530997401096 2 genesisId genesisId (address 1) 18446744073709551615 0

def hugeOps : List Op := [.merge [hugeTransfer] 0]

def hugeDag : KronDAG :=
  (KronDAG.resolveConflictsAndRebuildLedger primitives
    { genesisDag with
      toGraph := genesisDag.toGraph.insertVertex hugeTransfer
      relayOf := genesisDag.relayOf.insert 12530997401096 0 }).1

theorem run_hugeOps : run primitives genesisDag hugeOps = hugeDag := by
  have h := merge_transfer (d := genesisDag) 12530997401096 2 genesisId genesisId (address 1)
    18446744073709551615 0 0 (by decide)
  rw [hugeOps, run_cons, exec_merge, run_nil]
  exact h

end StandIn

open StandIn in
/-- A merge stores a spend of `u64::MAX`, which is due; from then on every rebuild fails. -/
theorem rebuild_overflows :
    KronDAG.withGenesis primitives = some genesisDag
      ∧ hugeTransfer.verifySignature primitives = true
      ∧ hugeTransfer.id = DagTransaction.computeId primitives hugeTransfer.unsignedBytes
      ∧ credited hugeOps + hardCap ≤ u64Max
      ∧ ((run primitives genesisDag hugeOps).resolveConflictsAndRebuildLedger primitives).2
        = .error .overflow := by
  refine ⟨withGenesis_genesisDag, verify_signed _ _ _ _ _ _ _ _, by decide, by decide, ?_⟩
  rw [run_hugeOps]
  decide

/-- In every state of a run within room, an error of attaching leaves the state as it was, and one
of accepting does exactly when no vertex is stored aside in front of an unsafe replay. -/
theorem error_unchanged_run_iff (h : withGenesis P = some d) (ops : List Op)
    (hF : credited ops + hardCap ≤ u64Max)
    (hn : hardCap + fixedTransactionFee * ((run P d ops).vertexCount + 1) ≤ u64Max) :
    (∀ host tx device d' e,
      (run P d ops).attachAndVerifyFor P host tx device = (d', .error e) → d' = run P d ops) ∧
    ∀ tx, (∀ d' e, (run P d ops).acceptWireVertex P tx = (d', .error e) → d' = run P d ops) ↔
      ((run P d ops).StoredAside P tx → ((run P d ops).stored tx).ReplaySafe P) := by
  have hn' : hardCap + fixedTransactionFee * (run P d ops).vertexCount ≤ u64Max :=
    (Nat.add_le_add_left (Nat.mul_le_mul_left _ (Nat.le_succ _)) _).trans hn
  have hroom := hasRoom_run h ops hF hn'
  have hd := sound_run h ops hroom
  have hroom' : Ledger.Room (run P d ops).faucetTotal ((run P d ops).vertexCount + 1) :=
    ⟨hroom.faucet, hn⟩
  exact ⟨fun host tx device d' e => attach_error_unchanged hd hroom' host device,
    fun tx => accept_error_unchanged_iff hd hroom'⟩

namespace StandIn

/-- A vertex whose nonce leaves a gap. -/
def gapTransfer : DagTransaction :=
  transfer 12534542786471 1 genesisId genesisId (address 2) 1000 5

end StandIn

open StandIn in
theorem error_unchanged_run_iff_firstOps :
    credited firstOps + hardCap ≤ u64Max ∧
      ∀ d' e, (run primitives genesisDag firstOps).acceptWireVertex primitives gapTransfer
        = (d', .error e) → d' = run primitives genesisDag firstOps := by
  have hn : hardCap + fixedTransactionFee
      * ((run primitives genesisDag firstOps).vertexCount + 1) ≤ u64Max := by
    rw [run_firstOps]
    decide
  have hF : credited firstOps + hardCap ≤ u64Max := by decide
  refine ⟨hF, ((error_unchanged_run_iff withGenesis_genesisDag firstOps hF hn).2
    gapTransfer).2 fun _ => replaySafe_of_cost fun id tx hl => ?_⟩
  rw [run_firstOps] at hl
  have hall : ∀ e ∈ (firstDag.stored gapTransfer).vertices.entries, e.2.cost ≤ u64Max := by
    decide
  exact hall ⟨id, tx⟩ (AList.mem_lookup_iff.1 hl)

namespace StandIn

/-- An account that holds all a word can count. -/
def maxOps : List Op := [.credit (address 1) 18446744073709551615]

theorem run_maxOps : run primitives genesisDag maxOps = fundedDag 1 18446744073709551615 := by
  rw [maxOps, run_cons, exec_credit, run_nil]
  rfl

end StandIn

open StandIn in
/-- A mint past the end of a word fails behind the attached vertex; a rebuild that meets a spend of
`u64::MAX` fails behind the stored one. -/
theorem error_changes_state :
    (((run primitives genesisDag maxOps).attachAndVerifyTx primitives firstTransfer).2
        = .error .overflow
      ∧ (run primitives genesisDag maxOps).contains firstTransfer.id = false
      ∧ ((run primitives genesisDag maxOps).attachAndVerifyTx primitives firstTransfer).1.contains
        firstTransfer.id = true) ∧
    (((run primitives genesisDag hugeOps).acceptWireVertex primitives gapTransfer).2
        = .error .overflow
      ∧ (run primitives genesisDag hugeOps).contains gapTransfer.id = false
      ∧ ((run primitives genesisDag hugeOps).acceptWireVertex primitives gapTransfer).1.contains
        gapTransfer.id = true) := by
  constructor
  · have h : (fundedDag 1 18446744073709551615).attachAndVerifyTx primitives firstTransfer
        = attachAdmitted (fundedDag 1 18446744073709551615) firstTransfer :=
      attach_transfer (by decide)
    rw [run_maxOps, h]
    refine ⟨?_, ?_, ?_⟩ <;> decide
  · have h : hugeDag.acceptWireVertex primitives gapTransfer
        = acceptAdmitted hugeDag gapTransfer := accept_transfer (by decide)
    rw [run_hugeOps, h]
    refine ⟨?_, ?_, ?_⟩ <;> decide

end Runs

end KronMesh
