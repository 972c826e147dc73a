import KronMesh.Explained
import KronMesh.Failure

/-!
# What an orphan does

A vertex whose spend cannot be applied at once is stored and the ledger rebuilt. It weighs on its
ancestors all the same, and the rebuild looks at every vertex anew. So the stored vertex changes
nothing exactly when no applied vertex is outranked with it in, and each conflict that ranks first
is still refused at its place (`orphan_frame`); and one vertex of its nonce is applied exactly
when the one that ranks first is due and covered at its place (`one_spend`).
-/

namespace KronMesh

open Word Outcome

namespace KronDAG

variable {P : Primitives} {d d' : KronDAG} {tx x : DagTransaction}

theorem mem_applied_iff (hd : d.toGraph.WF) : tx ∈ d.applied ↔ d.appliedAt tx.id = some tx := by
  rw [mem_applied hd, appliedAt_eq_some]

theorem appliedAt_id (hd : d.toGraph.WF) {id : TxHash} (h : d.appliedAt id = some tx) :
    tx.id = id :=
  hd.id_eq (appliedAt_eq_some.1 h).2.1

/-- What `x` leaves alone once it is stored: the applied vertices replay to the balances, none of
them is outranked, and each conflict that ranks first is refused at its place among them. -/
structure Undisturbed (P : Primitives) (d : KronDAG) (x : DagTransaction) : Prop where
  replays : ∃ b, Replay.all (Book.apply P) d.baseBook d.applied = some b ∧ b.balance = d.balance
  ranked : ∀ tx ∈ d.applied, (d.stored x).Top tx.id
  refused : ∀ pre id post tx b, d.attachOrder = pre ++ id :: post →
    d.vertices.lookup id = some tx → d.isConflict id = true → (d.stored x).Top id →
    Replay.all (Book.apply P) d.baseBook (pre.filterMap d.appliedAt) = some b → ¬ b.Covers tx

/-- The rebuild behind an orphan, without the orphan. -/
theorem resolve_orphan (hd : d.WF) (hcheck : d.checkVertex P x = .ok ())
    (h : (d.stored x).resolveConflictsAndRebuildLedger P = (d', .ok ()))
    (hx : d'.isConflict x.id = true) :
    d'.applied = Replay.kept (Book.apply P) d.baseBook
        (d.attachOrder.filterMap (d.stored x).replayedAt)
      ∧ Replay.all (Book.apply P) d.baseBook d'.applied = some d'.book := by
  have hd₁ : (d.stored x).toGraph.WF := hd.graph.insertVertex hcheck
  obtain ⟨hbook, happ, -⟩ := resolve_ok hd₁ h
  have hbase : (d.stored x).baseBook = d.baseBook := rfl
  have hwf := (WF_resolve hd₁ h).graph
  rw [hbase] at hbook happ
  refine ⟨?_, by rw [happ, hbook]; exact Replay.all_kept _ _⟩
  have hrep : (d.stored x).replayed = d.attachOrder.filterMap (d.stored x).replayedAt
      ++ [x.id].filterMap (d.stored x).replayedAt := by
    unfold Graph.replayed
    rw [← List.filterMap_append]
    exact congrArg _ Graph.insertVertex_attachOrder
  rw [hrep, Replay.kept_append] at happ
  have hnil : Replay.kept (Book.apply P) (Replay.greedy (Book.apply P) d.baseBook
      (d.attachOrder.filterMap (d.stored x).replayedAt))
      ([x.id].filterMap (d.stored x).replayedAt) = [] := by
    refine List.eq_nil_iff_forall_not_mem.2 fun y hy => ?_
    have hyx : y.id = x.id := by
      obtain ⟨id, hid, hr⟩ := List.mem_filterMap.1 ((Replay.kept_sublist _ _).subset hy)
      rw [List.mem_singleton.1 hid] at hr
      exact hd₁.id_eq (Graph.replayedAt_eq_some.1 hr).2.1
    have hmem : y ∈ d'.applied := happ ▸ List.mem_append_right _ hy
    have hconf := ((mem_applied hwf).1 hmem).1
    rw [hyx, hx] at hconf
    cases hconf
  rwa [hnil, List.append_nil] at happ

/-- An accepted vertex that ends as a conflict was stored, and the ledger rebuilt. -/
theorem resolve_of_isConflict (hd : d.WF) (hacc : d.acceptWireVertex P x = (d', .ok true))
    (hx : d'.isConflict x.id = true) : d.checkVertex P x = .ok ()
      ∧ (d.stored x).resolveConflictsAndRebuildLedger P = (d', .ok ()) := by
  obtain ⟨hcheck, ⟨new, -, hatt⟩ | ⟨e, -, hres⟩⟩ := accept_ok_cases hacc
  · -- an attached vertex is no conflict
    have hconf := (d.attached_frame x new (x.provenRelayNodes P)).2.2
    rw [hatt] at hconf
    unfold isConflict at hx
    have hnew := hd.isConflict_of_not_contains (Graph.not_contains_of_checkVertex hcheck)
    unfold isConflict at hnew
    rw [hconf, hnew] at hx
    cases hx
  · exact ⟨hcheck, hres⟩

/-- With one more vertex in order that is not applied, the same vertices are applied in one order
only. -/
theorem mem_applied_iff_eq (hd : d.toGraph.WF) (hd' : d'.toGraph.WF) {id : TxHash}
    (horder : d'.attachOrder = d.attachOrder ++ [id]) (hlast : d'.appliedAt id = none) :
    (∀ tx, tx ∈ d'.applied ↔ tx ∈ d.applied) ↔ d'.applied = d.applied := by
  refine ⟨fun h => ?_, fun h tx => by rw [h]⟩
  have hrest : ∀ id ∈ d.attachOrder, d'.appliedAt id = d.appliedAt id := by
    intro id _
    refine Option.ext fun tx => ⟨fun ha => ?_, fun ha => ?_⟩
    · obtain rfl := appliedAt_id hd' ha
      exact (mem_applied_iff hd).1 ((h tx).1 ((mem_applied_iff hd').2 ha))
    · obtain rfl := appliedAt_id hd ha
      exact (mem_applied_iff hd').1 ((h tx).2 ((mem_applied_iff hd).2 ha))
  unfold applied
  rw [horder, List.filterMap_append, List.filterMap_congr hrest, List.filterMap_cons_none hlast,
    List.filterMap_nil, List.append_nil]

/-- With `x` stored, the replay over the order without it keeps what was applied exactly when none
of that is outranked and each conflict that ranks first is refused at its place. -/
theorem kept_stored_eq_applied_iff (hd : d.WF) (hcheck : d.checkVertex P x = .ok ()) {b : Book}
    (hb : Replay.all (Book.apply P) d.baseBook d.applied = some b) :
    Replay.kept (Book.apply P) d.baseBook (d.attachOrder.filterMap (d.stored x).replayedAt)
        = d.applied ↔
      (∀ tx ∈ d.applied, (d.stored x).Top tx.id) ∧
        ∀ pre id post tx b, d.attachOrder = pre ++ id :: post →
          d.vertices.lookup id = some tx → d.isConflict id = true → (d.stored x).Top id →
          Replay.all (Book.apply P) d.baseBook (pre.filterMap d.appliedAt) = some b →
          ¬ b.Covers tx := by
  have hd₁ : (d.stored x).toGraph.WF := hd.graph.insertVertex hcheck
  have hlook : ∀ {id tx}, d.vertices.lookup id = some tx →
      (d.stored x).vertices.lookup id = some tx := Graph.lookup_insertVertex_of_lookup hcheck
  have hplaces := kept_eq_applied_iff hd.graph hd₁ hlook d.attachOrder hd.graph.nodup hb
  refine Iff.trans hplaces ⟨fun hp => ⟨fun tx htx => ?_, ?_⟩, ?_⟩
  · have ha := (mem_applied_iff hd.graph).1 htx
    obtain ⟨pre, post, ho⟩ := hd.graph.split_order (appliedAt_eq_some.1 ha).2.1
    exact (hd₁.replayedAt_eq_some_iff.1 ((hp pre tx.id post ho).1 tx ha)).1
  · intro pre id post tx b ho hl hconf htop hb hcov
    have hnone : d.appliedAt id = none := by
      unfold appliedAt
      rw [if_pos hconf]
    have href := (hp pre id post ho).2 tx b (hd₁.replayedAt_eq_some_iff.2 ⟨htop, hlook hl⟩) hnone
      hb
    rw [Book.apply, if_pos hcov] at href
    cases href
  · rintro ⟨hranked, hrefused⟩ pre id post ho
    refine ⟨fun tx ha => ?_, fun tx b' hf hg hb' => ?_⟩
    · have hl := (appliedAt_eq_some.1 ha).2.1
      obtain rfl := hd.graph.id_eq hl
      exact hd₁.replayedAt_eq_some_iff.2 ⟨hranked tx ((mem_applied_iff hd.graph).2 ha), hlook hl⟩
    · obtain ⟨htop, hl₁⟩ := hd₁.replayedAt_eq_some_iff.1 hf
      have hmem : id ∈ d.attachOrder := by
        rw [ho]
        exact List.mem_append_right _ List.mem_cons_self
      obtain ⟨tx', hl⟩ := Option.isSome_iff_exists.1 ((hd.graph.mem_order id).1 hmem)
      have hl' := hlook hl
      rw [hl₁] at hl'
      cases hl'
      have hconf := isConflict_of_appliedAt_eq_none hl (Graph.replayedAt_eq_some.1 hf).2.2 hg
      exact if_neg (hrefused pre id post tx b' ho hl hconf htop hb')

/-- Storing an orphan leaves the applied vertices and the balances alone exactly when it leaves the
node undisturbed. -/
theorem orphan_frame (hd : d.WF) (hacc : d.acceptWireVertex P x = (d', .ok true))
    (hx : d'.isConflict x.id = true) :
    ((∀ tx, tx ∈ d'.applied ↔ tx ∈ d.applied) ∧ ∀ a, d'.balance a = d.balance a) ↔
      d.Undisturbed P x := by
  obtain ⟨hcheck, hres⟩ := resolve_of_isConflict hd hacc hx
  have hd' := WF_resolve (hd.graph.insertVertex hcheck) hres
  obtain ⟨hkept, hall⟩ := resolve_orphan hd hcheck hres hx
  have horder : d'.attachOrder = d.attachOrder ++ [x.id] := by
    have hg' := (d.stored x).resolve_frame (P := P) |>.1
    rw [hres] at hg'
    rw [hg']
    exact Graph.insertVertex_attachOrder
  have hlast : d'.appliedAt x.id = none := by
    unfold appliedAt
    rw [if_pos hx]
  rw [mem_applied_iff_eq hd.graph hd'.graph horder hlast]
  constructor
  · rintro ⟨heq, hbal⟩
    rw [heq] at hkept hall
    obtain ⟨hranked, hrefused⟩ := (kept_stored_eq_applied_iff hd hcheck hall).1 hkept.symm
    exact ⟨⟨d'.book, hall, funext hbal⟩, hranked, hrefused⟩
  · intro hu
    obtain ⟨b, hb, hbal⟩ := hu.replays
    have heq := hkept.trans ((kept_stored_eq_applied_iff hd hcheck hb).2 ⟨hu.ranked, hu.refused⟩)
    rw [heq, hb] at hall
    cases hall
    exact ⟨heq, fun a => congrFun hbal a⟩

/-! ## One vertex of a nonce -/

/-- Of the vertices of one sender and nonce a rebuild applies at most the one that ranks first, and
that one exactly when it is due and covered at its place. -/
theorem one_spend_resolve (hd : d.toGraph.WF)
    (h : d.resolveConflictsAndRebuildLedger P = (d', .ok ())) {id : TxHash}
    {key : Address × UInt64} (hid : d.Spends id key) :
    (∃! tx, tx ∈ d'.applied ∧ (tx.sender, tx.nonce) = key) ↔
      ∃ pre w post, d.attachOrder = pre ++ w.id :: post ∧ d.vertices.lookup w.id = some w
        ∧ (w.sender, w.nonce) = key ∧ d.Top w.id ∧ (d.bookBefore P pre).Covers w := by
  obtain ⟨-, happ, -⟩ := resolve_ok hd h
  obtain ⟨wid, ⟨w, hw, hwgen, hwkey⟩, hrank⟩ := Graph.exists_top hd hid
  obtain rfl := hd.id_eq hw
  have htop : d.Top w.id := ⟨key, ⟨w, hw, hwgen, hwkey⟩, hrank⟩
  -- what is replayed of this nonce is the one that ranks first
  have honly : ∀ tx ∈ d.replayed, (tx.sender, tx.nonce) = key → tx = w := by
    intro tx htx hkey
    obtain ⟨⟨key', hs', ht'⟩, hl⟩ := hd.mem_replayed.1 htx
    obtain ⟨tx₁, hl₁, hgen₁, hkey₁⟩ := hs'
    rw [hl] at hl₁
    cases hl₁
    obtain rfl : key' = key := hkey₁.symm.trans hkey
    have heq := Graph.RankLE.antisymm (ht' w.id ⟨w, hw, hwgen, hwkey⟩)
      (hrank tx.id ⟨tx, hl, hgen₁, hkey⟩)
    rw [heq, hl] at hw
    exact Option.some.inj hw
  have hsub : ∀ tx ∈ d'.applied, tx ∈ d.replayed := by
    intro tx htx
    rw [happ] at htx
    exact (Replay.kept_sublist _ _).subset htx
  have huniq : (∃! tx, tx ∈ d'.applied ∧ (tx.sender, tx.nonce) = key) ↔ w ∈ d'.applied := by
    constructor
    · rintro ⟨tx, ⟨hmem, hkey⟩, -⟩
      rwa [← honly tx (hsub tx hmem) hkey]
    · exact fun hmem => ⟨w, ⟨hmem, hwkey⟩, fun tx htx => honly tx (hsub tx htx.1) htx.2⟩
  -- and it is kept when the replay covers it at its place
  have hkept : ∀ pre post, d.attachOrder = pre ++ w.id :: post →
      (w ∈ d'.applied ↔ (d.bookBefore P pre).Covers w) := by
    intro pre post ho
    rw [happ]
    exact mem_kept_replayed hd ho (hd.replayedAt_eq_some_iff.2 ⟨htop, hw⟩)
  rw [huniq]
  constructor
  · intro hmem
    obtain ⟨pre, post, ho⟩ := hd.split_order hw
    exact ⟨pre, w, post, ho, hw, hwkey, htop, (hkept pre post ho).1 hmem⟩
  · rintro ⟨pre, v, post, ho, hv, hvkey, hvtop, hcov⟩
    have hvw : v = w := honly v (hd.mem_replayed.2 ⟨hvtop, hv⟩) hvkey
    subst hvw
    exact (hkept pre post ho).2 hcov

/-- Accepting a rival of an applied vertex leaves one of their nonce applied exactly when the rival
is not attached at once, and the one that ranks first with it in is due and covered at its place. -/
theorem one_spend (hd : d.WF) {y : DagTransaction} (hy : y ∈ d.applied)
    (hkey : (y.sender, y.nonce) = (x.sender, x.nonce))
    (hacc : d.acceptWireVertex P x = (d', .ok true)) :
    (∃! tx, tx ∈ d'.applied ∧ (tx.sender, tx.nonce) = (x.sender, x.nonce)) ↔
      (∃ e, d.checkSpend x = .error e) ∧
        ∃ pre w post, (d.stored x).attachOrder = pre ++ w.id :: post
          ∧ (d.stored x).vertices.lookup w.id = some w
          ∧ (w.sender, w.nonce) = (x.sender, x.nonce) ∧ (d.stored x).Top w.id
          ∧ ((d.stored x).bookBefore P pre).Covers w := by
  obtain ⟨hcheck, ⟨new, hs, hatt⟩ | ⟨e, hs, hres⟩⟩ := accept_ok_cases hacc
  · have happ := applied_attached hd hcheck new (x.provenRelayNodes P)
    rw [hatt] at happ
    refine iff_of_false ?_ ?_
    · -- both the applied vertex and the attached one spend the nonce
      rintro ⟨z, -, hz⟩
      have hyz := hz y ⟨happ ▸ List.mem_append_left _ hy, hkey⟩
      have hxz := hz x ⟨happ ▸ List.mem_append_right _ List.mem_cons_self, rfl⟩
      have hl := ((mem_applied hd.graph).1 hy).2.1
      rw [hyz.trans hxz.symm, (Graph.checkVertex_ok hcheck).1] at hl
      cases hl
    · rintro ⟨⟨e, he⟩, -⟩
      rw [hs] at he
      cases he
  · have hd₁ : (d.stored x).toGraph.WF := hd.graph.insertVertex hcheck
    have hx : (d.stored x).Spends x.id (x.sender, x.nonce) :=
      ⟨x, by rw [Graph.lookup_insertVertex, if_pos rfl], hd.graph.not_isGenesis hcheck, rfl⟩
    rw [one_spend_resolve hd₁ hres hx, and_iff_right ⟨e, hs⟩]

end KronDAG

section Runs

variable {P : Primitives} {d d' : KronDAG} {x y : DagTransaction}

/-- In any state a run reaches, storing an orphan leaves the applied vertices and the balances alone
exactly when it leaves the node undisturbed. -/
theorem orphan_frame_run_iff (h : KronDAG.withGenesis P = some d) (ops : List Op)
    (hacc : (run P d ops).acceptWireVertex P x = (d', .ok true))
    (hx : d'.isConflict x.id = true) :
    ((∀ tx, tx ∈ d'.applied ↔ tx ∈ (run P d ops).applied)
        ∧ ∀ a, d'.balance a = (run P d ops).balance a) ↔
      (run P d ops).Undisturbed P x :=
  KronDAG.orphan_frame (wf_run h ops) hacc hx

open StandIn in
theorem orphan_frame_run_iff_firstOps :
    ((∀ tx, tx ∈ (acceptAdmitted firstDag gapTransfer).1.applied
          ↔ tx ∈ (run primitives genesisDag firstOps).applied)
        ∧ ∀ a, (acceptAdmitted firstDag gapTransfer).1.balance a
          = (run primitives genesisDag firstOps).balance a) ↔
      (run primitives genesisDag firstOps).Undisturbed primitives gapTransfer := by
  have hacc : firstDag.acceptWireVertex primitives gapTransfer
      = acceptAdmitted firstDag gapTransfer := accept_transfer (by decide)
  have hok : (acceptAdmitted firstDag gapTransfer).2 = .ok true := by decide
  refine orphan_frame_run_iff withGenesis_genesisDag firstOps ?_ (by decide)
  rw [run_firstOps, hacc, ← hok]

open StandIn in
/-- An orphan on top of the first transfer makes it outrank its rival, and the funds change hands.
-/
theorem orphan_moves_balances :
    KronDAG.withGenesis primitives = some genesisDag
      ∧ orphanTransfer.verifySignature primitives = true
      ∧ orphanTransfer.id = DagTransaction.computeId primitives orphanTransfer.unsignedBytes
      ∧ ((run primitives genesisDag forkOps).acceptWireVertex primitives orphanTransfer).2
        = .ok true
      ∧ ((run primitives genesisDag forkOps).acceptWireVertex primitives
        orphanTransfer).1.isConflict orphanTransfer.id = true
      ∧ ((run primitives genesisDag forkOps).isConflict rivalTransfer.id = false
        ∧ ((run primitives genesisDag forkOps).acceptWireVertex primitives
          orphanTransfer).1.isConflict rivalTransfer.id = true)
      ∧ ((run primitives genesisDag forkOps).balance (address 3) = 1000
        ∧ ((run primitives genesisDag forkOps).acceptWireVertex primitives
          orphanTransfer).1.balance (address 3) = 0) := by
  have hacc : forkDag.acceptWireVertex primitives orphanTransfer
      = acceptAdmitted forkDag orphanTransfer := accept_transfer (by decide)
  rw [run_forkOps, hacc]
  refine ⟨withGenesis_genesisDag, verify_signed _ _ _ _ _ _ _ _, id_orphanTransfer, ?_⟩
  refine ⟨?_, ?_, ⟨?_, ?_⟩, ?_, ?_⟩ <;> decide

/-- In any state a run reaches, accepting a rival of an applied vertex leaves one of their nonce
applied exactly when it is not attached at once and the one that ranks first is due and covered at
its place. -/
theorem one_spend_run_iff (h : KronDAG.withGenesis P = some d) (ops : List Op)
    (hy : y ∈ (run P d ops).applied) (hkey : (y.sender, y.nonce) = (x.sender, x.nonce))
    (hacc : (run P d ops).acceptWireVertex P x = (d', .ok true)) :
    (∃! tx, tx ∈ d'.applied ∧ (tx.sender, tx.nonce) = (x.sender, x.nonce)) ↔
      (∃ e, (run P d ops).checkSpend x = .error e) ∧
        ∃ pre w post, ((run P d ops).stored x).attachOrder = pre ++ w.id :: post
          ∧ ((run P d ops).stored x).vertices.lookup w.id = some w
          ∧ (w.sender, w.nonce) = (x.sender, x.nonce) ∧ ((run P d ops).stored x).Top w.id
          ∧ (((run P d ops).stored x).bookBefore P pre).Covers w :=
  KronDAG.one_spend (wf_run h ops) hy hkey hacc

open StandIn in
theorem one_spend_run_iff_firstOps :
    (∃! tx, tx ∈ (acceptAdmitted firstDag rivalTransfer).1.applied
        ∧ (tx.sender, tx.nonce) = (rivalTransfer.sender, rivalTransfer.nonce)) ↔
      (∃ e, (run primitives genesisDag firstOps).checkSpend rivalTransfer = .error e) ∧
        ∃ pre w post, ((run primitives genesisDag firstOps).stored rivalTransfer).attachOrder
            = pre ++ w.id :: post
          ∧ ((run primitives genesisDag firstOps).stored rivalTransfer).vertices.lookup w.id
            = some w
          ∧ (w.sender, w.nonce) = (rivalTransfer.sender, rivalTransfer.nonce)
          ∧ ((run primitives genesisDag firstOps).stored rivalTransfer).Top w.id
          ∧ (((run primitives genesisDag firstOps).stored rivalTransfer).bookBefore primitives
            pre).Covers w := by
  have hacc : firstDag.acceptWireVertex primitives rivalTransfer
      = acceptAdmitted firstDag rivalTransfer := accept_transfer (by decide)
  have hok : (acceptAdmitted firstDag rivalTransfer).2 = .ok true := by decide
  have hmem : firstTransfer ∈ (run primitives genesisDag firstOps).applied := by
    have hfirst : (fundedDag 1 1000000).acceptWireVertex primitives firstTransfer
        = (firstDag, .ok true) := by
      have hok : (acceptAdmitted (fundedDag 1 1000000) firstTransfer).2 = .ok true := by
        decide
      rw [firstDag, ← hok]
      exact accept_transfer (by decide)
    rw [KronDAG.mem_applied (wf_run withGenesis_genesisDag firstOps).graph, run_firstOps]
    refine ⟨by decide, ?_, by decide⟩
    rw [accept_graph hfirst, Graph.lookup_insertVertex, if_pos rfl]
  refine one_spend_run_iff withGenesis_genesisDag firstOps hmem rfl ?_
  rw [run_firstOps, hacc, ← hok]

namespace StandIn

/-- A rival of the first transfer, of more than the wallet has. -/
def dearTransfer : DagTransaction :=
  transfer 12534661894728 1 genesisId genesisId (address 3) 99999999 0

end StandIn

open StandIn in
/-- A rival of greater rank that the wallet cannot pay leaves no vertex of its nonce applied. -/
theorem no_spend_applied :
    KronDAG.withGenesis primitives = some genesisDag
      ∧ dearTransfer.verifySignature primitives = true
      ∧ dearTransfer.id = DagTransaction.computeId primitives dearTransfer.unsignedBytes
      ∧ (firstTransfer.sender, firstTransfer.nonce) = (dearTransfer.sender, dearTransfer.nonce)
      ∧ ((run primitives genesisDag firstOps).contains firstTransfer.id = true
        ∧ (run primitives genesisDag firstOps).isConflict firstTransfer.id = false)
      ∧ ((run primitives genesisDag firstOps).acceptWireVertex primitives dearTransfer).2 = .ok true
      ∧ ((run primitives genesisDag firstOps).acceptWireVertex primitives dearTransfer).1.applied
        = [] := by
  have hacc : firstDag.acceptWireVertex primitives dearTransfer
      = acceptAdmitted firstDag dearTransfer := accept_transfer (by decide)
  rw [run_firstOps, hacc]
  refine ⟨withGenesis_genesisDag, verify_signed _ _ _ _ _ _ _ _, by decide, rfl, ⟨?_, ?_⟩, ?_, ?_⟩
  · decide
  · decide
  · decide
  · rw [← List.length_eq_zero_iff]
    decide

end Runs

end KronMesh
