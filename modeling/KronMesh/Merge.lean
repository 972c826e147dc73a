import KronMesh.Incremental
import KronMesh.Unfunded

/-!
# What a batch leaves behind

A batch is stored vertex by vertex up to the first that is refused (`goesIn`), and the ledger is
rebuilt only behind a batch that goes in whole. So a vertex stored in front of a refused one is
neither applied nor a conflict, and the count of applied vertices no longer accounts for the
stored ones.
-/

namespace KronMesh

open Word Outcome Wire

variable {P : Primitives} {g : Graph} {d d' : KronDAG} {tx : DagTransaction}

/-! ## The vertices of a batch that are stored -/

namespace Graph

variable (P)

/-- The vertices of an ordered batch that are stored, and whether none was refused. -/
def goesIn : Graph → List DagTransaction → List DagTransaction × Bool
  | _, [] => ([], true)
  | g, tx :: txs =>
    if g.contains tx.id then goesIn g txs
    else
      match g.checkVertex P tx with
      | .error _ => ([], false)
      | .ok () =>
        let rest := goesIn (g.insertVertex tx) txs
        (tx :: rest.1, rest.2)

/-- The vertices of a batch that a merge stores, and whether the batch goes in whole. -/
def merged (g : Graph) (incomingTxs : List DagTransaction) : List DagTransaction × Bool :=
  match topoOrderIncoming g incomingTxs with
  | .error _ => ([], false)
  | .ok ordered => goesIn P g ordered

variable {P}

theorem goesIn_contained {txs : List DagTransaction} (h : g.contains tx.id = true) :
    goesIn P g (tx :: txs) = goesIn P g txs := by
  rw [goesIn, if_pos h]

theorem goesIn_refused {txs : List DagTransaction} {e : DagError} (hc : g.contains tx.id = false)
    (h : g.checkVertex P tx = .error e) : goesIn P g (tx :: txs) = ([], false) := by
  rw [goesIn, if_neg (by rw [hc]; exact Bool.false_ne_true), h]

theorem goesIn_stored {txs : List DagTransaction} (h : g.checkVertex P tx = .ok ()) :
    goesIn P g (tx :: txs) = (tx :: (goesIn P (g.insertVertex tx) txs).1,
      (goesIn P (g.insertVertex tx) txs).2) := by
  rw [goesIn, if_neg (by rw [not_contains_of_checkVertex h]; exact Bool.false_ne_true), h]

/-- What is stored keeps the graph well-formed. -/
theorem WF.goesIn : ∀ (txs : List DagTransaction) {g : Graph}, g.WF →
    ((Graph.goesIn P g txs).1.foldl Graph.insertVertex g).WF
  | [], _, hg => hg
  | tx :: txs, g, hg => by
    by_cases hc : g.contains tx.id = true
    · rw [goesIn_contained hc]
      exact WF.goesIn txs hg
    rw [Bool.not_eq_true] at hc
    rcases h : g.checkVertex P tx with e | ⟨⟨⟩⟩
    · rw [goesIn_refused hc h]
      exact hg
    · rw [goesIn_stored h]
      exact WF.goesIn txs (hg.insertVertex h)

theorem WF.merged (hg : g.WF) (txs : List DagTransaction) :
    ((Graph.merged P g txs).1.foldl Graph.insertVertex g).WF := by
  unfold Graph.merged
  rcases topoOrderIncoming g txs with e | ordered
  · exact hg
  · exact hg.goesIn ordered

end Graph

namespace KronDAG

/-- The merge loop looks for the parents that admission asks for. -/
theorem missingParent_of_checkVertex (h : d.checkVertex P tx = .ok ()) :
    d.missingParent tx = none := by
  unfold missingParent
  by_cases hgen : tx.isGenesis
  · rw [if_pos hgen]
  · rw [if_neg hgen, List.find?_eq_none]
    obtain ⟨h1, h2⟩ := Graph.checkParents_ok (Graph.checkVertex_ok h).2.1 (Bool.eq_false_iff.2 hgen)
    intro p hp
    rcases List.mem_pair.1 hp with rfl | rfl
    · simp [h1]
    · simp [h2]

theorem mergeOne_stored (relay : Address) (h : d.checkVertex P tx = .ok ()) :
    ∃ relayOf, mergeOne P relay d tx
      = ({ d with toGraph := d.toGraph.insertVertex tx, relayOf := relayOf }, .ok 1) := by
  rcases mergeOne_cases (P := P) relay d tx with ⟨r, hm, hr⟩ | ⟨relayOf, -, hm⟩
  · exfalso
    unfold mergeOne insertGraphOnly at hm
    have hc : ¬ d.contains tx.id = true := by
      rw [Graph.not_contains_of_checkVertex h]
      exact Bool.false_ne_true
    rw [if_neg hc, missingParent_of_checkVertex h, h] at hm
    cases hr 1 (congrArg Prod.snd hm).symm
  · exact ⟨relayOf, hm⟩

/-- A vertex that is refused leaves everything as it is. -/
theorem mergeOne_refused (relay : Address) (hc : d.contains tx.id = false) {e : DagError}
    (h : d.checkVertex P tx = .error e) :
    ∃ e', mergeOne P relay d tx = (d, .error e') ∧ e' ≠ .attach .overflow := by
  obtain ⟨-, -, hne, hdup⟩ := Graph.checkVertex_error h
  unfold mergeOne insertGraphOnly
  rw [if_neg (by rw [hc]; exact Bool.false_ne_true)]
  rcases d.missingParent tx with _ | p
  · rw [h]
    cases e
    case duplicateTx id =>
      rw [hdup id rfl] at hc
      cases hc
    all_goals exact ⟨_, rfl, fun he => hne (SyncError.attach.inj he)⟩
  · exact ⟨_, rfl, SyncError.noConfusion⟩

/-- `txs` stored, with the ledger as it was. -/
def withStored (d : KronDAG) (txs : List DagTransaction)
    (relayOf : AList fun _ : TxHash => Address) : KronDAG :=
  { d with toGraph := txs.foldl Graph.insertVertex d.toGraph, relayOf := relayOf }

/-- A rebuild does not look at the relays. -/
theorem resolve_withRelays (d : KronDAG) (relayOf : AList fun _ : TxHash => Address) :
    (KronDAG.resolveConflictsAndRebuildLedger P { d with relayOf := relayOf }).2
      = (d.resolveConflictsAndRebuildLedger P).2 := by
  have hb : KronDAG.baseline { d with relayOf := relayOf } = d.baseline := rfl
  unfold resolveConflictsAndRebuildLedger
  simp only [hb]
  rcases replayLoop P d.vertices d.winnerOf d.baseline [] d.attachOrder with ⟨l, e | extra⟩
  · rfl
  · rfl

/-- The merge loop stores the vertices that go in, and counts them unless one is refused. -/
theorem mergeLoop_eq (relay : Address) : ∀ (txs : List DagTransaction) (d : KronDAG) (n : ℕ),
    n ≤ 2 ^ 32 - 1 → ∃ relayOf r,
      mergeLoop P relay d n txs = (d.withStored (Graph.goesIn P d.toGraph txs).1 relayOf, r)
        ∧ ((Graph.goesIn P d.toGraph txs).2 = true →
          r = .ok (min (n + (Graph.goesIn P d.toGraph txs).1.length) (2 ^ 32 - 1)))
        ∧ ((Graph.goesIn P d.toGraph txs).2 = false → ∃ e, r = .error e ∧ e ≠ .attach .overflow)
  | [], d, n, hn => by
    refine ⟨d.relayOf, .ok n, rfl, fun _ => ?_, fun h => ?_⟩
    · exact congrArg _ (min_eq_left hn).symm
    · cases h
  | tx :: txs, d, n, hn => by
    unfold mergeLoop
    rcases hc : d.contains tx.id
    case true =>
      have hone : mergeOne P relay d tx = (d, .ok 0) := if_pos hc
      have ih := mergeLoop_eq relay txs d (min (n + 0) (2 ^ 32 - 1)) (min_le_right _ _)
      rw [Nat.add_zero, min_eq_left hn] at ih
      rw [hone, Graph.goesIn_contained hc]
      simp only [Nat.add_zero, min_eq_left hn]
      exact ih
    rcases h : d.checkVertex P tx with e | ⟨⟨⟩⟩
    · obtain ⟨e', hone, hne⟩ := mergeOne_refused relay hc h
      rw [hone, Graph.goesIn_refused hc h]
      refine ⟨d.relayOf, .error e', rfl, fun h => ?_, fun _ => ⟨e', rfl, hne⟩⟩
      cases h
    · obtain ⟨relayOf, hone⟩ := mergeOne_stored relay h
      obtain ⟨relayOf', r, hm, hok, herr⟩ := mergeLoop_eq relay txs
        { d with toGraph := d.toGraph.insertVertex tx, relayOf := relayOf }
        (min (n + 1) (2 ^ 32 - 1)) (min_le_right _ _)
      rw [hone, Graph.goesIn_stored h]
      refine ⟨relayOf', r, hm, fun hw => ?_, herr⟩
      have hcount : ∀ k, min (min (n + 1) (2 ^ 32 - 1) + k) (2 ^ 32 - 1)
          = min (n + (k + 1)) (2 ^ 32 - 1) := by
        intro k
        omega
      rw [hok hw, hcount]
      rfl

/-- A batch that does not go in whole leaves what it stored, and an error. -/
theorem merge_refused (txs : List DagTransaction) (relay : Address)
    (h : (d.toGraph.merged P txs).2 = false) :
    ∃ relayOf e, d.mergeOfflineGraphs P txs relay
      = (d.withStored (d.toGraph.merged P txs).1 relayOf, .error e)
        ∧ ((d.toGraph.merged P txs).1 ≠ [] → e ≠ .err (.attach .overflow)) := by
  unfold mergeOfflineGraphs
  unfold Graph.merged at h ⊢
  rcases ht : topoOrderIncoming d.toGraph txs with e | ordered
  · exact ⟨d.relayOf, e, rfl, fun hne => absurd rfl hne⟩
  · rw [ht] at h
    obtain ⟨relayOf, r, hm, -, herr⟩ := mergeLoop_eq (P := P) relay ordered d 0 (by decide)
    obtain ⟨e, rfl, hne⟩ := herr h
    simp only [hm]
    exact ⟨relayOf, .err e, rfl, fun _ he => hne (Fault.err.inj he)⟩

/-- A batch with nothing new leaves the ledger alone. -/
theorem merge_nothing (txs : List DagTransaction) (relay : Address)
    (h : (d.toGraph.merged P txs).2 = true) (hnew : (d.toGraph.merged P txs).1 = []) :
    ∃ relayOf, d.mergeOfflineGraphs P txs relay = (d.withStored [] relayOf, .ok 0) := by
  unfold mergeOfflineGraphs
  unfold Graph.merged at h hnew
  rcases ht : topoOrderIncoming d.toGraph txs with e | ordered
  · rw [ht] at h
    cases h
  · rw [ht] at h hnew
    obtain ⟨relayOf, r, hm, hok, -⟩ := mergeLoop_eq (P := P) relay ordered d 0 (by decide)
    obtain rfl := hok h
    simp only [] at hnew
    rw [hnew] at hm
    simp only [hm]
    exact ⟨relayOf, rfl⟩

/-- The ledger is rebuilt behind a batch that goes in whole. -/
theorem merge_whole (txs : List DagTransaction) (relay : Address)
    (h : (d.toGraph.merged P txs).2 = true) (hnew : (d.toGraph.merged P txs).1 ≠ []) :
    ∃ relayOf, d.mergeOfflineGraphs P txs relay =
      let r := (d.withStored (d.toGraph.merged P txs).1 relayOf).resolveConflictsAndRebuildLedger P
      (r.1, (r.2.map fun _ => min (d.toGraph.merged P txs).1.length (2 ^ 32 - 1)).mapError
        fun e => .err (.attach e)) := by
  unfold mergeOfflineGraphs
  rcases ht : topoOrderIncoming d.toGraph txs with e | ordered
  · unfold Graph.merged at h
    rw [ht] at h
    cases h
  · have hin : d.toGraph.merged P txs = Graph.goesIn P d.toGraph ordered := by
      unfold Graph.merged
      rw [ht]
    rw [hin] at h hnew ⊢
    obtain ⟨relayOf, r, hm, hok, -⟩ := mergeLoop_eq (P := P) relay ordered d 0 (by decide)
    obtain rfl := hok h
    have hpos : 0 < min (Graph.goesIn P d.toGraph ordered).1.length (2 ^ 32 - 1) := by
      have := List.length_pos_iff.2 hnew
      omega
    rw [Nat.zero_add] at hm
    simp only [hm]
    rw [if_pos hpos]
    refine ⟨relayOf, ?_⟩
    generalize (d.withStored _ relayOf).resolveConflictsAndRebuildLedger P = res
    obtain ⟨d', e | ⟨⟨⟩⟩⟩ := res <;> rfl

/-! ## The count of applied vertices -/

/-- The stored vertices that are no genesis and no conflict. -/
def unconflicted (d : KronDAG) : ℕ :=
  d.vertices.entries.countP fun e => !e.2.isGenesis && !d.isConflict e.1

/-- Every stored vertex but the genesis is applied or a conflict. -/
def Accounted (d : KronDAG) : Prop := d.dagTxCount = d.unconflicted

theorem unconflicted_eq (hd : d.toGraph.WF) : d.unconflicted = d.applied.length := by
  unfold unconflicted applied
  rw [List.length_filterMap_eq_countP, hd.order_perm.countP_eq, List.countP_map]
  refine List.countP_congr fun e he => ?_
  have hl : d.vertices.lookup e.1 = some e.2 := AList.mem_lookup_iff.2 he
  unfold appliedAt
  rw [Function.comp_apply, hl]
  rcases d.isConflict e.1 <;> rcases hgen : e.2.isGenesis <;> simp [Option.filter, hgen]

end KronDAG

/-- Every vertex that is taken is counted. -/
theorem Ledger.count_applyAll : ∀ (txs : List DagTransaction) {l l' : Ledger},
    l.applyAll P txs = (l', .ok ()) → l'.dagTxCount = l.dagTxCount + txs.length
  | [], l, l', h => by
    cases h
    rfl
  | tx :: txs, l, l', h => by
    obtain ⟨l₁, h₁, h⟩ := andThen_eq_ok.1 h
    obtain ⟨-, hb⟩ := Book.apply_eq_some.1 (book_applyLedgerEffects h₁)
    have hc : l₁.dagTxCount = l.dagTxCount + 1 := (congrArg Book.count hb).symm
    rw [count_applyAll txs h, hc, List.length_cons]
    omega

namespace KronDAG

/-- A rebuild that goes through accounts for every vertex. -/
theorem accounted_resolve (hd : d.toGraph.WF)
    (h : d.resolveConflictsAndRebuildLedger P = (d', .ok ())) : d'.Accounted := by
  have hg := (d.resolve_frame (P := P)).1
  rw [h] at hg
  have hc := Ledger.count_applyAll _ (resolve_applyAll hd h)
  have h0 : d.baseline.dagTxCount = 0 := rfl
  rw [Accounted, unconflicted_eq (hg ▸ hd), hc, h0, Nat.zero_add]

/-- Vertices stored without a replay are no conflicts, so they count as applied. -/
theorem applied_withStored : ∀ (txs : List DagTransaction) {d : KronDAG}
    (relayOf : AList fun _ : TxHash => Address), d.WF →
      (d.withStored (Graph.goesIn P d.toGraph txs).1 relayOf).applied
        = d.applied ++ (Graph.goesIn P d.toGraph txs).1
  | [], d, relayOf, _ => (List.append_nil _).symm
  | tx :: txs, d, relayOf, hd => by
    rcases hc : d.contains tx.id
    case true =>
      rw [Graph.goesIn_contained hc]
      exact applied_withStored txs relayOf hd
    rcases h : d.checkVertex P tx with e | ⟨⟨⟩⟩
    · rw [Graph.goesIn_refused hc h]
      exact (List.append_nil _).symm
    · have h₁ : (d.withStored [tx] relayOf).applied = d.applied ++ [tx] :=
        applied_insertVertex hd h rfl rfl
      have hd₁ : (d.withStored [tx] relayOf).WF := wf_step (.store d tx relayOf h) hd
      rw [Graph.goesIn_stored h]
      refine (applied_withStored txs relayOf hd₁).trans ?_
      rw [h₁, List.append_assoc]
      rfl

theorem applied_merged (hd : d.WF) (txs : List DagTransaction)
    (relayOf : AList fun _ : TxHash => Address) :
    (d.withStored (d.toGraph.merged P txs).1 relayOf).applied
      = d.applied ++ (d.toGraph.merged P txs).1 := by
  unfold Graph.merged
  rcases topoOrderIncoming d.toGraph txs with e | ordered
  · exact (List.append_nil _).symm
  · exact applied_withStored ordered relayOf hd

/-- A merge accounts for every vertex exactly when its batch goes in whole with something new in it,
or when the count before it was that of the vertices stored behind it. -/
theorem accounted_merge_iff (hd : d.WF) (txs : List DagTransaction) (relay : Address)
    (hne : (d.mergeOfflineGraphs P txs relay).2 ≠ .error (.err (.attach .overflow))) :
    (d.mergeOfflineGraphs P txs relay).1.Accounted ↔
      (d.toGraph.merged P txs).2 = true ∧ (d.toGraph.merged P txs).1 ≠ []
        ∨ d.dagTxCount = d.unconflicted + (d.toGraph.merged P txs).1.length := by
  have haside : ∀ relayOf, (d.withStored (d.toGraph.merged P txs).1 relayOf).Accounted ↔
      d.dagTxCount = d.unconflicted + (d.toGraph.merged P txs).1.length := by
    intro relayOf
    rw [Accounted, unconflicted_eq (hd.graph.merged txs), applied_merged hd, List.length_append,
      unconflicted_eq hd.graph]
    rfl
  rcases hw : (d.toGraph.merged P txs).2
  case false =>
    obtain ⟨relayOf, e, hm, -⟩ := merge_refused (P := P) txs relay hw
    rw [hm, haside]
    simp
  by_cases hnew : (d.toGraph.merged P txs).1 = []
  · obtain ⟨relayOf, hm⟩ := merge_nothing (P := P) txs relay hw hnew
    have := haside relayOf
    rw [hnew] at this ⊢
    rw [hm, this]
    simp
  · obtain ⟨relayOf, hm⟩ := merge_whole (P := P) txs relay hw hnew
    rw [hm] at hne ⊢
    have hwf := hd.graph.merged (P := P) txs
    rcases hr : (d.withStored (d.toGraph.merged P txs).1 relayOf).resolveConflictsAndRebuildLedger P
      with ⟨d', e | ⟨⟨⟩⟩⟩
    · rw [hr, (resolve_error hr).1] at hne
      exact absurd rfl hne
    · simp [hnew, accounted_resolve hwf hr]

end KronDAG

/-! ## Runs -/

/-- The call does not overflow, and a merge stores its batch whole or not at all. -/
def CountsAll (P : Primitives) (d : KronDAG) : Op → Prop
  | .credit _ _ => True
  | .merge txs relay =>
    (d.mergeOfflineGraphs P txs relay).2 ≠ .error (.err (.attach .overflow))
      ∧ ((d.toGraph.merged P txs).2 = true ∨ (d.toGraph.merged P txs).1 = [])
  | op => CallOk P d op

/-- Every call of the run counts all it stores. -/
def AllCounted (P : Primitives) : KronDAG → List Op → Prop
  | _, [] => True
  | d, op :: ops => CountsAll P d op ∧ AllCounted P (exec P d op) ops

namespace KronDAG

theorem accounted_credit (a : Address) (n : ℕ) (h : d.Accounted) :
    (d.creditAccount a n).Accounted := by
  unfold creditAccount
  split_ifs
  · exact h
  · exact h

theorem accounted_attached (hd : d.WF) (hcheck : d.checkVertex P tx = .ok ()) {new : ℕ × ℕ}
    (hs : d.checkSpend tx = .ok new)
    (hok : d.attached tx new (tx.provenRelayNodes P) = (d', .ok ())) (h : d.Accounted) :
    d'.Accounted := by
  have hgen := hd.graph.not_isGenesis hcheck
  have happ := applied_attached hd hcheck new (tx.provenRelayNodes P)
  have hg := (d.attached_frame tx new (tx.provenRelayNodes P)).1
  obtain ⟨-, hb⟩ := Book.apply_eq_some.1
    (Ledger.book_applyLedgerEffects (applyLedgerEffects_of_attached hgen hs hok))
  have hc : d'.dagTxCount = d.dagTxCount + 1 := (congrArg Book.count hb).symm
  rw [hok] at happ hg
  have hd' : d'.toGraph.WF := hg ▸ hd.graph.insertVertex hcheck
  rw [Accounted, unconflicted_eq hd.graph] at h
  rw [Accounted, unconflicted_eq hd', happ, hc, h, List.length_append]
  rfl

/-- A call that counts all it stores leaves no vertex out. -/
theorem accounted_exec (hd : d.WF) (h : d.Accounted) {op : Op} (hop : CountsAll P d op) :
    (exec P d op).Accounted := by
  have hcall : CallOk P d op → (exec P d op).Accounted := by
    intro hok
    rcases exec_cases_of_callOk hd.graph hok with he | ⟨a, n, -, he⟩ | ⟨tx, new, hcheck, hs, hok⟩ |
      ⟨d₁, hd₁, -, hok⟩
    · rw [he]
      exact h
    · rw [he]
      exact accounted_credit a n.toNat h
    · exact accounted_attached hd hcheck hs hok h
    · exact accounted_resolve hd₁ hok
  cases op
  case credit a n => exact accounted_credit a n.toNat h
  case merge txs relay =>
    obtain ⟨hne, hwhole⟩ := hop
    refine (accounted_merge_iff hd txs relay hne).2 ?_
    by_cases hnew : (d.toGraph.merged P txs).1 = []
    · rw [hnew]
      exact .inr h
    · exact .inl ⟨hwhole.resolve_right hnew, hnew⟩
  all_goals exact hcall hop

theorem accounted_withGenesis (h : withGenesis P = some d) : d.Accounted := by
  rw [Accounted, unconflicted_eq (Graph.WF_withGenesis h), applied_withGenesis h]
  exact (unfunded_withGenesis h).ledger.count

end KronDAG

/-- For every run and every batch that does not overflow behind it: the count of applied vertices
accounts for the stored ones exactly when the batch goes in whole with something new in it, or when
the count before was that of the vertices stored behind it. And in a run of batches that go in
whole or not at all it always does. -/
theorem accounted_merge_run_iff {P : Primitives} {d : KronDAG}
    (h : KronDAG.withGenesis P = some d) (ops : List Op) :
    (∀ (txs : List DagTransaction) (relay : Address),
      ((run P d ops).mergeOfflineGraphs P txs relay).2 ≠ .error (.err (.attach .overflow)) →
      (((run P d ops).mergeOfflineGraphs P txs relay).1.Accounted ↔
        ((run P d ops).toGraph.merged P txs).2 = true
            ∧ ((run P d ops).toGraph.merged P txs).1 ≠ []
          ∨ (run P d ops).dagTxCount = (run P d ops).unconflicted
            + ((run P d ops).toGraph.merged P txs).1.length))
      ∧ (AllCounted P d ops → (run P d ops).Accounted) := by
  have hd := wf_run h ops
  refine ⟨fun txs relay hne => KronDAG.accounted_merge_iff hd txs relay hne, fun hall => ?_⟩
  have hstart := KronDAG.accounted_withGenesis h
  have hwf := wf_withGenesis h
  clear h hd
  induction ops generalizing d with
  | nil => exact hstart
  | cons op ops ih =>
    rw [run_cons]
    exact ih hall.2 (KronDAG.accounted_exec hwf hstart hall.1) (wf_exec hwf op)

namespace StandIn

/-- The rival of the first transfer, a unit short of the fee. -/
def cheapTransfer : DagTransaction :=
  signed 12534660997154 (BitVec.ofNat 256 1) genesisId genesisId (address 3) 1000 999 0

/-- Of the two vertices the first is stored and the second refused. -/
theorem merged_cheap : (fundedDag 1 1000000).toGraph.merged primitives
    [firstTransfer, cheapTransfer] = ([firstTransfer], false) := by
  have ht : topoOrderIncoming (fundedDag 1 1000000).toGraph [firstTransfer, cheapTransfer]
      = .ok [firstTransfer, cheapTransfer] := rfl
  have hfirst : (fundedDag 1 1000000).checkVertex primitives firstTransfer = .ok () :=
    checkVertex_transfer (by decide)
  have hcheap : ((fundedDag 1 1000000).toGraph.insertVertex firstTransfer).checkVertex primitives
      cheapTransfer = .error .invalidFee := by
    decide
  unfold Graph.merged
  rw [ht]
  simp only []
  rw [Graph.goesIn_stored hfirst, Graph.goesIn_refused (by decide) hcheap]

end StandIn

open StandIn in
/-- A batch of one transfer goes in whole and is counted. -/
theorem accounted_merge_run_iff_whole :
    ((fundedDag 1 1000000).mergeOfflineGraphs primitives [firstTransfer] 0).1.Accounted := by
  have hcheck : (fundedDag 1 1000000).checkVertex primitives firstTransfer = .ok () :=
    checkVertex_transfer (by decide)
  have ht : topoOrderIncoming (fundedDag 1 1000000).toGraph [firstTransfer] = .ok [firstTransfer] :=
    rfl
  have hmerged : (fundedDag 1 1000000).toGraph.merged primitives [firstTransfer]
      = ([firstTransfer], true) := by
    unfold Graph.merged
    rw [ht]
    exact Graph.goesIn_stored hcheck
  have hover : ((fundedDag 1 1000000).mergeOfflineGraphs primitives [firstTransfer] 0).2
      ≠ .error (.err (.attach .overflow)) := by
    obtain ⟨relayOf, hm⟩ := KronDAG.merge_whole (P := primitives) (d := fundedDag 1 1000000)
      [firstTransfer] 0 (by rw [hmerged]) (by rw [hmerged]; exact List.cons_ne_nil _ _)
    have hres : (((fundedDag 1 1000000).withStored [firstTransfer]
        relayOf).resolveConflictsAndRebuildLedger primitives).2 = .ok () :=
      (KronDAG.resolve_withRelays
        ((fundedDag 1 1000000).withStored [firstTransfer] ∅) relayOf).trans (by decide)
    rw [hm, hmerged]
    simp only [hres]
    intro h
    cases h
  refine ((accounted_merge_run_iff withGenesis_genesisDag [.credit (address 1) 1000000]).1
    [firstTransfer] 0 hover).2 (.inl ?_)
  change ((fundedDag 1 1000000).toGraph.merged primitives [firstTransfer]).2 = true
    ∧ ((fundedDag 1 1000000).toGraph.merged primitives [firstTransfer]).1 ≠ []
  rw [hmerged]
  exact ⟨rfl, List.cons_ne_nil _ _⟩

open StandIn in
/-- The first vertex of a batch is stored, the second is refused: the first is no conflict and not
counted. -/
theorem merge_drops_count :
    KronDAG.withGenesis primitives = some genesisDag
      ∧ run primitives genesisDag [.credit (address 1) 1000000] = fundedDag 1 1000000
      ∧ (((fundedDag 1 1000000).mergeOfflineGraphs primitives [firstTransfer, cheapTransfer] 0).2
        ≠ .error (.err (.attach .overflow)))
      ∧ ¬ ((fundedDag 1 1000000).mergeOfflineGraphs primitives [firstTransfer, cheapTransfer]
        0).1.Accounted := by
  have hmerged := merged_cheap
  obtain ⟨relayOf, e, hm, hne⟩ := KronDAG.merge_refused (P := primitives) (d := fundedDag 1 1000000)
    [firstTransfer, cheapTransfer] 0 (by rw [hmerged])
  have hover : ((fundedDag 1 1000000).mergeOfflineGraphs primitives [firstTransfer, cheapTransfer]
      0).2 ≠ .error (.err (.attach .overflow)) := by
    rw [hm]
    exact fun h => hne (by rw [hmerged]; exact List.cons_ne_nil _ _) (Except.error.inj h)
  refine ⟨withGenesis_genesisDag, rfl, hover, ?_⟩
  have hwf : (fundedDag 1 1000000).WF :=
    wf_run withGenesis_genesisDag [.credit (address 1) 1000000]
  rw [KronDAG.accounted_merge_iff hwf _ _ hover, hmerged]
  decide

end KronMesh
