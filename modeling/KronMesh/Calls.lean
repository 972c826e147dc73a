import KronMesh.Rebuild

/-!
# Calls that do not fail

A call that neither overflows nor fails in a merge does nothing, or it credits, or it attaches a
vertex to the end, or it stores vertices and rebuilds to the end (`exec_cases_of_callOk`). Nothing
of a vertex stored aside is left in the ledger that a rebuild has not put there.
-/

namespace KronMesh

open Word Outcome

section

variable (P : Primitives)

/-- The call does not saturate, overflow or fail in a merge. -/
def CallOk (d : KronDAG) : Op → Prop
  | .credit a n => d.balance a + n.toNat ≤ u64Max ∧ d.faucet.get a + n.toNat ≤ u64Max
  | .attach host tx device => (d.attachAndVerifyFor P host tx device).2 ≠ .error .overflow
  | .accept tx => (d.acceptWireVertex P tx).2 ≠ .error .overflow
  | .merge txs relay => ∃ n, (d.mergeOfflineGraphs P txs relay).2 = .ok n
  | .rebuild => (d.resolveConflictsAndRebuildLedger P).2 = .ok ()

/-- No call of the run does. -/
def CallsOk : KronDAG → List Op → Prop
  | _, [] => True
  | d, op :: ops => CallOk P d op ∧ CallsOk (exec P d op) ops

end

variable {P : Primitives} {d d' : KronDAG} {tx : DagTransaction}

theorem callsOk_concat (op : Op) : ∀ (ops : List Op) (d : KronDAG),
    CallsOk P d (ops ++ [op]) ↔ CallsOk P d ops ∧ CallOk P (run P d ops) op
  | [], _ => by simp [CallsOk, run_nil]
  | o :: ops, d => by
    rw [List.cons_append, CallsOk, CallsOk, callsOk_concat op ops, run_cons, and_assoc]

namespace KronDAG

/-- Everything one vertex of a batch can do: nothing, or be stored. -/
theorem mergeOne_cases (relay : Address) (d : KronDAG) (tx : DagTransaction) :
    (∃ r, mergeOne P relay d tx = (d, r) ∧ (∀ n, r = .ok n → n = 0)) ∨
    (∃ relayOf, d.checkVertex P tx = .ok () ∧ mergeOne P relay d tx
      = ({ d with toGraph := d.toGraph.insertVertex tx, relayOf := relayOf }, .ok 1)) := by
  unfold mergeOne
  by_cases hc : d.contains tx.id
  · rw [if_pos hc]
    exact .inl ⟨_, rfl, fun n h => by cases h; rfl⟩
  rw [if_neg hc]
  rcases d.missingParent tx with _ | p
  · rcases insertGraphOnly_cases (P := P) d tx with ⟨e, -, h⟩ | ⟨ha, h⟩
    · rw [h]
      refine .inl ?_
      cases e
      case duplicateTx => exact ⟨_, rfl, fun n h => by cases h; rfl⟩
      all_goals exact ⟨_, rfl, fun n h => by cases h⟩
    · rw [h]
      refine .inr ?_
      simp only []
      split_ifs
      · exact ⟨_, ha, rfl⟩
      · exact ⟨_, ha, rfl⟩
  · exact .inl ⟨_, rfl, fun n h => by cases h⟩

/-- A batch that goes in leaves a well-formed graph and the faucet, and has changed nothing when it
counts nothing. -/
theorem mergeLoop_ok (relay : Address) : ∀ (txs : List DagTransaction) {d d' : KronDAG} {n m : ℕ},
    d.toGraph.WF → mergeLoop P relay d n txs = (d', .ok m) →
      d'.toGraph.WF ∧ d'.faucet = d.faucet ∧ min n (2 ^ 32 - 1) ≤ m ∧ (m = 0 → d' = d)
  | [], d, d', n, m, hd, h => by
    cases h
    exact ⟨hd, rfl, min_le_left _ _, fun _ => rfl⟩
  | tx :: txs, d, d', n, m, hd, h => by
    unfold mergeLoop at h
    rcases mergeOne_cases (P := P) relay d tx with ⟨r, hm, hr⟩ | ⟨relayOf, hcheck, hm⟩
    · rw [hm] at h
      rcases r with e | k
      · cases h
      · obtain rfl := hr k rfl
        obtain ⟨h1, h2, h3, h4⟩ := mergeLoop_ok relay txs hd h
        exact ⟨h1, h2, by omega, h4⟩
    · rw [hm] at h
      obtain ⟨h1, h2, h3, -⟩ := mergeLoop_ok relay txs (hd.insertVertex hcheck) h
      exact ⟨h1, h2, by omega, fun hm0 => by omega⟩

/-- Attaching, on the ledger, is what a replay does with the vertex. -/
theorem applyLedgerEffects_of_attached (hgen : tx.isGenesis = false) {new : ℕ × ℕ}
    {r : Except DagError Unit} (hs : d.checkSpend tx = .ok new)
    (h : d.attached tx new (tx.provenRelayNodes P) = (d', r)) :
    d.toLedger.applyLedgerEffects P tx = (d'.toLedger, r) := by
  unfold attached onLedger at h
  simp only [hgen, if_true] at h
  cases h
  unfold Ledger.applyLedgerEffects
  rw [hs]

end KronDAG

/-- A vertex that is accepted is attached, or it is stored and the rebuild goes through. -/
theorem accept_ok_cases (h : d.acceptWireVertex P tx = (d', .ok true)) :
    d.checkVertex P tx = .ok () ∧
      ((∃ new, d.checkSpend tx = .ok new
          ∧ d.attached tx new (tx.provenRelayNodes P) = (d', .ok ())) ∨
        (∃ e, d.checkSpend tx = .error e
          ∧ (d.stored tx).resolveConflictsAndRebuildLedger P = (d', .ok ()))) := by
  have hmap : ∀ r : Outcome KronDAG DagError, (r.1, r.2.map fun _ => true) = (d', .ok true) →
      r = (d', .ok ()) := by
    rintro ⟨d₁, e | ⟨⟨⟩⟩⟩ hr
    · cases hr
    · cases hr
      rfl
  rcases accept_cases (P := P) d tx with ⟨-, he⟩ | ⟨e, -, he⟩ | ⟨new, hcheck, hs, he⟩ |
    ⟨e, hcheck, hs, -, he⟩
  · rw [he] at h
    cases h
  · rw [he] at h
    cases h
  · rw [he] at h
    exact ⟨hcheck, .inl ⟨new, hs, hmap _ h⟩⟩
  · rw [he] at h
    exact ⟨hcheck, .inr ⟨e, hs, hmap _ h⟩⟩

/-- A vertex that is accepted is stored. -/
theorem accept_graph (h : d.acceptWireVertex P tx = (d', .ok true)) :
    d'.toGraph = d.toGraph.insertVertex tx := by
  obtain ⟨-, ⟨new, -, hatt⟩ | ⟨e, -, hres⟩⟩ := accept_ok_cases h
  · have hg := (d.attached_frame tx new (tx.provenRelayNodes P)).1
    rwa [hatt] at hg
  · have hg := (d.stored tx).resolve_frame (P := P) |>.1
    rwa [hres] at hg

/-- An admitted vertex is accepted, or the call overflows. -/
theorem accept_admitted_snd (hcheck : d.checkVertex P tx = .ok ()) :
    (d.acceptWireVertex P tx).2 = .ok true ∨ (d.acceptWireVertex P tx).2 = .error .overflow := by
  rcases accept_cases (P := P) d tx with ⟨hc, -⟩ | ⟨e, ha | ⟨-, rfl⟩, he⟩ | ⟨new, -, -, he⟩ |
    ⟨e, -, -, -, he⟩
  · rw [Graph.not_contains_of_checkVertex hcheck] at hc
    cases hc
  · rw [ha] at hcheck
    cases hcheck
  · exact .inr (by rw [he])
  · rw [he]
    exact (attached_snd (d := d) new (tx.provenRelayNodes P)).imp
      (congrArg (Except.map fun _ => true)) (congrArg (Except.map fun _ => true))
  · rw [he]
    exact ((d.stored tx).resolve_snd (P := P)).imp
      (congrArg (Except.map fun _ => true)) (congrArg (Except.map fun _ => true))

/-- An admitted vertex is stored unless the call overflows. -/
theorem accept_graph_of_admitted (hcheck : d.checkVertex P tx = .ok ())
    (hno : (d.acceptWireVertex P tx).2 ≠ .error .overflow) :
    (d.acceptWireVertex P tx).1.toGraph = d.toGraph.insertVertex tx :=
  accept_graph (Prod.ext rfl ((accept_admitted_snd hcheck).resolve_right hno))

theorem attach_cases_of_callOk {host : Except ShieldError Unit} {device : AttachingDevice}
    (hok : CallOk P d (.attach host tx device)) : exec P d (.attach host tx device) = d ∨
      ∃ new, d.checkVertex P tx = .ok () ∧ d.checkSpend tx = .ok new
        ∧ d.attached tx new (tx.provenRelayNodes P)
          = (exec P d (.attach host tx device), .ok ()) := by
  simp only [CallOk, exec] at hok ⊢
  rcases attachFor_cases (P := P) d host tx device with ⟨e, h⟩ | ⟨new, ha, hs, h⟩
  · exact .inl (by rw [h])
  · rw [h] at hok ⊢
    have hsnd := (attached_snd new (tx.provenRelayNodes P)).resolve_right hok
    exact .inr ⟨new, ha, hs, Prod.ext rfl hsnd⟩

theorem accept_cases_of_callOk (hd : d.toGraph.WF) (hok : CallOk P d (.accept tx)) :
    exec P d (.accept tx) = d ∨
    (∃ new, d.checkVertex P tx = .ok () ∧ d.checkSpend tx = .ok new
      ∧ d.attached tx new (tx.provenRelayNodes P) = (exec P d (.accept tx), .ok ())) ∨
    ∃ d₁ : KronDAG, d₁.toGraph.WF ∧ d₁.faucet = d.faucet
      ∧ d₁.resolveConflictsAndRebuildLedger P = (exec P d (.accept tx), .ok ()) := by
  simp only [CallOk, exec] at hok ⊢
  rcases accept_cases (P := P) d tx with ⟨-, h⟩ | ⟨e, -, h⟩ | ⟨new, ha, hs, h⟩ | ⟨e, ha, -, -, h⟩
  · exact .inl (by rw [h])
  · exact .inl (by rw [h])
  · rw [h] at hok ⊢
    have hsnd := (attached_snd new (tx.provenRelayNodes P)).resolve_right fun he =>
      hok (congrArg (Except.map fun _ => true) he)
    exact .inr (.inl ⟨new, ha, hs, Prod.ext rfl hsnd⟩)
  · rw [h] at hok ⊢
    have hsnd := (d.stored tx).resolve_snd.resolve_right fun he =>
      hok (congrArg (Except.map fun _ => true) he)
    exact .inr (.inr ⟨d.stored tx, hd.insertVertex ha, rfl, Prod.ext rfl hsnd⟩)

theorem merge_cases_of_callOk (hd : d.toGraph.WF) {txs : List DagTransaction} {relay : Address}
    (hok : CallOk P d (.merge txs relay)) : exec P d (.merge txs relay) = d ∨
      ∃ d₁ : KronDAG, d₁.toGraph.WF ∧ d₁.faucet = d.faucet
        ∧ d₁.resolveConflictsAndRebuildLedger P = (exec P d (.merge txs relay), .ok ()) := by
  simp only [CallOk, exec, KronDAG.mergeOfflineGraphs] at hok ⊢
  rcases ht : topoOrderIncoming d.toGraph txs with e | ordered
  · exact .inl rfl
  rw [ht] at hok
  simp only [] at hok ⊢
  rcases hm : KronDAG.mergeLoop P relay d 0 ordered with ⟨d₁, e | m⟩
  · rw [hm] at hok
    obtain ⟨n, h⟩ := hok
    cases h
  obtain ⟨hd₁, hf, -, h0⟩ := KronDAG.mergeLoop_ok relay ordered hd hm
  rw [hm] at hok
  simp only [] at hok ⊢
  by_cases hpos : 0 < m
  · rw [if_pos hpos] at hok ⊢
    refine .inr ⟨d₁, hd₁, hf, ?_⟩
    rcases hr : d₁.resolveConflictsAndRebuildLedger P with ⟨d', e | ⟨⟨⟩⟩⟩
    · rw [hr] at hok
      obtain ⟨n, h⟩ := hok
      cases h
    · rfl
  · rw [if_neg hpos]
    exact .inl (h0 (by omega))

/-- Everything a call can do that does not fail. -/
theorem exec_cases_of_callOk (hd : d.toGraph.WF) : ∀ {op : Op}, CallOk P d op →
    exec P d op = d ∨
    (∃ a n, op = .credit a n ∧ exec P d op = d.creditAccount a n.toNat) ∨
    (∃ tx new, d.checkVertex P tx = .ok () ∧ d.checkSpend tx = .ok new
      ∧ d.attached tx new (tx.provenRelayNodes P) = (exec P d op, .ok ())) ∨
    (∃ d₁ : KronDAG, d₁.toGraph.WF ∧ d₁.faucet = d.faucet
      ∧ d₁.resolveConflictsAndRebuildLedger P = (exec P d op, .ok ()))
  | .credit a n, _ => .inr (.inl ⟨a, n, rfl, rfl⟩)
  | .attach host tx device, hok => by
    rcases attach_cases_of_callOk hok with h | h
    · exact .inl h
    · exact .inr (.inr (.inl ⟨tx, h⟩))
  | .accept tx, hok => by
    rcases accept_cases_of_callOk hd hok with h | h | h
    · exact .inl h
    · exact .inr (.inr (.inl ⟨tx, h⟩))
    · exact .inr (.inr (.inr h))
  | .merge txs relay, hok => by
    rcases merge_cases_of_callOk hd hok with h | h
    · exact .inl h
    · exact .inr (.inr (.inr h))
  | .rebuild, hok => by
    refine .inr (.inr (.inr ⟨d, hd, rfl, ?_⟩))
    simp only [CallOk, exec] at hok ⊢
    rw [← hok]

/-! ## Vertices stay -/

theorem lookup_step (h : Step P d d') {id : TxHash} (hl : d.vertices.lookup id = some tx) :
    d'.vertices.lookup id = some tx := by
  rcases KronDAG.step_graph h with he | ⟨tx', hcheck, he⟩
  · rwa [he]
  · rw [he]
    exact Graph.lookup_insertVertex_of_lookup hcheck hl

/-- A stored vertex is never lost or altered by a call. -/
theorem lookup_exec (op : Op) {id : TxHash} (hl : d.vertices.lookup id = some tx) :
    (exec P d op).vertices.lookup id = some tx := by
  rcases exec_cases (P := P) d op with ⟨a, n, -, he⟩ | ⟨-, hs⟩
  · rw [he, (d.creditAccount_frame a n.toNat).1]
    exact hl
  · generalize exec P d op = d' at hs
    induction hs with
    | refl => exact hl
    | tail _ hs ih => exact lookup_step hs ih

theorem lookup_run {id : TxHash} : ∀ (ops : List Op) {d : KronDAG},
    d.vertices.lookup id = some tx → (run P d ops).vertices.lookup id = some tx
  | [], _, hl => hl
  | op :: ops, _, hl => lookup_run ops (lookup_exec op hl)

/-! ## What every run keeps -/

/-- The invariant of a node holds after every step, also one that fails. -/
theorem wf_step (h : Step P d d') (hd : d.WF) : d'.WF := by
  refine ⟨KronDAG.step_graphWF hd.graph h, fun {id} hid => ?_⟩
  have hgrow : d.contains id = true → d'.contains id = true := by
    simp only [Graph.contains_iff]
    exact fun ⟨tx, hl⟩ => ⟨tx, lookup_step h hl⟩
  cases h with
  | attach tx new ha hs =>
    unfold KronDAG.isConflict at hid
    rw [(d.attached_frame tx new _).2.2] at hid
    exact hgrow (hd.conflicts hid)
  | store tx relayOf ha => exact hgrow (hd.conflicts hid)
  | rebuild =>
    rcases hr : d.resolveConflictsAndRebuildLedger P with ⟨d₁, e | ⟨⟨⟩⟩⟩
    · have hconf := (KronDAG.resolve_error hr).2
      rw [hr] at hid hgrow
      unfold KronDAG.isConflict at hid
      rw [hconf] at hid
      exact hgrow (hd.conflicts hid)
    · rw [hr] at hid
      exact (KronDAG.WF_resolve hd.graph hr).conflicts hid

theorem wf_credit (hd : d.WF) (a : Address) (n : ℕ) : (d.creditAccount a n).WF := by
  obtain ⟨hg, hc⟩ := d.creditAccount_frame a n
  refine ⟨hg ▸ hd.graph, fun {id} hid => ?_⟩
  unfold KronDAG.isConflict at hid
  rw [hc] at hid
  rw [hg]
  exact hd.conflicts hid

theorem wf_exec (hd : d.WF) (op : Op) : (exec P d op).WF :=
  run_invariant (P := P) KronDAG.WF (fun _ a n hd => wf_credit hd a n.toNat)
    (fun _ _ hs hd => wf_step hs hd) [op] hd

theorem wf_withGenesis (h : KronDAG.withGenesis P = some d) : d.WF := by
  refine ⟨Graph.WF_withGenesis h, fun {id} hid => ?_⟩
  obtain ⟨g, -, -, -, rfl⟩ := withGenesis_eq h
  cases hid

theorem wf_run (h : KronDAG.withGenesis P = some d) (ops : List Op) : (run P d ops).WF :=
  run_invariant (P := P) KronDAG.WF (fun _ a n hd => wf_credit hd a n.toNat)
    (fun _ _ hs hd => wf_step hs hd) ops (wf_withGenesis h)

end KronMesh
