import KronMesh.Admission
import KronMesh.Failure
import KronMesh.Incremental
import KronMesh.Snapshot

/-!
# A hub with its data directory, and its boot

The hub writes every vertex that it takes in to the log, and then a snapshot. A boot credits the
faucet of the snapshot and takes the log in again. Within room, a log whose vertices fit goes in
whole exactly when the boot meets no vertex that is due and exceeds a word
(`boot_isOk_iff`).
-/

namespace KronMesh

open Word Outcome Wire

/-! ## The hub -/

/-- `HubState`, with a store set. -/
structure HubState where
  dag : KronDAG
  store : DagStore

namespace HubState

variable (P : Primitives)

def persistSnapshot (hub : HubState) : HubState :=
  { hub with
    store := hub.store.writeSnapshot P (.fromDagWithFaucet hub.dag hub.dag.faucet) }

def persistVertex (hub : HubState) (tx : DagTransaction) : HubState :=
  persistSnapshot P { hub with store := hub.store.appendVertex P tx hub.dag }

/-- The vertex is accepted, and persisted when it is new. -/
def ingest (hub : HubState) (tx : DagTransaction) : HubState × Except DagError Bool :=
  match hub.dag.acceptWireVertex P tx with
  | (dag, .ok true) => (persistVertex P { hub with dag := dag } tx, .ok true)
  | (dag, r) => ({ hub with dag := dag }, r)

/-- A faucet credit of the hub itself. -/
def credit (hub : HubState) (address : Address) (amount : UInt64) : HubState :=
  persistSnapshot P { hub with dag := hub.dag.creditAccount address amount.toNat }

end HubState

section

variable {P : Primitives} {d d' : KronDAG} {tx : DagTransaction}

/-! ## Accepting -/

/-- Accepting that neither stores nor overflows changes nothing. -/
theorem accept_unchanged {r : Except DagError Bool} (h : d.acceptWireVertex P tx = (d', r))
    (hnew : r ≠ .ok true) (hno : r ≠ .error .overflow) : d' = d := by
  rcases accept_cases (P := P) d tx with ⟨-, he⟩ | ⟨e, -, he⟩ | ⟨new, hcheck, -, -⟩ |
    ⟨e, hcheck, -, -, -⟩
  · rw [he] at h
    cases h
    rfl
  · rw [he] at h
    cases h
    rfl
  all_goals
    have hsnd := accept_admitted_snd hcheck
    rw [h] at hsnd
    exact absurd hsnd (not_or.2 ⟨hnew, hno⟩)

/-- Only a vertex that is stored already is accepted as old. -/
theorem contains_of_accept_false (h : d.acceptWireVertex P tx = (d', .ok false)) :
    d.contains tx.id = true := by
  rcases accept_cases (P := P) d tx with ⟨hc, -⟩ | ⟨e, -, he⟩ | ⟨new, hcheck, -, -⟩ |
    ⟨e, hcheck, -, -, -⟩
  · exact hc
  · rw [he] at h
    cases h
  all_goals
    have hsnd := accept_admitted_snd hcheck
    rw [h] at hsnd
    exact absurd hsnd (by simp)

theorem faucet_accept (d : KronDAG) (tx : DagTransaction) :
    (d.acceptWireVertex P tx).1.faucet = d.faucet := by
  have hs := accept_steps (P := P) d tx
  generalize (d.acceptWireVertex P tx).1 = d' at hs
  induction hs with
  | refl => rfl
  | tail _ hs ih => rw [KronDAG.faucet_step hs, ih]

theorem faucet_run_accept (d : KronDAG) (txs : List DagTransaction) :
    (run P d (txs.map .accept)).faucet = d.faucet := by
  induction txs generalizing d with
  | nil => rfl
  | cons tx txs ih => rw [List.map_cons, run_cons, ih, exec_accept, faucet_accept]

theorem vertexCount_accept_le (d : KronDAG) (tx : DagTransaction) :
    (d.acceptWireVertex P tx).1.vertexCount ≤ d.vertexCount + 1 := by
  unfold KronDAG.vertexCount
  rw [d.accept_graph_eq tx]
  split_ifs with h
  · exact (Graph.length_entries_insertVertex (Graph.checkVertex_ok h.1).1).le
  · exact Nat.le_succ _

/-- Accepting within room keeps a node sound. -/
theorem sound_accept (hd : d.Sound) (hroom : Ledger.Room d.faucetTotal (d.vertexCount + 1)) :
    (d.acceptWireVertex P tx).1.Sound := by
  have hcount := vertexCount_accept_le (P := P) d tx
  have hroom' : (run P d [.accept tx]).HasRoom := by
    rw [run_cons, run_nil, exec_accept]
    refine hroom.mono ?_ hcount
    unfold KronDAG.faucetTotal
    rw [faucet_accept]
  exact hd.run [.accept tx] hroom'

/-- The vertex is due, and its cost exceeds a word. -/
def KronDAG.OverflowsAt (d : KronDAG) (tx : DagTransaction) : Prop :=
  u64Max < tx.cost ∧ tx.nonce.toNat = d.nextNonce.get tx.sender

instance (d : KronDAG) (tx : DagTransaction) : Decidable (d.OverflowsAt tx) :=
  inferInstanceAs (Decidable (_ ∧ _))

/-- Within room, an admitted vertex is accepted exactly when it is not due with a cost beyond a
word, and no such vertex is due in the rebuild behind it if it is stored aside. -/
theorem accept_isOk_iff (hd : d.Sound) (hroom : Ledger.Room d.faucetTotal (d.vertexCount + 1))
    (hcheck : d.checkVertex P tx = .ok ()) : (d.acceptWireVertex P tx).2 = .ok true ↔
      ¬ d.OverflowsAt tx ∧ (d.StoredAside P tx → (d.stored tx).ReplaySafe P) := by
  have hover : d.checkSpend tx = .error .overflow ↔ d.OverflowsAt tx := by
    refine ⟨fun hs => (hd.ledger.checkSpend_overflow hroom.faucet hs).symm, fun ⟨hc, hn⟩ => ?_⟩
    rcases Ledger.checkSpend_cases d.toLedger tx with ⟨hn', -⟩ | ⟨-, -, h⟩ | ⟨-, hc', -⟩ |
      ⟨-, hc', -⟩ | ⟨-, hc', -⟩
    · exact absurd hn hn'
    · exact h
    · exact absurd hc (not_lt.2 hc')
    · exact absurd hc (not_lt.2 hc')
    · exact absurd hc (not_lt.2 hc')
  rcases accept_cases (P := P) d tx with ⟨hc, -⟩ | ⟨e, ha | ⟨hs, rfl⟩, he⟩ | ⟨new, -, hs, he⟩ |
    ⟨e, -, hs, hne, he⟩
  · rw [Graph.not_contains_of_checkVertex hcheck] at hc
    cases hc
  · rw [ha] at hcheck
    cases hcheck
  · rw [he]
    exact iff_of_false nofun fun h => h.1 (hover.1 hs)
  · rw [he, KronDAG.attached_isOk hd hroom hcheck hs]
    refine iff_of_true rfl ⟨fun h => ?_, ?_⟩
    · rw [hover.2 h] at hs
      cases hs
    · rintro ⟨-, e, hs', -⟩
      rw [hs] at hs'
      cases hs'
  · have hsafe := KronDAG.resolve_isOk_iff (P := P) (hd.graph.insertVertex hcheck)
      (KronDAG.HasRoom.of_stored hcheck hroom)
    have hno : ¬ d.OverflowsAt tx := by
      rw [← hover, hs]
      exact fun h => hne (Except.error.inj h)
    have haside : d.StoredAside P tx := ⟨hcheck, e, hs, hne⟩
    rw [he, and_iff_right hno, forall_prop_of_true haside, ← hsafe]
    rcases (d.stored tx).resolveConflictsAndRebuildLedger P with ⟨d₁, e' | ⟨⟨⟩⟩⟩
    · exact iff_of_false nofun fun ⟨_, h⟩ => nomatch h
    · exact iff_of_true rfl ⟨d₁, rfl⟩

/-! ## Replaying a log -/

theorem replayWal_cons_ok {records : List DagTransaction} {b : Bool}
    (hc : d.contains tx.id = false) (h : d.acceptWireVertex P tx = (d', .ok b)) :
    replayWal P d (tx :: records) = replayWal P d' records := by
  rw [replayWal, hc, h]
  rfl

theorem replayWal_cons_error {records : List DagTransaction} {e : DagError}
    (hc : d.contains tx.id = false) (h : d.acceptWireVertex P tx = (d', .error e))
    (he : ∀ id, e ≠ .unknownParent id) :
    replayWal P d (tx :: records) = .error (.err (.dag e)) := by
  rw [replayWal, hc, h]
  cases e
  case unknownParent id => exact absurd rfl (he id)
  all_goals rfl

variable (P) in
/-- The boot meets no vertex of the log that is due and exceeds a word: not where it reads it, not
in a rebuild behind one that is stored aside, and not in the last rebuild. -/
def Clear : KronDAG → List DagTransaction → Prop
  | d, [] => d.ReplaySafe P
  | d, tx :: records =>
    (¬ d.OverflowsAt tx ∧ (d.StoredAside P tx → (d.stored tx).ReplaySafe P))
      ∧ Clear (d.acceptWireVertex P tx).1 records

/-- Within room, the replay of a log that fits goes through to the end, with the rebuild behind it,
exactly when it is clear; and then every vertex of the log is stored, in the order of the log. -/
theorem boot_isOk_iff : ∀ (records : List DagTransaction) {d : KronDAG}, d.Sound →
    Ledger.Room d.faucetTotal (d.vertexCount + records.length) → d.toGraph.Fits P records →
    ((∃ d₁ d', replayWal P d records = .ok d₁
        ∧ d₁.resolveConflictsAndRebuildLedger P = (d', .ok ())) ↔ Clear P d records) ∧
      ∀ d₁, replayWal P d records = .ok d₁ →
        d₁.toGraph = records.foldl Graph.insertVertex d.toGraph
  | [], d, hd, hroom, _ => by
    refine ⟨?_, fun d₁ h => by cases h; rfl⟩
    rw [Clear, ← KronDAG.resolve_isOk_iff hd.graph hroom]
    constructor
    · rintro ⟨d₁, d', h, hr⟩
      cases h
      exact ⟨d', hr⟩
    · rintro ⟨d', hr⟩
      exact ⟨d, d', rfl, hr⟩
  | tx :: records, d, hd, hroom, ⟨hcheck, hfits⟩ => by
    rw [List.length_cons] at hroom
    have hroom₁ : Ledger.Room d.faucetTotal (d.vertexCount + 1) := hroom.mono le_rfl (by omega)
    have hiff := accept_isOk_iff hd hroom₁ hcheck
    have hc := Graph.not_contains_of_checkVertex hcheck
    rcases hacc : d.acceptWireVertex P tx with ⟨d₂, r⟩
    rw [hacc] at hiff
    by_cases hok : r = .ok true
    · subst hok
      have hgraph := accept_graph hacc
      have hsound : (d.acceptWireVertex P tx).1.Sound := sound_accept hd hroom₁
      have hfaucet := faucet_accept (P := P) d tx
      have hcount := vertexCount_accept_le (P := P) d tx
      rw [hacc] at hsound hfaucet hcount
      simp only [] at hcount
      have hroom₂ : Ledger.Room d₂.faucetTotal (d₂.vertexCount + records.length) := by
        unfold KronDAG.faucetTotal
        rw [hfaucet]
        exact hroom.mono le_rfl (by omega)
      obtain ⟨hih, hfold⟩ := boot_isOk_iff records hsound hroom₂ (hgraph.symm ▸ hfits)
      rw [replayWal_cons_ok hc hacc, Clear, hacc, ← hih, and_iff_right (hiff.1 rfl)]
      refine ⟨Iff.rfl, fun d₁ h => ?_⟩
      rw [hfold d₁ h, hgraph, List.foldl_cons]
    · have hfail := accept_admitted_snd (P := P) hcheck
      rw [hacc] at hfail
      obtain rfl : r = .error .overflow := hfail.resolve_left hok
      rw [replayWal_cons_error hc hacc nofun, Clear]
      refine ⟨iff_of_false (fun ⟨_, _, h, _⟩ => nomatch h) fun h => hok (hiff.2 h.1), nofun⟩

theorem cost_withGenesis (h : KronDAG.withGenesis P = some d) {id : TxHash}
    (hl : d.vertices.lookup id = some tx) : tx.cost ≤ u64Max := by
  obtain ⟨g, hsig, -, -, rfl⟩ := withGenesis_eq h
  obtain ⟨-, -, ha, hf, -⟩ := signedGenesisTx_ok hsig
  change (Graph.empty.insertVertex g).vertices.lookup id = some tx at hl
  obtain ⟨-, rfl⟩ := Graph.lookup_insertVertex_empty hl
  rw [DagTransaction.cost, ha, hf]
  decide

/-- A log over a graph in which no cost exceeds a word is clear. -/
theorem clear_of_cost : ∀ (records : List DagTransaction) {d : KronDAG},
    (∀ id tx, d.vertices.lookup id = some tx → tx.cost ≤ u64Max) →
    (∀ tx ∈ records, tx.cost ≤ u64Max) → Clear P d records
  | [], d, hd, _ => KronDAG.replaySafe_of_cost hd
  | tx :: records, d, hd, hrecords => by
    obtain ⟨htx, hrecords⟩ := List.forall_mem_cons.1 hrecords
    have hstored : ∀ id y, (d.stored tx).vertices.lookup id = some y → y.cost ≤ u64Max := by
      intro id y hl
      rcases Graph.lookup_insertVertex_cases hl with ⟨-, rfl⟩ | ⟨-, hl⟩
      · exact htx
      · exact hd id y hl
    refine ⟨⟨fun h => absurd h.1 (not_lt.2 htx), fun _ => KronDAG.replaySafe_of_cost hstored⟩,
      clear_of_cost records (fun id y hl => ?_) hrecords⟩
    rw [d.accept_graph_eq tx] at hl
    split_ifs at hl
    · exact hstored id y hl
    · exact hd id y hl

/-! ## Booting -/

variable (P) in
/-- What a boot reads of the snapshot file. -/
def DagStore.Snapshots (store : DagStore) (snap : DagSnapshot) : Prop :=
  store.snapshot = none ∧ snap = .default
    ∨ ∃ bytes, store.snapshot = some bytes ∧ readSnapshot P bytes = .ok snap

/-- What a boot makes of the two files. -/
theorem load_eq_ok_iff {store : DagStore} {snap snap' : DagSnapshot}
    {records : List DagTransaction} (h : KronDAG.withGenesis P = some d)
    (hsnap : store.Snapshots P snap) (hwal : readWal P store.wal = .ok records) :
    store.load P = .ok (d', snap') ↔ snap' = snap ∧ ∃ d₁,
      replayWal P (creditFaucet d snap.faucet) records = .ok d₁
        ∧ d₁.resolveConflictsAndRebuildLedger P = (d', .ok ()) := by
  have hload : store.load P = (replayWal P (creditFaucet d snap.faucet) records >>= fun d₁ =>
      ((d₁.resolveConflictsAndRebuildLedger P).2.map fun _ =>
        ((d₁.resolveConflictsAndRebuildLedger P).1, snap)).mapError fun e => .err (.dag e)) := by
    unfold DagStore.load
    rcases hsnap with ⟨hs, rfl⟩ | ⟨bytes, hs, hread⟩
    · rw [hs, h, hwal]
      change replayWal P (creditFaucet d DagSnapshot.default.faucet) records >>= _ = _
      refine congrArg (replayWal P _ records >>= ·) (funext fun d₁ => ?_)
      rcases d₁.resolveConflictsAndRebuildLedger P with ⟨d₂, e | ⟨⟨⟩⟩⟩ <;> rfl
    · rw [hs, h, hwal]
      change readSnapshot P bytes >>= _ = _
      rw [hread]
      change replayWal P (creditFaucet d snap.faucet) records >>= _ = _
      refine congrArg (replayWal P _ records >>= ·) (funext fun d₁ => ?_)
      rcases d₁.resolveConflictsAndRebuildLedger P with ⟨d₂, e | ⟨⟨⟩⟩⟩ <;> rfl
  rw [hload, bind_eq_ok]
  constructor
  · rintro ⟨d₁, hreplay, hres⟩
    rcases hr : d₁.resolveConflictsAndRebuildLedger P with ⟨d₂, e | ⟨⟨⟩⟩⟩
    · rw [hr] at hres
      cases hres
    · rw [hr] at hres
      cases hres
      exact ⟨rfl, d₁, hreplay, hr⟩
  · rintro ⟨rfl, d₁, hreplay, hres⟩
    exact ⟨d₁, hreplay, by rw [hres]; rfl⟩
/-- What a boot that goes through has read. -/
theorem load_ok {store : DagStore} {snap : DagSnapshot} (h : store.load P = .ok (d', snap)) :
    ∃ d d₁ records, KronDAG.withGenesis P = some d ∧ store.Snapshots P snap
      ∧ replayWal P (creditFaucet d snap.faucet) records = .ok d₁
      ∧ d₁.resolveConflictsAndRebuildLedger P = (d', .ok ()) := by
  have hsnaps : ∃ snap', store.Snapshots P snap' := by
    rcases hs : store.snapshot with _ | bytes
    · exact ⟨.default, .inl ⟨hs, rfl⟩⟩
    · rcases hread : readSnapshot P bytes with e | snap'
      · unfold DagStore.load at h
        rw [hs] at h
        simp only [hread] at h
        cases h
      · exact ⟨snap', .inr ⟨bytes, hs, hread⟩⟩
  obtain ⟨snap', hsnap⟩ := hsnaps
  have hboot : (∃ d, KronDAG.withGenesis P = some d)
      ∧ ∃ records, readWal P store.wal = .ok records := by
    unfold DagStore.load at h
    rcases hg : KronDAG.withGenesis P with _ | d
    · rcases hsnap with ⟨hs, rfl⟩ | ⟨bytes, hs, hread⟩
      · rw [hs, hg] at h
        cases h
      · rw [hs, hg] at h
        simp only [hread] at h
        cases h
    · rcases hw : readWal P store.wal with e | records
      · rcases hsnap with ⟨hs, rfl⟩ | ⟨bytes, hs, hread⟩
        · rw [hs, hg, hw] at h
          cases h
        · rw [hs, hg, hw] at h
          simp only [hread] at h
          cases h
      · exact ⟨⟨d, rfl⟩, records, rfl⟩
  obtain ⟨⟨d, hg⟩, records, hw⟩ := hboot
  obtain ⟨rfl, d₁, hreplay, hres⟩ := (load_eq_ok_iff hg hsnap hw).1 h
  exact ⟨d, d₁, records, hg, hsnap, hreplay, hres⟩

/-- The credits of a boot, as calls. -/
def bootCredits (faucet : Tally Address) : List (Address × UInt64) :=
  (inOrder faucet).map fun e => (e.1, UInt64.ofNat e.2)

theorem le_of_mem_inOrder {faucet : Tally Address} (hf : ∀ a, faucet.get a ≤ u64Max)
    {e : Sigma fun _ : Address => ℕ} (he : e ∈ inOrder faucet) : e.2 ≤ u64Max := by
  rw [← Tally.get_of_mem ((perm_inOrder faucet).mem_iff.1 he)]
  exact hf e.1

theorem creditFaucet_eq_run {faucet : Tally Address} (hf : ∀ a, faucet.get a ≤ u64Max) :
    creditFaucet d faucet = run P d (creditOps (bootCredits faucet)) := by
  unfold creditFaucet creditOps bootCredits
  rw [run, List.map_map, List.foldl_map]
  refine List.foldl_ext _ _ _ fun d e he => ?_
  change _ = d.creditAccount e.1 (UInt64.ofNat e.2).toNat
  rw [toNat_ofNat_of_le (le_of_mem_inOrder hf he)]
  split_ifs with hpos
  · rfl
  · unfold KronDAG.creditAccount
    rw [if_pos (Nat.eq_zero_of_not_pos hpos)]

theorem credited_bootCredits {faucet : Tally Address} (hf : ∀ a, faucet.get a ≤ u64Max) :
    credited (creditOps (bootCredits faucet)) = faucet.total := by
  have hsum : ∀ es : List (Sigma fun _ : Address => ℕ), (∀ e ∈ es, e.2 ≤ u64Max) →
      credited (creditOps (es.map fun e => (e.1, UInt64.ofNat e.2))) = (es.map Sigma.snd).sum := by
    intro es hes
    induction es with
    | nil => rfl
    | cons e es ih =>
      obtain ⟨he, hes⟩ := List.forall_mem_cons.1 hes
      rw [List.map_cons, creditOps, List.map_cons, credited, toNat_ofNat_of_le he, List.map_cons,
        List.sum_cons]
      exact congrArg (e.2 + ·) (ih hes)
  rw [bootCredits, hsum _ fun e => le_of_mem_inOrder hf]
  exact ((perm_inOrder faucet).map Sigma.snd).sum_eq

theorem creditFaucet_toGraph (d : KronDAG) (faucet : Tally Address) :
    (creditFaucet d faucet).toGraph = d.toGraph := by
  unfold creditFaucet
  generalize inOrder faucet = es
  induction es generalizing d with
  | nil => rfl
  | cons e es ih =>
    rw [List.foldl_cons, ih]
    split_ifs
    · exact (d.creditAccount_frame e.1 e.2).1
    · rfl

/-- Within room, the credits of a boot leave a sound node, and the room. -/
theorem sound_creditFaucet (h : KronDAG.withGenesis P = some d) {faucet : Tally Address} {n : ℕ}
    (hroom : Ledger.Room faucet.total (d.vertexCount + n)) :
    (creditFaucet d faucet).Sound
      ∧ Ledger.Room (creditFaucet d faucet).faucetTotal
        ((creditFaucet d faucet).vertexCount + n) := by
  have hword : ∀ a, faucet.get a ≤ u64Max := fun a =>
    (Tally.get_le_total faucet a).trans ((Nat.le_add_right _ _).trans hroom.faucet)
  have hcount : (creditFaucet d faucet).vertexCount = d.vertexCount := by
    unfold KronDAG.vertexCount
    rw [creditFaucet_toGraph]
  have htotal : (creditFaucet d faucet).faucetTotal ≤ faucet.total := by
    have hle := faucetTotal_run (P := P) (d := d) (creditOps (bootCredits faucet))
    rwa [faucetTotal_withGenesis h, credited_bootCredits hword, Nat.zero_add,
      ← creditFaucet_eq_run hword] at hle
  have hroom' : Ledger.Room (creditFaucet d faucet).faucetTotal
      ((creditFaucet d faucet).vertexCount + n) :=
    ⟨(Nat.add_le_add_right htotal _).trans hroom.faucet, hcount.symm ▸ hroom.vertices⟩
  refine ⟨?_, hroom'⟩
  have hhas : (creditFaucet d faucet).HasRoom := hroom'.mono le_rfl (Nat.le_add_right _ n)
  rw [creditFaucet_eq_run (P := P) hword] at hhas ⊢
  exact sound_run h _ hhas

theorem creditFaucet_single {faucet : Tally Address} {a : Address} {n : ℕ} (hn : 0 < n)
    (h : faucet = (∅ : Tally Address).set a n) (d : KronDAG) :
    creditFaucet d faucet = d.creditAccount a n := by
  subst h
  exact if_pos hn

/-! ## The files of a hub -/

variable (P) in
/-- The files hold the log of `records` and the snapshot of `dag`, if there was ever one. -/
structure DagStore.Keeps (store : DagStore) (records : List DagTransaction) (dag : KronDAG) :
    Prop where
  wal : store.wal = records.foldl (appendWal P) none
  snapshot : store.snapshot = none ∧ dag.faucet = ∅
    ∨ store.snapshot = some (writeChecksummed P snapMagic (encodeSnapshot (.fromDag dag)))

/-- A log of vertices that the decoder inverts is read back. -/
theorem readWal_foldl {records : List DagTransaction} (h : ∀ tx ∈ records, Logged P tx) :
    readWal P (records.foldl (appendWal P) none) = .ok records := by
  rcases records with _ | ⟨tx, records⟩
  · rfl
  · rw [List.foldl_cons, appendWal, foldl_appendWal_some, readWal_some, Option.getD_none,
      List.nil_append, ← Journal.log_cons, reads_wal.read_log h]

/-- A boot credits what the faucet of the hub holds. -/
theorem DagStore.Keeps.snapshots {store : DagStore} {records : List DagTransaction}
    {dag : KronDAG} (hk : store.Keeps P records dag) (hword : ∀ a, dag.faucet.get a ≤ u64Max)
    (hsize : (encodeSnapshot (.fromDag dag)).length < 2 ^ 32) (d : KronDAG) :
    ∃ snap, store.Snapshots P snap
      ∧ creditFaucet d snap.faucet = creditFaucet d dag.faucet := by
  rcases hk.snapshot with ⟨hs, hf⟩ | hs
  · exact ⟨.default, .inl ⟨hs, rfl⟩, by rw [hf]; rfl⟩
  · refine ⟨_, .inr ⟨_, hs, readSnapshot_write hsize⟩, ?_⟩
    have horder : inOrder (DagSnapshot.fromDag dag).reloaded.faucet = inOrder dag.faucet :=
      inOrder_eq_of_perm (perm_reload hword)
    unfold creditFaucet
    rw [horder]

/-- Within room, a boot from a log that fits goes through exactly when it is clear, and then holds
the vertices of the log in its order. -/
theorem load_isOk_iff {store : DagStore} {records : List DagTransaction} {dag : KronDAG}
    (h : KronDAG.withGenesis P = some d) (hk : store.Keeps P records dag)
    (hlogged : ∀ tx ∈ records, Logged P tx)
    (hsize : (encodeSnapshot (.fromDag dag)).length < 2 ^ 32)
    (hroom : Ledger.Room dag.faucetTotal (d.vertexCount + records.length))
    (hfits : d.toGraph.Fits P records) :
    ((∃ d' snap, store.load P = .ok (d', snap)) ↔ Clear P (creditFaucet d dag.faucet) records) ∧
      ∀ d' snap, store.load P = .ok (d', snap) →
        d'.toGraph = records.foldl Graph.insertVertex d.toGraph := by
  have hword : ∀ a, dag.faucet.get a ≤ u64Max := fun a =>
    (Tally.get_le_total dag.faucet a).trans ((Nat.le_add_right _ _).trans hroom.faucet)
  obtain ⟨snap, hsnap, hcredit⟩ := hk.snapshots hword hsize d
  obtain ⟨hsound, hroom'⟩ := sound_creditFaucet h hroom
  have hwal : readWal P store.wal = .ok records := hk.wal ▸ readWal_foldl hlogged
  have hgraph := creditFaucet_toGraph d dag.faucet
  obtain ⟨hiff, hfold⟩ := boot_isOk_iff records hsound hroom' (hgraph.symm ▸ hfits)
  constructor
  · rw [← hiff]
    constructor
    · rintro ⟨d', snap', hload⟩
      obtain ⟨-, d₁, hreplay, hres⟩ := (load_eq_ok_iff h hsnap hwal).1 hload
      exact ⟨d₁, d', hcredit ▸ hreplay, hres⟩
    · rintro ⟨d₁, d', hreplay, hres⟩
      exact ⟨d', snap, (load_eq_ok_iff h hsnap hwal).2 ⟨rfl, d₁, hcredit.symm ▸ hreplay, hres⟩⟩
  · intro d' snap' hload
    obtain ⟨-, d₁, hreplay, hres⟩ := (load_eq_ok_iff h hsnap hwal).1 hload
    have hframe := (d₁.resolve_frame (P := P)).1
    rw [hres] at hframe
    rw [hframe, hfold d₁ (hcredit ▸ hreplay), hgraph]

end

end KronMesh
