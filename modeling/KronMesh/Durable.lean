import KronMesh.Restart

/-!
# Threads that share a hub

A thread stores its vertex under the lock of the node and persists it under a later one, so the log
is in no order of the graph. A boot passes over a vertex whose parent it has not read yet, and never
comes back to it. So a boot gives back every vertex that was accepted exactly when no thread
persisted its vertex while another one still held a parent of it, and no vertex that is due exceeds
a word (`durable_iff`).
-/

namespace KronMesh

open Word Outcome Wire

/-- The hub, what each thread has stored and not persisted yet, and the vertices whose calls return
`Ok`. -/
structure Threads (ι : Type*) where
  hub : HubState
  inFlight : AList fun _ : ι => DagTransaction
  accepted : List DagTransaction

/-- A step under one lock: the first of `ingest` and of a miner's tick, or the second of either. -/
inductive Move (ι : Type*)
  | ingest (i : ι) (tx : DagTransaction)
  | attach (i : ι) (host : Except ShieldError Unit) (tx : DagTransaction)
    (device : AttachingDevice)
  | persist (i : ι)

/-! ## A replay that passes over vertices -/

section Replay

variable {P : Primitives} {d d' : KronDAG} {tx : DagTransaction} {records : List DagTransaction}

/-- A record of a replay that goes through is passed over, or its vertex is stored. -/
theorem replayWal_cons (h : replayWal P d (tx :: records) = .ok d') :
    replayWal P d records = .ok d'
      ∨ d.checkVertex P tx = .ok () ∧ ∃ d₁ : KronDAG, d₁.toGraph = d.toGraph.insertVertex tx
        ∧ replayWal P d₁ records = .ok d' := by
  rw [replayWal] at h
  rcases hc : d.contains tx.id
  case true =>
    rw [hc] at h
    exact .inl h
  rw [hc] at h
  rcases hacc : d.acceptWireVertex P tx with ⟨d₁, e | ⟨⟨⟩⟩⟩
  · rw [hacc] at h
    cases e
    case unknownParent id =>
      obtain rfl := accept_unchanged hacc (by simp) (by simp)
      exact .inl h
    all_goals cases h
  · rw [contains_of_accept_false hacc] at hc
    cases hc
  · rw [hacc] at h
    exact .inr ⟨(accept_ok_cases hacc).1, d₁, accept_graph hacc, h⟩

/-- A replay stores nothing but what it reads. -/
theorem contains_replayWal {id : TxHash} : ∀ {records : List DagTransaction} {d d' : KronDAG},
    replayWal P d records = .ok d' → d'.contains id = true →
    d.contains id = true ∨ id ∈ records.map DagTransaction.id
  | [], d, d', h, hc => by
    cases h
    exact .inl hc
  | tx :: records, d, d', h, hc => by
    rcases replayWal_cons h with h | ⟨-, d₁, hgraph, h⟩
    · rcases contains_replayWal h hc with hc | hm
      · exact .inl hc
      · exact .inr (List.mem_cons_of_mem _ hm)
    · rcases contains_replayWal h hc with hc | hm
      · rw [hgraph, Graph.contains_insertVertex, Bool.or_eq_true, decide_eq_true_eq] at hc
        rcases hc with rfl | hc
        · exact .inr List.mem_cons_self
        · exact .inl hc
      · exact .inr (List.mem_cons_of_mem _ hm)

/-- A replay that passes over no vertex has read each behind its parents. -/
theorem fits_of_replayWal : ∀ {records : List DagTransaction} {d d' : KronDAG},
    (records.map DagTransaction.id).Nodup → (∀ tx ∈ records, d.contains tx.id = false) →
    replayWal P d records = .ok d' → (∀ tx ∈ records, d'.contains tx.id = true) →
    d.toGraph.Fits P records
  | [], _, _, _, _, _, _ => trivial
  | tx :: records, d, d', hnd, hnew, h, hall => by
    obtain ⟨hid, hnd⟩ := List.nodup_cons.1 hnd
    obtain ⟨htx, hnew⟩ := List.forall_mem_cons.1 hnew
    obtain ⟨hc, hall⟩ := List.forall_mem_cons.1 hall
    rcases replayWal_cons h with h | ⟨hcheck, d₁, hgraph, h⟩
    · rcases contains_replayWal h hc with hc | hm
      · rw [htx] at hc
        cases hc
      · exact absurd hm hid
    · have hnew' : ∀ y ∈ records, d₁.contains y.id = false := by
        intro y hy
        have hne : y.id ≠ tx.id := fun he => hid (he ▸ List.mem_map_of_mem hy)
        rw [hgraph, Graph.contains_insertVertex, hnew y hy, decide_eq_false hne, Bool.or_false]
      exact ⟨hcheck, hgraph ▸ fits_of_replayWal hnd hnew' h hall⟩

theorem contains_foldl_insertVertex {id : TxHash} : ∀ (txs : List DagTransaction) (g : Graph),
    (txs.foldl Graph.insertVertex g).contains id = true
      ↔ g.contains id = true ∨ id ∈ txs.map DagTransaction.id
  | [], g => by simp
  | tx :: txs, g => by
    rw [List.foldl_cons, contains_foldl_insertVertex txs, Graph.contains_insertVertex,
      Bool.or_eq_true, decide_eq_true_eq, List.map_cons, List.mem_cons]
    tauto

end Replay

namespace Threads

variable {ι : Type*} [DecidableEq ι]

section

variable (P : Primitives)

/-- Faucet credits of a hub on an empty directory, and no thread at work. -/
def start (d : KronDAG) (credits : List (Address × UInt64)) : Threads ι where
  hub := HubState.run P ⟨d, .empty⟩ (credits.map fun c => .credit c.1 c.2)
  inFlight := ∅
  accepted := []

/-- The thread has stored the vertex. -/
def hold (s : Threads ι) (dag : KronDAG) (i : ι) (tx : DagTransaction) : Threads ι where
  hub := { s.hub with dag := dag }
  inFlight := s.inFlight.insert i tx
  accepted := s.accepted ++ [tx]

/-- A thread makes no call before its last one has returned, and persists only what it holds. -/
def move (s : Threads ι) : Move ι → Option (Threads ι)
  | .ingest i tx =>
    if (s.inFlight.lookup i).isSome then none
    else
      match s.hub.dag.acceptWireVertex P tx with
      | (dag, .ok true) => some (s.hold dag i tx)
      | (dag, .ok false) =>
        some { s with hub := { s.hub with dag := dag }, accepted := s.accepted ++ [tx] }
      | (dag, .error _) => some { s with hub := { s.hub with dag := dag } }
  | .attach i host tx device =>
    if (s.inFlight.lookup i).isSome then none
    else
      match s.hub.dag.attachAndVerifyFor P host tx device with
      | (dag, .ok ()) => some (s.hold dag i tx)
      | (dag, .error _) => some { s with hub := { s.hub with dag := dag } }
  | .persist i =>
    match s.inFlight.lookup i with
    | none => none
    | some tx => some { s with hub := s.hub.persistVertex P tx, inFlight := s.inFlight.erase i }

/-- The call returns an overflow. -/
def Overflows (s : Threads ι) : Move ι → Prop
  | .ingest _ tx => (s.hub.dag.acceptWireVertex P tx).2 = .error .overflow
  | .attach _ host tx device => (s.hub.dag.attachAndVerifyFor P host tx device).2 = .error .overflow
  | .persist _ => False

/-- An interleaving of the steps of the threads in which no call overflows. -/
def Runs : Threads ι → List (Move ι) → Threads ι → Prop
  | s, [], s' => s' = s
  | s, m :: moves, s' => ¬ s.Overflows P m ∧ ∃ s₁, s.move P m = some s₁ ∧ Runs s₁ moves s'

/-- Who persists a vertex now, does so while no other thread holds a parent of it. -/
def ParentsWritten (s : Threads ι) : Move ι → Prop
  | .persist i => ∀ tx, s.inFlight.lookup i = some tx →
      ∀ j y, j ≠ i → s.inFlight.lookup j = some y → y.id ∉ tx.parents
  | _ => True

/-- At every step of the run. -/
def ParentsFirst : Threads ι → List (Move ι) → Prop
  | _, [] => True
  | s, m :: moves => s.ParentsWritten m ∧ ∀ s₁, s.move P m = some s₁ → ParentsFirst s₁ moves

end

variable {P : Primitives} {d : KronDAG} {s s' : Threads ι} {m : Move ι} {tx : DagTransaction}
variable {records : List DagTransaction} {F : ℕ}

/-- The vertices that are stored and not persisted. -/
def held (s : Threads ι) : List DagTransaction := s.inFlight.entries.map Sigma.snd

theorem mem_held {y : DagTransaction} : y ∈ s.held ↔ ∃ i, s.inFlight.lookup i = some y := by
  unfold held
  constructor
  · intro h
    obtain ⟨⟨i, y⟩, he, rfl⟩ := List.mem_map.1 h
    exact ⟨i, AList.mem_lookup_iff.2 he⟩
  · rintro ⟨i, h⟩
    exact List.mem_map.2 ⟨⟨i, y⟩, AList.mem_lookup_iff.1 h, rfl⟩

theorem held_hold (s : Threads ι) {i : ι} (hi : s.inFlight.lookup i = none) (dag : KronDAG)
    (tx : DagTransaction) : (s.hold dag i tx).held = tx :: s.held := by
  unfold held hold
  rw [AList.entries_insert_of_notMem (AList.lookup_eq_none.1 hi)]
  rfl

theorem perm_held_erase {i : ι} (hi : s.inFlight.lookup i = some tx) :
    (tx :: (s.inFlight.erase i).entries.map Sigma.snd).Perm s.held := by
  have hmem := AList.mem_lookup_iff.1 hi
  obtain ⟨b, l₁, l₂, -, hl, he⟩ := List.exists_of_kerase (List.mem_keys_of_mem hmem)
  have hb : b = tx := by
    have hlook : s.inFlight.lookup i = some b := AList.mem_lookup_iff.2 (by rw [hl]; simp)
    rw [hi] at hlook
    exact (Option.some.inj hlook).symm
  have herase : (s.inFlight.erase i).entries = l₁ ++ l₂ := he
  unfold held
  rw [herase, hl, hb, List.map_append, List.map_append, List.map_cons]
  exact List.perm_middle.symm

/-! ## What a step does -/

/-- Attaching that fails without an overflow changes nothing. -/
theorem attachFor_unchanged {host : Except ShieldError Unit} {device : AttachingDevice}
    {d' : KronDAG} {e : DagError} (h : d.attachAndVerifyFor P host tx device = (d', .error e))
    (hno : e ≠ .overflow) : d' = d := by
  rcases attachFor_cases (P := P) d host tx device with ⟨e', he⟩ | ⟨new, -, -, he⟩
  · rw [he] at h
    cases h
    rfl
  · rw [he] at h
    exact absurd (attached_error h) hno

/-- Attaching that does not fail stores an admitted vertex. -/
theorem attachFor_ok {host : Except ShieldError Unit} {device : AttachingDevice}
    {d' : KronDAG} (h : d.attachAndVerifyFor P host tx device = (d', .ok ())) :
    d.checkVertex P tx = .ok () ∧ d'.toGraph = d.toGraph.insertVertex tx
      ∧ d'.faucet = d.faucet := by
  rcases attachFor_cases (P := P) d host tx device with ⟨e', he⟩ | ⟨new, hcheck, -, he⟩
  · rw [he] at h
    cases h
  · rw [he] at h
    obtain ⟨hgraph, hfaucet, -⟩ := d.attached_frame tx new (tx.provenRelayNodes P)
    rw [h] at hgraph hfaucet
    exact ⟨hcheck, hgraph, hfaucet⟩

/-- The node stores the vertex, and thread `i` holds it. -/
def Stores (P : Primitives) (s : Threads ι) (i : ι) (tx : DagTransaction) (s' : Threads ι) : Prop :=
  ∃ dag : KronDAG, s.inFlight.lookup i = none ∧ s.hub.dag.checkVertex P tx = .ok ()
    ∧ dag.toGraph = s.hub.dag.toGraph.insertVertex tx ∧ dag.faucet = s.hub.dag.faucet
    ∧ s' = s.hold dag i tx

theorem cases_of_ingest {i : ι} (hm : s.move P (.ingest i tx) = some s')
    (hno : ¬ s.Overflows P (.ingest i tx)) :
    (s'.hub = s.hub ∧ s'.inFlight = s.inFlight ∧ (s'.accepted = s.accepted
      ∨ s.hub.dag.contains tx.id = true ∧ s'.accepted = s.accepted ++ [tx]))
      ∨ s.Stores P i tx s' := by
  rw [move] at hm
  rw [Overflows] at hno
  rcases hi : s.inFlight.lookup i with _ | y
  case some =>
    rw [hi] at hm
    cases hm
  rcases hacc : s.hub.dag.acceptWireVertex P tx with ⟨dag, e | ⟨⟨⟩⟩⟩
  · rw [hi, hacc] at hm
    rw [hacc] at hno
    obtain rfl := accept_unchanged hacc nofun hno
    cases hm
    exact .inl ⟨rfl, rfl, .inl rfl⟩
  · rw [hi, hacc] at hm
    obtain rfl := accept_unchanged hacc nofun nofun
    cases hm
    exact .inl ⟨rfl, rfl, .inr ⟨contains_of_accept_false hacc, rfl⟩⟩
  · rw [hi, hacc] at hm
    cases hm
    have hfaucet := faucet_accept (P := P) s.hub.dag tx
    rw [hacc] at hfaucet
    exact .inr ⟨dag, hi, (accept_ok_cases hacc).1, accept_graph hacc, hfaucet, rfl⟩

theorem cases_of_attach {i : ι} {host : Except ShieldError Unit} {device : AttachingDevice}
    (hm : s.move P (.attach i host tx device) = some s')
    (hno : ¬ s.Overflows P (.attach i host tx device)) : s' = s ∨ s.Stores P i tx s' := by
  rw [move] at hm
  rw [Overflows] at hno
  rcases hi : s.inFlight.lookup i with _ | y
  case some =>
    rw [hi] at hm
    cases hm
  rcases hatt : s.hub.dag.attachAndVerifyFor P host tx device with ⟨dag, e | ⟨⟨⟩⟩⟩
  · rw [hi, hatt] at hm
    rw [hatt] at hno
    obtain rfl := attachFor_unchanged hatt fun he => hno (he ▸ rfl)
    cases hm
    exact .inl rfl
  · rw [hi, hatt] at hm
    cases hm
    obtain ⟨hcheck, hgraph, hfaucet⟩ := attachFor_ok hatt
    exact .inr ⟨dag, hi, hcheck, hgraph, hfaucet, rfl⟩

theorem cases_of_persist {i : ι} (hm : s.move P (.persist i) = some s') :
    ∃ tx, s.inFlight.lookup i = some tx
      ∧ s' = { s with hub := s.hub.persistVertex P tx, inFlight := s.inFlight.erase i } := by
  rw [move] at hm
  rcases hi : s.inFlight.lookup i with _ | tx
  · rw [hi] at hm
    cases hm
  · rw [hi] at hm
    cases hm
    exact ⟨tx, rfl, rfl⟩

/-- Everything a step can do that does not overflow: leave the node, store a vertex, or persist
one. -/
theorem move_cases (hm : s.move P m = some s') (hno : ¬ s.Overflows P m) :
    (s'.hub = s.hub ∧ s'.inFlight = s.inFlight ∧ (∀ i, m ≠ .persist i) ∧ (s'.accepted = s.accepted
      ∨ ∃ tx, s.hub.dag.contains tx.id = true ∧ s'.accepted = s.accepted ++ [tx])) ∨
    (∃ i tx, (∀ i, m ≠ .persist i) ∧ s.Stores P i tx s') ∨
    (∃ i tx, m = .persist i ∧ s.inFlight.lookup i = some tx
      ∧ s' = { s with hub := s.hub.persistVertex P tx, inFlight := s.inFlight.erase i }) := by
  cases m with
  | ingest i tx =>
    rcases cases_of_ingest hm hno with ⟨hhub, hfl, hacc⟩ | hstores
    · exact .inl ⟨hhub, hfl, nofun, hacc.imp id fun h => ⟨tx, h⟩⟩
    · exact .inr (.inl ⟨i, tx, nofun, hstores⟩)
  | attach i host tx device =>
    rcases cases_of_attach hm hno with rfl | hstores
    · exact .inl ⟨rfl, rfl, nofun, .inl rfl⟩
    · exact .inr (.inl ⟨i, tx, nofun, hstores⟩)
  | persist i =>
    obtain ⟨tx, hi, hs⟩ := cases_of_persist hm
    exact .inr (.inr ⟨i, tx, rfl, hi, hs⟩)

/-! ## What the threads keep -/

/-- Behind the genesis vertex the node holds what is written and what the threads hold, each once;
every vertex of these is an admitted one, was accepted, and is no parent of its own. The snapshot is
that of the node when no thread holds a vertex. -/
structure Kept (P : Primitives) (d : KronDAG) (s : Threads ι) (records : List DagTransaction) :
    Prop where
  wf : s.hub.dag.toGraph.WF
  order : s.hub.dag.attachOrder.Perm
    (d.attachOrder ++ (records ++ s.held).map DagTransaction.id)
  stored : ∀ tx ∈ records ++ s.held, s.hub.dag.vertices.lookup tx.id = some tx
    ∧ tx.Sound P ∧ tx.id ∉ tx.parents ∧ tx ∈ s.accepted
  accepted : ∀ tx ∈ s.accepted, s.hub.dag.contains tx.id = true
  wal : s.hub.store.wal = records.foldl (appendWal P) none
  keeps : s.held = [] → s.hub.store.Keeps P records s.hub.dag

omit [DecidableEq ι] in
theorem kept_start (h : KronDAG.withGenesis P = some d) (credits : List (Address × UInt64)) :
    (start (ι := ι) P d credits).Kept P d [] := by
  have hcalls : ∀ tx, .ingest tx ∉ credits.map fun c => HubCall.credit c.1 c.2 := by
    intro tx hm
    obtain ⟨c, -, hc⟩ := List.mem_map.1 hm
    cases hc
  obtain ⟨new, hk, hnew⟩ := (HubState.kept_empty h).run (HubState.noOverflow_of_not_mem hcalls)
  obtain rfl : new = [] := List.eq_nil_iff_forall_not_mem.2 fun tx htx => hcalls tx (hnew tx htx)
  have hgraph : (start (ι := ι) P d credits).hub.dag.toGraph = d.toGraph := hk.graph
  refine ⟨hk.wf, ?_, ?_, ?_, hk.keeps.wal, fun _ => hk.keeps⟩
  · rw [hgraph]
    exact List.Perm.of_eq (List.append_nil _).symm
  · exact fun tx htx => absurd htx List.not_mem_nil
  · exact fun tx htx => absurd htx List.not_mem_nil

omit [DecidableEq ι] in
theorem Kept.nodup (hk : s.Kept P d records) :
    (d.attachOrder ++ (records ++ s.held).map DagTransaction.id).Nodup :=
  hk.order.nodup_iff.1 hk.wf.nodup

omit [DecidableEq ι] in
/-- What the node holds: genesis, what is written, and what the threads hold. -/
theorem Kept.contains_iff (hk : s.Kept P d records) (hg : d.toGraph.WF) {id : TxHash} :
    s.hub.dag.contains id = true
      ↔ d.contains id = true ∨ id ∈ (records ++ s.held).map DagTransaction.id := by
  unfold Graph.contains
  rw [← hk.wf.mem_order, ← hg.mem_order, hk.order.mem_iff, List.mem_append]

omit [DecidableEq ι] in
/-- What is written or held is none of genesis. -/
theorem Kept.not_contains (hk : s.Kept P d records) (hg : d.toGraph.WF)
    (htx : tx ∈ records ++ s.held) : d.contains tx.id = false := by
  rw [← Bool.not_eq_true]
  unfold Graph.contains
  rw [← hg.mem_order]
  exact fun hm => List.disjoint_of_nodup_append hk.nodup hm (List.mem_map_of_mem htx)

omit [DecidableEq ι] in
/-- What is held is not written. -/
theorem Kept.not_written (hk : s.Kept P d records) (htx : tx ∈ s.held) :
    tx.id ∉ records.map DagTransaction.id := by
  have hnd := (List.nodup_append.1 hk.nodup).2.1
  rw [List.map_append] at hnd
  exact fun hm => List.disjoint_of_nodup_append hnd hm (List.mem_map_of_mem htx)

/-- The log fits over genesis with one more vertex exactly when no parent of it is held. -/
theorem Kept.checkVertex_iff (hk : s.Kept P d records) (hg : d.toGraph.WF) {i : ι}
    (hi : s.inFlight.lookup i = some tx) :
    (records.foldl Graph.insertVertex d.toGraph).checkVertex P tx = .ok ()
      ↔ s.ParentsWritten (.persist i) := by
  have htx : tx ∈ s.held := mem_held.2 ⟨i, hi⟩
  obtain ⟨hl, hsound, hself, -⟩ := hk.stored tx (List.mem_append_right _ htx)
  constructor
  · intro hcheck tx' hi' j y hj hy hp
    rw [hi] at hi'
    cases hi'
    have hheld : y ∈ s.held := mem_held.2 ⟨j, hy⟩
    obtain ⟨⟨-, h1⟩, -, h2⟩ := Graph.checkParents_ok (Graph.checkVertex_ok hcheck).2.1
      hsound.isGenesis
    have hc : (records.foldl Graph.insertVertex d.toGraph).contains y.id = true := by
      rcases (Graph.mem_parents.1 hp).2 with he | he
      · exact he ▸ h1
      · exact he ▸ h2
    rcases (contains_foldl_insertVertex _ _).1 hc with hc | hm
    · rw [hk.not_contains hg (List.mem_append_right _ hheld)] at hc
      cases hc
    · exact hk.not_written hheld hm
  · intro hw
    refine hsound.checkVertex ?_ fun p hp => ?_
    · rw [← Bool.not_eq_true, contains_foldl_insertVertex, not_or, Bool.not_eq_true]
      exact ⟨hk.not_contains hg (List.mem_append_right _ htx), hk.not_written htx⟩
    · have hpar := hk.wf.parents hl hsound.isGenesis
      have hc : s.hub.dag.contains p = true := by
        rcases (Graph.mem_parents.1 hp).2 with rfl | rfl
        · exact hpar.1.2
        · exact hpar.2.2
      rw [contains_foldl_insertVertex]
      rcases (hk.contains_iff hg).1 hc with hc | hm
      · exact .inl hc
      rw [List.map_append, List.mem_append] at hm
      rcases hm with hm | hm
      · exact .inr hm
      · -- The parent would be held, by another thread as no vertex is its own parent.
        obtain ⟨y, hy, rfl⟩ := List.mem_map.1 hm
        obtain ⟨j, hj⟩ := mem_held.1 hy
        by_cases hij : j = i
        · subst hij
          rw [hi] at hj
          cases hj
          exact absurd hp hself
        · exact absurd hp (hw tx hi j y hij hj)

omit [DecidableEq ι] in
/-- A step that leaves the node and the vertices in flight alone, but for a vertex that is there
already. -/
theorem Kept.still (hk : s.Kept P d records) (hhub : s'.hub = s.hub)
    (hfl : s'.inFlight = s.inFlight) (hacc : s'.accepted = s.accepted
      ∨ ∃ tx, s.hub.dag.contains tx.id = true ∧ s'.accepted = s.accepted ++ [tx]) :
    s'.Kept P d records := by
  have hheld : s'.held = s.held := by
    unfold held
    rw [hfl]
  have hsub : s.accepted ⊆ s'.accepted ∧ ∀ tx ∈ s'.accepted, s.hub.dag.contains tx.id = true := by
    rcases hacc with he | ⟨tx, hc, he⟩
    · rw [he]
      exact ⟨List.Subset.refl _, hk.accepted⟩
    · rw [he]
      refine ⟨List.subset_append_left _ _, fun y hy => ?_⟩
      rcases List.mem_append.1 hy with hy | hy
      · exact hk.accepted y hy
      · rwa [List.mem_singleton.1 hy]
  refine ⟨hhub ▸ hk.wf, ?_, fun tx htx => ?_, ?_, hhub ▸ hk.wal, ?_⟩
  · rw [hhub, hheld]
    exact hk.order
  · rw [hheld] at htx
    obtain ⟨hl, hsound, hself, hmem⟩ := hk.stored tx htx
    exact ⟨hhub ▸ hl, hsound, hself, hsub.1 hmem⟩
  · rw [hhub]
    exact hsub.2
  · rw [hhub, hheld]
    exact hk.keeps

/-- A vertex that passes the checks, stored and held to be written. -/
theorem Kept.hold (hk : s.Kept P d records) {i : ι} {dag : KronDAG} {tx : DagTransaction}
    (hi : s.inFlight.lookup i = none) (hcheck : s.hub.dag.checkVertex P tx = .ok ())
    (hgraph : dag.toGraph = s.hub.dag.toGraph.insertVertex tx) :
    (s.hold dag i tx).Kept P d records := by
  have hheld := s.held_hold hi dag tx
  have hsound := hk.wf.sound hcheck
  have hperm : (records ++ (s.hold dag i tx).held).Perm (tx :: (records ++ s.held)) := by
    rw [hheld]
    exact List.perm_middle
  have hcontains : ∀ id, s.hub.dag.contains id = true → dag.contains id = true := by
    intro id hc
    rw [hgraph, Graph.contains_insertVertex, hc, Bool.or_true]
  refine ⟨?_, ?_, fun y hy => ?_, fun y hy => ?_, hk.wal, fun he => ?_⟩
  · change dag.toGraph.WF
    exact hgraph.symm ▸ hk.wf.insertVertex hcheck
  · change dag.attachOrder.Perm _
    rw [hgraph, Graph.insertVertex_attachOrder]
    refine (hk.order.append_right [tx.id]).trans ?_
    rw [List.append_assoc]
    refine List.Perm.append_left _ ?_
    exact List.perm_append_comm.trans (hperm.map DagTransaction.id).symm
  · change dag.vertices.lookup y.id = some y ∧ _
    rw [hgraph]
    rcases List.mem_cons.1 (hperm.mem_iff.1 hy) with rfl | hy
    · rw [Graph.lookup_insertVertex, if_pos rfl]
      exact ⟨rfl, hsound.1, hsound.2, List.mem_append_right _ List.mem_cons_self⟩
    · obtain ⟨hl, hs, hself, hmem⟩ := hk.stored y hy
      exact ⟨Graph.lookup_insertVertex_of_lookup hcheck hl, hs, hself,
        List.mem_append_left _ hmem⟩
  · rcases List.mem_append.1 hy with hy | hy
    · exact hcontains _ (hk.accepted y hy)
    · change dag.contains y.id = true
      rw [List.mem_singleton.1 hy, hgraph, Graph.contains_insertVertex, decide_eq_true rfl,
        Bool.true_or]
  · rw [hheld] at he
    cases he

/-- A vertex in flight, once it is written. -/
theorem Kept.persist (hk : s.Kept P d records) {i : ι} {tx : DagTransaction}
    (hi : s.inFlight.lookup i = some tx) :
    Kept P d { s with hub := s.hub.persistVertex P tx, inFlight := s.inFlight.erase i }
      (records ++ [tx]) := by
  have hperm : (records ++ [tx] ++ (s.inFlight.erase i).entries.map Sigma.snd).Perm
      (records ++ s.held) := by
    rw [List.append_assoc]
    exact (perm_held_erase hi).append_left records
  have hgen := (hk.stored tx (List.mem_append_right _ (mem_held.2 ⟨i, hi⟩))).2.1.isGenesis
  have hkeeps := HubState.keeps_persistVertex (P := P) hgen hk.wal
  refine ⟨hk.wf, ?_, fun y hy => ?_, hk.accepted, hkeeps.wal, fun _ => hkeeps⟩
  · exact hk.order.trans ((hperm.map DagTransaction.id).append_left d.attachOrder).symm
  · exact hk.stored y (hperm.mem_iff.1 hy)

/-- A step that does not overflow writes no vertex, or one that fits behind the log exactly when no
other thread holds a parent of it. -/
theorem Kept.move (hk : s.Kept P d records) (hg : d.toGraph.WF) (hm : s.move P m = some s')
    (hno : ¬ s.Overflows P m) : ∃ new, s'.Kept P d (records ++ new)
      ∧ (d.toGraph.Fits P (records ++ new) ↔ d.toGraph.Fits P records ∧ s.ParentsWritten m) := by
  have htrivial : (∀ i, m ≠ .persist i) → s.ParentsWritten m := by
    intro hne
    rcases m with - | - | i
    · trivial
    · trivial
    · exact absurd rfl (hne i)
  rcases move_cases hm hno with ⟨hhub, hfl, hne, hacc⟩ |
    ⟨i, tx, hne, dag, hi, hcheck, hgraph, -, rfl⟩ | ⟨i, tx, rfl, hi, rfl⟩
  · refine ⟨[], ?_, by rw [List.append_nil, and_iff_left (htrivial hne)]⟩
    rw [List.append_nil]
    exact hk.still hhub hfl hacc
  · refine ⟨[], ?_, by rw [List.append_nil, and_iff_left (htrivial hne)]⟩
    rw [List.append_nil]
    exact hk.hold hi hcheck hgraph
  · exact ⟨[tx], hk.persist hi, by rw [fits_concat, hk.checkVertex_iff hg hi]⟩

theorem parentsFirst_cons {moves : List (Move ι)} (hm : s.move P m = some s') :
    s.ParentsFirst P (m :: moves) ↔ s.ParentsWritten m ∧ s'.ParentsFirst P moves := by
  rw [ParentsFirst, hm]
  simp only [Option.some.injEq, forall_eq']

/-- An interleaving writes a log that fits exactly when parents come first in it. -/
theorem Kept.runs (hg : d.toGraph.WF) : ∀ {moves : List (Move ι)} {s : Threads ι}
    {records : List DagTransaction}, s.Kept P d records → s.Runs P moves s' →
    ∃ new, s'.Kept P d (records ++ new)
      ∧ (d.toGraph.Fits P (records ++ new) ↔ d.toGraph.Fits P records ∧ s.ParentsFirst P moves)
  | [], s, records, hk, hr => by
    obtain rfl : s' = s := hr
    refine ⟨[], ?_, ?_⟩
    · rwa [List.append_nil]
    · rw [List.append_nil]
      exact (and_iff_left trivial).symm
  | m :: moves, s, records, hk, ⟨hno, s₁, hm, hr⟩ => by
    obtain ⟨new, hk₁, hiff⟩ := hk.move hg hm hno
    obtain ⟨new', hk', hiff'⟩ := hk₁.runs hg hr
    refine ⟨new ++ new', by rwa [← List.append_assoc], ?_⟩
    rw [← List.append_assoc, hiff', hiff, parentsFirst_cons hm, and_assoc]

/-- The threads credit nothing. -/
theorem Runs.faucet : ∀ {moves : List (Move ι)} {s : Threads ι}, s.Runs P moves s' →
    s'.hub.dag.faucet = s.hub.dag.faucet
  | [], s, hr => by
    obtain rfl : s' = s := hr
    rfl
  | m :: moves, s, ⟨hno, s₁, hm, hr⟩ => by
    rw [Runs.faucet hr]
    rcases move_cases hm hno with ⟨hhub, -⟩ | ⟨i, tx, -, dag, -, -, -, hf, rfl⟩ |
      ⟨i, tx, -, -, rfl⟩
    · rw [hhub]
    · exact hf
    · rfl

omit [DecidableEq ι] in
theorem faucetTotal_start (h : KronDAG.withGenesis P = some d)
    (credits : List (Address × UInt64)) :
    (start (ι := ι) P d credits).hub.dag.faucetTotal ≤ credited (creditOps credits) := by
  have hdag : (start (ι := ι) P d credits).hub.dag = run P d (creditOps credits) := by
    change (HubState.run P ⟨d, .empty⟩ _).dag = _
    rw [HubState.run_dag, List.map_map]
    rfl
  have hle := faucetTotal_run (P := P) (d := d) (creditOps credits)
  rwa [faucetTotal_withGenesis h, Nat.zero_add, ← hdag] at hle

omit [DecidableEq ι] in
/-- When no thread holds a vertex, a boot gives back what was accepted exactly when the log fits
and is clear. -/
theorem Kept.load_iff (hk : s.Kept P d records) (h : KronDAG.withGenesis P = some d)
    (hheld : s.held = []) (hlog : ∀ tx ∈ records, Logged P tx)
    (hroom : Ledger.Room s.hub.dag.faucetTotal (d.vertexCount + records.length))
    (hsize : (encodeSnapshot (.fromDag s.hub.dag)).length < 2 ^ 32) :
    (∃ d' snap, s.hub.store.load P = .ok (d', snap) ∧ ∀ tx ∈ s.accepted, d'.contains tx.id = true)
      ↔ d.toGraph.Fits P records ∧ Clear P (creditFaucet d s.hub.dag.faucet) records := by
  have hg := Graph.WF_withGenesis h
  have hkeeps := hk.keeps hheld
  constructor
  · rintro ⟨d', snap, hload, hall⟩
    -- What the boot holds at the end its replay has stored, so the replay passed over nothing.
    have hword : ∀ a, s.hub.dag.faucet.get a ≤ u64Max := fun a =>
      (Tally.get_le_total _ a).trans ((Nat.le_add_right _ _).trans hroom.faucet)
    obtain ⟨snap', hsnap, hcredit⟩ := hkeeps.snapshots hword hsize d
    have hwal : readWal P s.hub.store.wal = .ok records := hk.wal ▸ readWal_foldl hlog
    obtain ⟨-, d₁, hreplay, hres⟩ := (load_eq_ok_iff h hsnap hwal).1 hload
    have hframe := (d₁.resolve_frame (P := P)).1
    rw [hres] at hframe
    have hgraph := creditFaucet_toGraph d s.hub.dag.faucet
    have hnd := (List.nodup_append.1 hk.nodup).2.1
    rw [hheld, List.append_nil] at hnd
    have hnew : ∀ tx ∈ records, (creditFaucet d s.hub.dag.faucet).contains tx.id = false := by
      intro tx htx
      rw [hgraph]
      exact hk.not_contains hg (List.mem_append_left _ htx)
    have hstored : ∀ tx ∈ records, d₁.contains tx.id = true := by
      intro tx htx
      rw [← hframe]
      exact hall tx (hk.stored tx (List.mem_append_left _ htx)).2.2.2
    have hfit := fits_of_replayWal hnd hnew (hcredit ▸ hreplay) hstored
    rw [hgraph] at hfit
    exact ⟨hfit, (load_isOk_iff h hkeeps hlog hsize hroom hfit).1.1 ⟨d', snap, hload⟩⟩
  · rintro ⟨hfit, hclear⟩
    obtain ⟨hiff, hfold⟩ := load_isOk_iff h hkeeps hlog hsize hroom hfit
    obtain ⟨d', snap, hload⟩ := hiff.2 hclear
    refine ⟨d', snap, hload, fun tx htx => ?_⟩
    rw [hfold d' snap hload, contains_foldl_insertVertex]
    have hc := (hk.contains_iff hg).1 (hk.accepted tx htx)
    rwa [hheld, List.append_nil] at hc

omit [DecidableEq ι] in
/-- The room of what is written, when no thread holds a vertex. -/
theorem Kept.room (hk : s.Kept P d records) (hg : d.toGraph.WF) (hheld : s.held = [])
    (hroom : s.hub.dag.HasRoom) :
    Ledger.Room s.hub.dag.faucetTotal (d.vertexCount + records.length) := by
  have hlen := hk.order.length_eq
  rw [hk.wf.length, List.length_append, hg.length, hheld, List.append_nil, List.length_map] at hlen
  exact ⟨hroom.faucet, hlen ▸ hroom.vertices⟩

/-- Threads that share a hub take in vertices in any interleaving, without an overflow and with all
credits in front, and have all returned. Within room, and with the files within reach of their
length fields, a boot from what they have written gives back every vertex that was accepted exactly
when no vertex was persisted while another thread held a parent of it and no vertex of the log that
exceeds a word is due on the way; the latter always when no vertex exceeds a word. How the boot
draws its signature of genesis makes no difference. -/
theorem durable_iff (h : KronDAG.withGenesis P = some d) (credits : List (Address × UInt64))
    {moves : List (Move ι)} (hruns : (start P d credits).Runs P moves s) (hidle : s.inFlight = ∅)
    (hlogged : ∀ tx ∈ s.accepted, Logged P tx)
    (hF : credited (creditOps credits) + hardCap ≤ u64Max)
    (hn : hardCap + fixedTransactionFee * s.hub.dag.vertexCount ≤ u64Max)
    (hsize : (encodeSnapshot (.fromDag s.hub.dag)).length < 2 ^ 32) :
    ∃ records, readWal P s.hub.store.wal = .ok records ∧
      (∀ sign d₀, KronDAG.withGenesis (P.signing sign) = some d₀ →
        ((∃ d' snap, s.hub.store.load (P.signing sign) = .ok (d', snap)
            ∧ ∀ tx ∈ s.accepted, d'.contains tx.id = true) ↔
          (start P d credits).ParentsFirst P moves
            ∧ Clear P (creditFaucet d s.hub.dag.faucet) records)) ∧
      ((∀ tx ∈ s.accepted, tx.amount.toNat + tx.fee.toNat ≤ u64Max) →
        Clear P (creditFaucet d s.hub.dag.faucet) records) := by
  have hg := Graph.WF_withGenesis h
  obtain ⟨records, hk, hfits⟩ := (kept_start h credits).runs hg hruns
  rw [List.nil_append] at hk hfits
  have hheld : s.held = [] := by
    unfold held
    rw [hidle]
    rfl
  have hmem : ∀ tx ∈ records, tx ∈ s.accepted := fun tx htx =>
    (hk.stored tx (List.mem_append_left _ htx)).2.2.2
  have hlog : ∀ tx ∈ records, Logged P tx := fun tx htx => hlogged tx (hmem tx htx)
  have hroom : s.hub.dag.HasRoom := by
    have hle := faucetTotal_start (ι := ι) h credits
    refine ⟨?_, hn⟩
    unfold KronDAG.faucetTotal at hle ⊢
    rw [hruns.faucet]
    exact (Nat.add_le_add_right hle _).trans hF
  have hfirst : d.toGraph.Fits P records ↔ (start P d credits).ParentsFirst P moves :=
    hfits.trans (and_iff_right trivial)
  refine ⟨records, hk.wal ▸ readWal_foldl hlog, fun sign d₀ h₀ => ?_, fun hcost => ?_⟩
  · rw [load_signing_iff h h₀ s.hub.store fun held => ∀ tx ∈ s.accepted, held tx.id = true,
      hk.load_iff h hheld hlog (hk.room hg hheld hroom) hsize, hfirst]
  · refine clear_of_cost records (fun id tx hl => ?_) fun tx htx => hcost tx (hmem tx htx)
    rw [creditFaucet_toGraph] at hl
    exact cost_withGenesis h hl

/-! ## A child that overtakes its parent -/

section Examples

open StandIn

theorem move_ingest {i : ι} {dag : KronDAG} (hi : s.inFlight.lookup i = none)
    (hacc : s.hub.dag.acceptWireVertex P tx = (dag, .ok true)) :
    s.move P (.ingest i tx) = some (s.hold dag i tx) ∧ ¬ s.Overflows P (.ingest i tx) := by
  rw [move, hi, hacc, Overflows, hacc]
  exact ⟨rfl, nofun⟩

theorem move_persist {i : ι} (hi : s.inFlight.lookup i = some tx) :
    s.move P (.persist i)
      = some { s with hub := s.hub.persistVertex P tx, inFlight := s.inFlight.erase i } := by
  rw [move, hi]

/-- A thread has stored the first transfer. -/
def firstHeld : Threads Bool :=
  (start primitives genesisDag []).hold (acceptAdmitted genesisDag firstTransfer).1 false
    firstTransfer

/-- And another one its child. -/
def bothHeld : Threads Bool :=
  firstHeld.hold (acceptAll genesisDag [firstTransfer, orphanTransfer]) true orphanTransfer

/-- The vertex of either thread. -/
def raced (i : Bool) : DagTransaction := if i then orphanTransfer else firstTransfer

/-- The threads persist their vertices, that of `i` in front. -/
def raceMoves (i : Bool) : List (Move Bool) :=
  [.ingest false firstTransfer, .ingest true orphanTransfer, .persist i, .persist !i]

def onePersisted (i : Bool) : Threads Bool :=
  { bothHeld with
    hub := bothHeld.hub.persistVertex primitives (raced i)
    inFlight := bothHeld.inFlight.erase i }

def bothPersisted (i : Bool) : Threads Bool :=
  { onePersisted i with
    hub := (onePersisted i).hub.persistVertex primitives (raced !i)
    inFlight := (onePersisted i).inFlight.erase !i }

theorem move_first : (start primitives genesisDag []).move primitives (.ingest false firstTransfer)
      = some firstHeld
    ∧ ¬ (start primitives genesisDag []).Overflows primitives
      (.ingest (false : Bool) firstTransfer) := by
  have hacc : genesisDag.acceptWireVertex primitives firstTransfer
      = ((acceptAdmitted genesisDag firstTransfer).1, .ok true) :=
    (accept_transfer (by decide)).trans (Prod.ext rfl (by decide))
  exact move_ingest rfl hacc

theorem move_both : firstHeld.move primitives (.ingest true orphanTransfer) = some bothHeld
    ∧ ¬ firstHeld.Overflows primitives (.ingest true orphanTransfer) := by
  have hacc : (acceptAdmitted genesisDag firstTransfer).1.acceptWireVertex primitives
      orphanTransfer = (acceptAll genesisDag [firstTransfer, orphanTransfer], .ok true) :=
    (accept_transfer (by decide)).trans (Prod.ext rfl (by decide))
  exact move_ingest rfl hacc

theorem move_one (i : Bool) : bothHeld.move primitives (.persist i) = some (onePersisted i) :=
  move_persist (by cases i <;> rfl)

theorem move_other (i : Bool) :
    (onePersisted i).move primitives (.persist !i) = some (bothPersisted i) :=
  move_persist (by cases i <;> rfl)

theorem runs_race (i : Bool) :
    (start primitives genesisDag []).Runs primitives (raceMoves i) (bothPersisted i) :=
  ⟨move_first.2, _, move_first.1, move_both.2, _, move_both.1, id, _, move_one i, id, _,
    move_other i, rfl⟩

theorem parentsFirst_race (i : Bool) :
    (start primitives genesisDag []).ParentsFirst primitives (raceMoves i) ↔ i = false := by
  rw [raceMoves, parentsFirst_cons move_first.1, parentsFirst_cons move_both.1,
    parentsFirst_cons (move_one i), parentsFirst_cons (move_other i)]
  rcases i
  · refine iff_of_true ⟨trivial, trivial, fun tx htx j y hj hy => ?_, fun tx htx j y hj hy => ?_,
      trivial⟩ rfl
    · change some firstTransfer = some tx at htx
      obtain rfl : j = true := by simpa using hj
      change some orphanTransfer = some y at hy
      cases htx
      cases hy
      decide
    · obtain rfl : j = false := by simpa using hj
      cases hy
  · refine iff_of_false (fun h => ?_) nofun
    have hpar := h.2.2.1 orphanTransfer rfl false firstTransfer nofun rfl
    exact hpar (by decide)

theorem inFlight_bothPersisted (i : Bool) : (bothPersisted i).inFlight = ∅ := by
  rcases i <;> exact AList.ext rfl

theorem logged_bothPersisted (i : Bool) : ∀ tx ∈ (bothPersisted i).accepted,
    Logged primitives tx := by
  change ∀ tx ∈ [firstTransfer, orphanTransfer], Logged primitives tx
  simpa using ⟨logged_transfer id_firstTransfer,
    logged_transfer id_orphanTransfer⟩

theorem dag_bothPersisted (i : Bool) :
    (bothPersisted i).hub.dag = acceptAll genesisDag [firstTransfer, orphanTransfer] := rfl

theorem hasRoom_bothPersisted (i : Bool) : (bothPersisted i).hub.dag.HasRoom
    ∧ (encodeSnapshot (.fromDag (bothPersisted i).hub.dag)).length < 2 ^ 32 := by
  rw [length_encodeSnapshot, dag_bothPersisted]
  exact ⟨⟨by decide, by decide⟩, by decide⟩

theorem durable_iff_race : ∃ d' snap,
    (bothPersisted false).hub.store.load primitives = .ok (d', snap)
      ∧ ∀ tx ∈ [firstTransfer, orphanTransfer], d'.contains tx.id = true := by
  obtain ⟨hroom, hsize⟩ := hasRoom_bothPersisted false
  obtain ⟨records, -, hiff, hclear⟩ := durable_iff withGenesis_genesisDag [] (runs_race false)
    (inFlight_bothPersisted false) (logged_bothPersisted false) (by decide) hroom.vertices hsize
  refine (hiff primitives.trySign genesisDag withGenesis_genesisDag).2
    ⟨(parentsFirst_race false).2 rfl, hclear ?_⟩
  change ∀ tx ∈ [firstTransfer, orphanTransfer], tx.amount.toNat + tx.fee.toNat ≤ u64Max
  decide

/-- The child is written in front of its parent, and the boot passes over it. -/
theorem child_before_parent_is_lost :
    ¬ ∀ (moves : List (Move Bool)) (s : Threads Bool),
      (start primitives genesisDag []).Runs primitives moves s → s.inFlight = ∅ →
      (∀ tx ∈ s.accepted, Logged primitives tx) →
      ∃ d' snap, s.hub.store.load primitives = .ok (d', snap)
        ∧ ∀ tx ∈ s.accepted, d'.contains tx.id = true := by
  intro hall
  have hload := hall _ _ (runs_race true) (inFlight_bothPersisted true) (logged_bothPersisted true)
  have hg := Graph.WF_withGenesis withGenesis_genesisDag
  obtain ⟨records, hk, hfits⟩ := (kept_start withGenesis_genesisDag []).runs hg (runs_race true)
  rw [List.nil_append] at hk hfits
  have hheld : (bothPersisted true).held = [] := by
    unfold held
    rw [inFlight_bothPersisted]
    rfl
  obtain ⟨hroom, hsize⟩ := hasRoom_bothPersisted true
  have hlog : ∀ tx ∈ records, Logged primitives tx := fun tx htx =>
    logged_bothPersisted true tx (hk.stored tx (List.mem_append_left _ htx)).2.2.2
  have hfit := ((hk.load_iff withGenesis_genesisDag hheld hlog (hk.room hg hheld hroom) hsize).1
    hload).1
  exact absurd ((parentsFirst_race true).1 (hfits.1 hfit).2) (by decide)

end Examples

end Threads

end KronMesh
