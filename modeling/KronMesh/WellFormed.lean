import KronMesh.Run

/-!
# What every stored vertex keeps

The attach order lists the stored vertices, each once, under their ids; each pays its fee and has
its parents stored; the genesis vertex is the only one that names no parent. And no conflict is
recorded of a vertex that is not stored.
-/

namespace KronMesh

open Word Outcome

/-- The invariant of the graph. -/
structure Graph.WF (g : Graph) : Prop where
  nodup : g.attachOrder.Nodup
  length : g.attachOrder.length = g.vertices.entries.length
  mem_order : ∀ id, id ∈ g.attachOrder ↔ (g.vertices.lookup id).isSome
  id_eq : ∀ {id tx}, g.vertices.lookup id = some tx → tx.id = id
  fee : ∀ {id tx}, g.vertices.lookup id = some tx → tx.fee.toNat = tx.requiredFee
  parents : ∀ {id tx}, g.vertices.lookup id = some tx → tx.isGenesis = false →
    (tx.parent1 ≠ nullParent ∧ g.contains tx.parent1 = true)
      ∧ tx.parent2 ≠ nullParent ∧ g.contains tx.parent2 = true
  genesis : ∃ gid, g.genesisId = some gid ∧ (g.vertices.lookup gid).isSome
    ∧ ∀ {id tx}, g.vertices.lookup id = some tx → (tx.isGenesis = true ↔ id = gid)

/-- The invariant of a node. -/
structure KronDAG.WF (d : KronDAG) : Prop where
  graph : d.toGraph.WF
  conflicts : ∀ {id}, d.isConflict id = true → d.contains id = true

/-- What is not stored is no conflict. -/
theorem KronDAG.WF.isConflict_of_not_contains {d : KronDAG} (hd : d.WF) {id : TxHash}
    (h : d.contains id = false) : d.isConflict id = false := by
  rw [← Bool.not_eq_true]
  intro hc
  rw [hd.conflicts hc] at h
  cases h

namespace Graph

variable {P : Primitives} {g : Graph} {tx : DagTransaction}

theorem contains_iff {id : TxHash} :
    g.contains id = true ↔ ∃ tx, g.vertices.lookup id = some tx := by
  unfold contains
  rw [Option.isSome_iff_exists]

theorem lookup_insertVertex (id : TxHash) :
    (g.insertVertex tx).vertices.lookup id
      = if id = tx.id then some tx else g.vertices.lookup id := by
  rw [insertVertex_vertices]
  split_ifs with h
  · rw [h, AList.lookup_insert]
  · rw [AList.lookup_insert_ne h]

/-- What is found behind an insertion: the vertex itself, or another one that was there. -/
theorem lookup_insertVertex_cases {id : TxHash} {x : DagTransaction}
    (h : (g.insertVertex tx).vertices.lookup id = some x) :
    id = tx.id ∧ x = tx ∨ id ≠ tx.id ∧ g.vertices.lookup id = some x := by
  rw [lookup_insertVertex] at h
  split_ifs at h with hid
  · exact .inl ⟨hid, (Option.some.inj h).symm⟩
  · exact .inr ⟨hid, h⟩

theorem lookup_insertVertex_empty {id : TxHash} {x : DagTransaction}
    (h : (empty.insertVertex tx).vertices.lookup id = some x) : id = tx.id ∧ x = tx :=
  (lookup_insertVertex_cases h).resolve_right fun h => nomatch h.2

/-- An admitted vertex hides none that is stored. -/
theorem lookup_insertVertex_of_lookup (h : g.checkVertex P tx = .ok ()) {id : TxHash}
    {x : DagTransaction} (hl : g.vertices.lookup id = some x) :
    (g.insertVertex tx).vertices.lookup id = some x := by
  rw [lookup_insertVertex, if_neg, hl]
  rintro rfl
  rw [(checkVertex_ok h).1] at hl
  cases hl

theorem contains_insertVertex (id : TxHash) :
    (g.insertVertex tx).contains id = (decide (id = tx.id) || g.contains id) := by
  unfold contains
  rw [lookup_insertVertex]
  split_ifs with h <;> simp [h]

theorem WF.mem_attachOrder (hg : g.WF) {id : TxHash} (hl : g.vertices.lookup id = some tx) :
    id ∈ g.attachOrder :=
  (hg.mem_order id).2 (by rw [hl]; rfl)

/-- A stored vertex has its place in the order. -/
theorem WF.split_order (hg : g.WF) {id : TxHash} (hl : g.vertices.lookup id = some tx) :
    ∃ pre post, g.attachOrder = pre ++ id :: post :=
  List.append_of_mem (hg.mem_attachOrder hl)

/-- The order lists the stored vertices. -/
theorem WF.order_perm (hg : g.WF) : g.attachOrder.Perm (g.vertices.entries.map Sigma.fst) := by
  refine (List.perm_ext_iff_of_nodup hg.nodup g.vertices.nodupKeys).2 fun id => ?_
  rw [hg.mem_order, AList.lookup_isSome]
  rfl

/-- A new vertex is one more. -/
theorem length_entries_insertVertex (h : g.vertices.lookup tx.id = none) :
    (g.insertVertex tx).vertices.entries.length = g.vertices.entries.length + 1 := by
  rw [insertVertex_vertices, AList.entries_insert_of_notMem (AList.lookup_eq_none.1 h)]
  rfl

/-- A vertex that names no parent is not admitted to a graph with a vertex in it. -/
theorem WF.not_isGenesis (hg : g.WF) (h : g.checkVertex P tx = .ok ()) : tx.isGenesis = false := by
  rw [Bool.eq_false_iff]
  intro hgen
  have hempty := checkParents_genesis (checkVertex_ok h).2.1 hgen
  obtain ⟨gid, -, hs, -⟩ := hg.genesis
  have hnone : g.vertices.lookup gid = none := by
    unfold AList.lookup
    rw [hempty]
    rfl
  rw [hnone] at hs
  cases hs

/-- An admitted vertex put into the graph keeps the invariant. -/
theorem WF.insertVertex (hg : g.WF) (h : g.checkVertex P tx = .ok ()) : (g.insertVertex tx).WF := by
  have hgen := hg.not_isGenesis h
  obtain ⟨hnew, hpar, hfee, -, -⟩ := checkVertex_ok h
  have hmono : ∀ {id}, g.contains id = true → (g.insertVertex tx).contains id = true := by
    intro id hc
    rw [contains_insertVertex, hc, Bool.or_true]
  refine ⟨?_, ?_, fun id => ?_, fun {id tx'} hl => ?_, fun {id tx'} hl => ?_,
    fun {id tx'} hl hng => ?_, ?_⟩
  · rw [insertVertex_attachOrder, List.nodup_append]
    refine ⟨hg.nodup, List.nodup_singleton _, ?_⟩
    rintro a ha b hb rfl
    rw [List.mem_singleton] at hb
    have := (hg.mem_order a).1 ha
    rw [hb, hnew] at this
    cases this
  · rw [length_entries_insertVertex hnew, insertVertex_attachOrder, List.length_append, hg.length]
    rfl
  · rw [insertVertex_attachOrder, List.mem_append, List.mem_singleton, hg.mem_order,
      lookup_insertVertex]
    split_ifs with hid <;> simp [hid]
  · rcases lookup_insertVertex_cases hl with ⟨rfl, rfl⟩ | ⟨-, hl⟩
    · rfl
    · exact hg.id_eq hl
  · rcases lookup_insertVertex_cases hl with ⟨rfl, rfl⟩ | ⟨-, hl⟩
    · exact hfee
    · exact hg.fee hl
  · rcases lookup_insertVertex_cases hl with ⟨rfl, rfl⟩ | ⟨-, hl⟩
    · obtain ⟨⟨h1, h2⟩, h3, h4⟩ := checkParents_ok hpar hng
      exact ⟨⟨h1, hmono h2⟩, h3, hmono h4⟩
    · obtain ⟨⟨h1, h2⟩, h3, h4⟩ := hg.parents hl hng
      exact ⟨⟨h1, hmono h2⟩, h3, hmono h4⟩
  · obtain ⟨gid, hid, hs, hall⟩ := hg.genesis
    refine ⟨gid, ?_, hmono hs, fun {id tx'} hl => ?_⟩
    · rw [insertVertex_genesisId, hgen]
      exact hid
    · rcases lookup_insertVertex_cases hl with ⟨rfl, rfl⟩ | ⟨-, hl⟩
      · rw [hgen]
        constructor
        · intro hf
          cases hf
        · rintro rfl
          rw [hnew] at hs
          cases hs
      · exact hall hl

/-! ## The order of a graph that grows -/

theorem mem_transactionsInOrder (hg : g.WF) :
    tx ∈ g.transactionsInOrder ↔ g.vertices.lookup tx.id = some tx := by
  unfold transactionsInOrder
  rw [List.mem_filterMap]
  constructor
  · rintro ⟨id, -, hl⟩
    rwa [hg.id_eq hl]
  · intro hl
    exact ⟨tx.id, hg.mem_attachOrder hl, hl⟩

theorem length_transactionsInOrder (hg : g.WF) :
    g.transactionsInOrder.length = g.vertices.entries.length := by
  rw [← hg.length, transactionsInOrder, List.filterMap_length_eq_length]
  exact fun id hid => (hg.mem_order id).1 hid

theorem transactionsInOrder_insertVertex (hg : g.WF) (h : g.vertices.lookup tx.id = none) :
    (g.insertVertex tx).transactionsInOrder = g.transactionsInOrder ++ [tx] := by
  unfold transactionsInOrder
  rw [insertVertex_attachOrder, List.filterMap_append]
  congr 1
  · refine List.filterMap_congr fun id hid => ?_
    rw [lookup_insertVertex, if_neg]
    rintro rfl
    have hs := (hg.mem_order tx.id).1 hid
    rw [h] at hs
    cases hs
  · simp

end Graph

namespace KronDAG

variable {P : Primitives} {d d' : KronDAG} {tx : DagTransaction}

/-- Attaching moves the graph by the vertex and leaves faucet and conflicts alone. -/
theorem attached_frame (d : KronDAG) (tx : DagTransaction) (new : ℕ × ℕ) (relays : List Address) :
    (d.attached tx new relays).1.toGraph = d.toGraph.insertVertex tx
      ∧ (d.attached tx new relays).1.faucet = d.faucet
      ∧ (d.attached tx new relays).1.conflicts = d.conflicts := by
  unfold attached onLedger
  simp only []
  split_ifs <;> exact ⟨rfl, rfl, rfl⟩

/-- A credit leaves the graph and the conflicts alone. -/
theorem creditAccount_frame (d : KronDAG) (a : Address) (n : ℕ) :
    (d.creditAccount a n).toGraph = d.toGraph ∧ (d.creditAccount a n).conflicts = d.conflicts := by
  unfold creditAccount
  split_ifs <;> exact ⟨rfl, rfl⟩

/-- A rebuild leaves the graph and the faucet alone. -/
theorem resolve_frame (d : KronDAG) :
    (d.resolveConflictsAndRebuildLedger P).1.toGraph = d.toGraph
      ∧ (d.resolveConflictsAndRebuildLedger P).1.faucet = d.faucet := by
  unfold resolveConflictsAndRebuildLedger
  simp only []
  rcases replayLoop P d.vertices d.winnerOf d.baseline [] d.attachOrder with ⟨l, e | extra⟩ <;>
    exact ⟨rfl, rfl⟩

/-- The ledger of a rebuild is the one its replay ends with, whether it goes through or not. -/
theorem resolve_toLedger (d : KronDAG) :
    (d.resolveConflictsAndRebuildLedger P).1.toLedger
      = (replayLoop P d.vertices d.winnerOf d.baseline [] d.attachOrder).1 := by
  unfold resolveConflictsAndRebuildLedger
  simp only []
  rcases replayLoop P d.vertices d.winnerOf d.baseline [] d.attachOrder with ⟨l, e | extra⟩
  · rfl
  · rfl

/-- A step adds at most one vertex to the graph, an admitted one. -/
theorem step_graph (h : Step P d d') :
    d'.toGraph = d.toGraph
      ∨ ∃ tx, d.checkVertex P tx = .ok () ∧ d'.toGraph = d.toGraph.insertVertex tx := by
  cases h with
  | attach tx new ha hs => exact .inr ⟨tx, ha, (d.attached_frame tx new _).1⟩
  | store tx relayOf ha => exact .inr ⟨tx, ha, rfl⟩
  | rebuild => exact .inl d.resolve_frame.1

/-- The graph's invariant holds after every step. -/
theorem step_graphWF (hd : d.toGraph.WF) (h : Step P d d') : d'.toGraph.WF := by
  rcases step_graph h with he | ⟨tx, ha, he⟩
  · rwa [he]
  · rw [he]
    exact hd.insertVertex ha

/-- What every admitted vertex keeps of the graph, every run keeps. -/
theorem graph_run (Inv : Graph → Prop)
    (hinsert : ∀ g tx, Inv g → g.checkVertex P tx = .ok () → Inv (g.insertVertex tx))
    (ops : List Op) (h : Inv d.toGraph) : Inv (run P d ops).toGraph := by
  refine run_invariant (P := P) (fun d => Inv d.toGraph) (fun d a n hd => ?_)
    (fun d d' hs hd => ?_) ops h
  · rwa [(d.creditAccount_frame a n.toNat).1]
  · rcases step_graph hs with he | ⟨tx, hcheck, he⟩
    · rwa [he]
    · rw [he]
      exact hinsert _ _ hd hcheck

end KronDAG

theorem Graph.WF_withGenesis {P : Primitives} {d : KronDAG} (h : KronDAG.withGenesis P = some d) :
    d.toGraph.WF := by
  obtain ⟨g, -, hgen, ha, rfl⟩ := withGenesis_eq h
  have hfee := (Graph.checkVertex_ok ha).2.2.1
  have hl : ∀ {id tx}, (Graph.empty.insertVertex g).vertices.lookup id = some tx →
      id = g.id ∧ tx = g := Graph.lookup_insertVertex_empty
  refine ⟨?_, ?_, fun id => ?_, fun {id tx} h => ?_, fun {id tx} h => ?_,
    fun {id tx} h hng => ?_, g.id, ?_, ?_, fun {id tx} h => ?_⟩
  · rw [Graph.insertVertex_attachOrder]
    exact List.nodup_singleton _
  · rw [Graph.length_entries_insertVertex rfl, Graph.insertVertex_attachOrder]
    rfl
  · rw [Graph.insertVertex_attachOrder, Graph.lookup_insertVertex]
    split_ifs with hid
    · simp [Graph.empty, hid]
    · simp [Graph.empty, hid]
  · obtain ⟨rfl, rfl⟩ := hl h
    rfl
  · obtain ⟨rfl, rfl⟩ := hl h
    exact hfee
  · obtain ⟨rfl, rfl⟩ := hl h
    rw [hgen] at hng
    cases hng
  · rw [Graph.insertVertex_genesisId, if_pos hgen]
  · rw [Graph.lookup_insertVertex, if_pos rfl]
    rfl
  · obtain ⟨rfl, rfl⟩ := hl h
    simp [hgen]

end KronMesh
