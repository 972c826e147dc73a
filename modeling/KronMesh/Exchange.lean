import KronMesh.Reconcile
import KronMesh.Topo

/-!
# One offline round

The bodies that one node needs of another go in whole when every parent of theirs is stored or
needed as well, and else none does. No closure of the other side being cut, everything the node
lacks is needed, and the round ends in the union of the two.
-/

namespace KronMesh

open Word Outcome Wire

/-! ## Graphs from one genesis -/

/-- A graph grown from `start` by admitted vertices. -/
structure Graph.Grown (P : Primitives) (g start : Graph) : Prop where
  wf : g.WF
  indexed : g.Indexed
  tips_nodup : g.tips.Nodup
  genesisId : g.genesisId = start.genesisId
  verified : ∀ {id tx}, g.vertices.lookup id = some tx →
    tx.verifySignature P = true ∧ tx.verifyRelayProofs P = true

section Grown

variable {P : Primitives} {start g : Graph} {d : KronDAG} {tx : DagTransaction}

theorem Graph.Grown.insertVertex (h : g.Grown P start) (hcheck : g.checkVertex P tx = .ok ()) :
    (g.insertVertex tx).Grown P start := by
  obtain ⟨-, -, -, hsig, hrel⟩ := checkVertex_ok hcheck
  refine ⟨h.wf.insertVertex hcheck, h.indexed.insertVertex h.wf hcheck,
    nodup_tips_insertVertex h.tips_nodup, ?_, fun {id y} hl => ?_⟩
  · rw [insertVertex_genesisId, h.wf.not_isGenesis hcheck]
    exact h.genesisId
  · rcases lookup_insertVertex_cases hl with ⟨-, rfl⟩ | ⟨-, hl⟩
    · exact ⟨hsig, hrel⟩
    · exact h.verified hl

theorem grown_withGenesis (h : KronDAG.withGenesis P = some d) : d.toGraph.Grown P d.toGraph := by
  have hwf := Graph.WF_withGenesis h
  have hindexed := indexed_run h []
  obtain ⟨g, -, -, hcheck, rfl⟩ := withGenesis_eq h
  refine ⟨hwf, hindexed, Graph.nodup_tips_insertVertex List.nodup_nil, rfl, fun {id tx} hl => ?_⟩
  obtain ⟨-, -, -, hsig, hrel⟩ := Graph.checkVertex_ok hcheck
  obtain ⟨-, rfl⟩ := Graph.lookup_insertVertex_empty hl
  exact ⟨hsig, hrel⟩

theorem grown_run (h : KronDAG.withGenesis P = some d) (ops : List Op) :
    (run P d ops).toGraph.Grown P d.toGraph :=
  KronDAG.graph_run (fun g => g.Grown P d.toGraph) (fun _ _ hg hcheck => hg.insertVertex hcheck)
    ops (grown_withGenesis h)

/-- Both have the genesis vertex under one id, and a vertex of another id is no genesis. -/
theorem Graph.Grown.isGenesis_iff (h : g.Grown P start) {id : TxHash}
    (hl : g.vertices.lookup id = some tx) : tx.isGenesis = true ↔ id = g.genesisIdOr := by
  obtain ⟨gid, hgid, -, hgen⟩ := h.wf.genesis
  rw [hgen hl, Graph.genesisIdOr, hgid]
  rfl

theorem Graph.Grown.contains_genesis (h : g.Grown P start) : g.contains g.genesisIdOr = true := by
  obtain ⟨gid, hgid, hs, -⟩ := h.wf.genesis
  rw [Graph.genesisIdOr, hgid]
  exact hs

theorem Graph.Grown.genesisIdOr_eq {g' : Graph} (h : g.Grown P start) (h' : g'.Grown P start) :
    g.genesisIdOr = g'.genesisIdOr := by
  rw [Graph.genesisIdOr, Graph.genesisIdOr, h.genesisId, h'.genesisId]

end Grown

/-! ## A batch of sound vertices -/

section Batch

variable {P : Primitives} {g : Graph} {tx : DagTransaction}

/-- What admission asks of a vertex beside its place in the graph. -/
structure DagTransaction.Sound (P : Primitives) (tx : DagTransaction) : Prop where
  isGenesis : tx.isGenesis = false
  fee : tx.fee.toNat = tx.requiredFee
  parents : tx.parent1 ≠ nullParent ∧ tx.parent2 ≠ nullParent
  signature : tx.verifySignature P = true
  relayProofs : tx.verifyRelayProofs P = true

theorem DagTransaction.Sound.checkVertex (h : tx.Sound P) (hnew : g.contains tx.id = false)
    (hpar : ∀ p ∈ tx.parents, g.contains p = true) : g.checkVertex P tx = .ok () := by
  have hp1 := hpar tx.parent1 (Graph.mem_parents.2 ⟨h.parents.1, .inl rfl⟩)
  have hp2 := hpar tx.parent2 (Graph.mem_parents.2 ⟨h.parents.2, .inr rfl⟩)
  have hparents : g.checkParents tx = .ok () := by
    unfold Graph.checkParents
    simp [h.isGenesis, h.parents, hp1, hp2]
  exact Graph.checkVertex_of (Graph.contains_eq_false.1 hnew) hparents h.fee h.signature
    h.relayProofs

/-- An admitted vertex behind genesis is sound, and no parent of its own. -/
theorem Graph.WF.sound (hg : g.WF) (hcheck : g.checkVertex P tx = .ok ()) :
    tx.Sound P ∧ tx.id ∉ tx.parents := by
  have hgen := hg.not_isGenesis hcheck
  obtain ⟨hnew, hpar, hfee, hsig, hrel⟩ := Graph.checkVertex_ok hcheck
  obtain ⟨⟨h1, hc1⟩, h2, hc2⟩ := Graph.checkParents_ok hpar hgen
  refine ⟨⟨hgen, hfee, ⟨h1, h2⟩, hsig, hrel⟩, fun hself => ?_⟩
  have hc := Graph.contains_eq_false.2 hnew
  rcases (Graph.mem_parents.1 hself).2 with he | he
  · rw [← he, hc1] at hc
    cases hc
  · rw [← he, hc2] at hc
    cases hc

/-- Every vertex of the list is admitted behind those before it. -/
def Graph.Fits (P : Primitives) : Graph → List DagTransaction → Prop
  | _, [] => True
  | g, tx :: txs => g.checkVertex P tx = .ok () ∧ Graph.Fits P (g.insertVertex tx) txs

theorem fits_concat : ∀ {txs : List DagTransaction} {g : Graph},
    g.Fits P (txs ++ [tx])
      ↔ g.Fits P txs ∧ (txs.foldl Graph.insertVertex g).checkVertex P tx = .ok ()
  | [], _ => by simp [Graph.Fits]
  | y :: txs, g => by
    rw [List.cons_append, Graph.Fits, Graph.Fits, fits_concat, List.foldl_cons, and_assoc]

/-- A batch that fits comes behind what was there. -/
theorem transactionsInOrder_foldl : ∀ {txs : List DagTransaction} {g : Graph}, g.WF →
    g.Fits P txs →
    (txs.foldl Graph.insertVertex g).transactionsInOrder = g.transactionsInOrder ++ txs
  | [], g, _, _ => (List.append_nil _).symm
  | tx :: txs, g, hg, ⟨hcheck, hfits⟩ => by
    rw [List.foldl_cons, transactionsInOrder_foldl (hg.insertVertex hcheck) hfits,
      Graph.transactionsInOrder_insertVertex hg (Graph.checkVertex_ok hcheck).1,
      List.append_assoc, List.singleton_append]

/-- New vertices with their parents stored or in front of them fit. -/
theorem fits_of_sound : ∀ (txs : List DagTransaction) {g : Graph}, (∀ tx ∈ txs, tx.Sound P) →
    (txs.map DagTransaction.id).Nodup → (∀ tx ∈ txs, g.contains tx.id = false) →
    (∀ {pre tx post}, txs = pre ++ tx :: post →
      ∀ p ∈ tx.parents, g.contains p = true ∨ p ∈ pre.map DagTransaction.id) →
    g.Fits P txs
  | [], _, _, _, _, _ => trivial
  | tx :: txs, g, hsound, hnd, hnew, hpar => by
    obtain ⟨hs, hsound⟩ := List.forall_mem_cons.1 hsound
    obtain ⟨hn, hnew⟩ := List.forall_mem_cons.1 hnew
    obtain ⟨hid, hnd⟩ := List.nodup_cons.1 hnd
    have hstored : ∀ p ∈ tx.parents, g.contains p = true := fun p hp =>
      (hpar (List.nil_append _).symm p hp).resolve_right List.not_mem_nil
    refine ⟨hs.checkVertex hn hstored, fits_of_sound txs hsound hnd (fun y hy => ?_)
      fun {pre y post} he p hp => ?_⟩
    · have hne : y.id ≠ tx.id := fun h => hid (h ▸ List.mem_map_of_mem hy)
      rw [Graph.contains_insertVertex, hnew y hy]
      simp [hne]
    · rw [Graph.contains_insertVertex]
      have he' : tx :: txs = (tx :: pre) ++ y :: post := congrArg (tx :: ·) he
      rcases hpar he' p hp with h | h
      · exact .inl (by rw [h, Bool.or_true])
      · rcases List.mem_cons.1 h with rfl | h
        · exact .inl (by simp)
        · exact .inr h

/-- A batch that fits goes in whole. -/
theorem goesIn_of_fits : ∀ (txs : List DagTransaction) {g : Graph}, g.Fits P txs →
    Graph.goesIn P g txs = (txs, true)
  | [], _, _ => rfl
  | tx :: txs, g, ⟨hcheck, hfits⟩ => by
    rw [Graph.goesIn_stored hcheck, goesIn_of_fits txs hfits]

/-- What is stored behind a batch: what was, and the batch. -/
theorem lookup_foldl_insertVertex (id : TxHash) : ∀ (txs : List DagTransaction) (g : Graph),
    (txs.map DagTransaction.id).Nodup → (∀ tx ∈ txs, g.contains tx.id = false) → ∀ tx,
      (txs.foldl Graph.insertVertex g).vertices.lookup id = some tx ↔
        g.vertices.lookup id = some tx ∨ tx ∈ txs ∧ tx.id = id
  | [], g, _, _, tx => by simp
  | y :: txs, g, hnd, hnew, tx => by
    obtain ⟨hn, hnew⟩ := List.forall_mem_cons.1 hnew
    obtain ⟨hid, hnd⟩ := List.nodup_cons.1 hnd
    have hnew' : ∀ z ∈ txs, (g.insertVertex y).contains z.id = false := by
      intro z hz
      have hne : z.id ≠ y.id := fun h => hid (h ▸ List.mem_map_of_mem hz)
      rw [Graph.contains_insertVertex, hnew z hz]
      simp [hne]
    rw [List.foldl_cons, lookup_foldl_insertVertex id txs _ hnd hnew', Graph.lookup_insertVertex,
      List.mem_cons]
    by_cases hy : id = y.id
    · subst hy
      rw [if_pos rfl, Graph.contains_eq_false.1 hn]
      constructor
      · rintro (h | ⟨h, hid'⟩)
        · cases h
          exact .inr ⟨.inl rfl, rfl⟩
        · exact .inr ⟨.inr h, hid'⟩
      · rintro (h | ⟨rfl | h, hid'⟩)
        · cases h
        · exact .inl rfl
        · exact .inr ⟨h, hid'⟩
    · rw [if_neg hy]
      constructor
      · rintro (h | ⟨h, hid'⟩)
        · exact .inl h
        · exact .inr ⟨.inr h, hid'⟩
      · rintro (h | ⟨rfl | h, hid'⟩)
        · exact .inl h
        · exact absurd hid'.symm hy
        · exact .inr ⟨h, hid'⟩

end Batch

/-! ## Needed bodies -/

namespace Graph

variable {P : Primitives} {start g r : Graph} {a : Address} {x : TxHash} {tx : DagTransaction}

/-- What `g` needs of `r`. -/
def lacks (g r : Graph) (a : Address) : List TxHash := collectNeed g (SyncInventory.fromDag r a)

theorem mem_lacks (hg : g.WF) : x ∈ g.lacks r a ↔
    (∃ tip ∈ r.tips, x = tip ∨ x ∈ r.parentClosure tip ∧ x ≠ r.genesisIdOr) ∧ x ≠ nullParent
      ∧ g.contains x = false := by
  unfold lacks
  rw [mem_collectNeed hg, SyncInventory.mem_tips_fromDag, SyncInventory.mem_recent_fromDag]
  constructor
  · rintro ⟨hx | ⟨⟨tip, htip, hx⟩, hgen, -⟩, hrest⟩
    · exact ⟨⟨x, hx, .inl rfl⟩, hrest⟩
    · exact ⟨⟨tip, htip, .inr ⟨hx, hgen⟩⟩, hrest⟩
  · rintro ⟨⟨tip, htip, rfl | ⟨hx, hgen⟩⟩, hrest⟩
    · exact ⟨.inl htip, hrest⟩
    · exact ⟨.inr ⟨⟨tip, htip, hx⟩, hgen, hrest.1⟩, hrest⟩

theorem nodup_lacks : (g.lacks r a).Nodup := nodup_collectNeed

/-- What is needed is stored there. -/
theorem contains_of_mem_lacks (hg : g.WF) (hr : r.WF) (hi : r.Indexed) (hx : x ∈ g.lacks r a) :
    r.contains x = true := by
  obtain ⟨⟨tip, htip, hx⟩, -⟩ := (mem_lacks hg).1 hx
  have hc := ((hi.tips tip).1 htip).1
  rcases hx with rfl | ⟨hx, -⟩
  · exact hc
  · exact hr.contains_of_approves hc (approves_of_mem_parentClosure hx)

/-- The bodies of what is needed. -/
theorem mem_bodies (hr : r.WF) : tx ∈ r.transactionsFor (g.lacks r a) ↔
    tx.id ∈ g.lacks r a ∧ r.vertices.lookup tx.id = some tx := by
  unfold transactionsFor
  rw [List.mem_filterMap]
  constructor
  · rintro ⟨id, hid, hl⟩
    obtain rfl := hr.id_eq hl
    exact ⟨hid, hl⟩
  · exact fun h => ⟨tx.id, h⟩

theorem map_id_bodies (hg : g.WF) (hr : r.WF) (hi : r.Indexed) :
    (r.transactionsFor (g.lacks r a)).map DagTransaction.id = g.lacks r a := by
  unfold transactionsFor
  rw [List.map_filterMap]
  refine (List.filterMap_congr fun x hx => ?_).trans List.filterMap_some
  obtain ⟨tx, hl⟩ := contains_iff.1 (contains_of_mem_lacks hg hr hi hx)
  rw [hl, Option.map_some, hr.id_eq hl]

/-- A vertex that is stored there and not here is sound. -/
theorem Grown.sound (hr : r.Grown P start) (hg : g.Grown P start)
    (hl : r.vertices.lookup x = some tx) (hx : g.contains x = false) : tx.Sound P := by
  have hgen : tx.isGenesis = false := by
    rw [← Bool.not_eq_true, hr.isGenesis_iff hl, hr.genesisIdOr_eq hg]
    rintro rfl
    rw [hg.contains_genesis] at hx
    cases hx
  obtain ⟨⟨h1, -⟩, h2, -⟩ := hr.wf.parents hl hgen
  obtain ⟨hsig, hrel⟩ := hr.verified hl
  exact ⟨hgen, hr.wf.fee hl, ⟨h1, h2⟩, hsig, hrel⟩

/-- Every parent of a vertex that is needed is stored here or needed. -/
def Joined (g r : Graph) (a : Address) : Prop :=
  ∀ x ∈ g.lacks r a, ∀ tx, r.vertices.lookup x = some tx →
    ∀ p ∈ tx.parents, g.contains p = true ∨ p ∈ g.lacks r a

/-- Bodies with their parents stored or among them go in whole. -/
theorem Grown.merged_of_joined (hg : g.Grown P start) (hr : r.Grown P start) (hj : g.Joined r a) :
    ∃ ordered, g.merged P (r.transactionsFor (g.lacks r a)) = (ordered, true)
      ∧ ordered.Perm (r.transactionsFor (g.lacks r a)) := by
  have hids := map_id_bodies (a := a) hg.wf hr.wf hr.indexed
  have hnd : ((r.transactionsFor (g.lacks r a)).map DagTransaction.id).Nodup := by
    rw [hids]
    exact nodup_lacks
  have hbody : ∀ tx ∈ r.transactionsFor (g.lacks r a), tx.id ∈ g.lacks r a
      ∧ r.vertices.lookup tx.id = some tx ∧ g.contains tx.id = false := by
    intro tx htx
    obtain ⟨hid, hl⟩ := (mem_bodies hr.wf).1 htx
    exact ⟨hid, hl, ((mem_lacks hg.wf).1 hid).2.2⟩
  obtain ⟨ordered, htopo, hperm, hfirst⟩ := topoOrderIncoming_ok (g := g) hnd
    (fun tx htx p hp => by
      obtain ⟨hid, hl, -⟩ := hbody tx htx
      refine (hj tx.id hid tx hl p hp).imp_right fun h => ?_
      rw [← hids] at h
      exact List.mem_map.1 h)
    fun tx htx p hp _ => hr.indexed.idxOf_lt hr.wf (hbody tx htx).2.1 hp
  refine ⟨ordered, ?_, hperm⟩
  unfold merged
  rw [htopo]
  refine goesIn_of_fits ordered (fits_of_sound ordered (fun tx htx => ?_)
    ((hperm.map _).nodup_iff.2 hnd) (fun tx htx => (hbody tx (hperm.mem_iff.1 htx)).2.2) hfirst)
  obtain ⟨-, hl, hno⟩ := hbody tx (hperm.mem_iff.1 htx)
  exact hr.sound hg hl hno

/-- Where no closure there is cut, everything lacked is needed. -/
theorem mem_lacks_of_within (hg : g.Grown P start) (hr : r.Grown P start)
    (hnull : ∀ x, r.contains x = true → x ≠ nullParent)
    (hb : ∀ tip ∈ r.tips, r.ClosureWithin ancestorWalkBound tip) :
    x ∈ g.lacks r a ↔ r.contains x = true ∧ g.contains x = false := by
  refine ⟨fun hx => ⟨contains_of_mem_lacks hg.wf hr.wf hr.indexed hx,
    ((mem_lacks hg.wf).1 hx).2.2⟩, fun ⟨hx, hno⟩ => (mem_lacks hg.wf).2 ?_⟩
  obtain ⟨tip, htip, happ⟩ := hr.indexed.exists_tip hr.wf hx
  refine ⟨⟨tip, htip, .inr ⟨(mem_parentClosure (hb tip htip)).2 happ, ?_⟩⟩, hnull x hx, hno⟩
  rw [hr.genesisIdOr_eq hg]
  rintro rfl
  rw [hg.contains_genesis] at hno
  cases hno

theorem length_lacks_of_within (hg : g.Grown P start) (hr : r.Grown P start)
    (hnull : ∀ x, r.contains x = true → x ≠ nullParent)
    (hb : ∀ tip ∈ r.tips, r.ClosureWithin ancestorWalkBound tip) :
    (g.lacks r a).length = r.vertices.entries.countP fun e => !g.contains e.1 := by
  have hperm : (g.lacks r a).Perm (r.attachOrder.filter fun x => !g.contains x) := by
    refine (List.perm_ext_iff_of_nodup nodup_lacks (hr.wf.nodup.filter _)).2 fun x => ?_
    rw [mem_lacks_of_within hg hr hnull hb, List.mem_filter, hr.wf.mem_order, Bool.not_eq_true']
    rfl
  rw [hperm.length_eq, ← List.countP_eq_length_filter, hr.wf.order_perm.countP_eq, List.countP_map]
  rfl

theorem joined_of_within (hg : g.Grown P start) (hr : r.Grown P start)
    (hnull : ∀ x, r.contains x = true → x ≠ nullParent)
    (hb : ∀ tip ∈ r.tips, r.ClosureWithin ancestorWalkBound tip) : g.Joined r a := by
  intro x _ tx hl p hp
  rw [mem_lacks_of_within hg hr hnull hb, ← Bool.not_eq_true]
  by_cases hc : g.contains p = true
  · exact .inl hc
  · exact .inr ⟨hr.wf.parents_of_lookup hl p hp, hc⟩

/-- Where both have the parents of a vertex alike, a vertex lacked has something needed above it. -/
theorem lacks_ne_nil (hg : g.Grown P start) (hr : r.Grown P start)
    (hnull : ∀ x, r.contains x = true → x ≠ nullParent)
    (hsame : ∀ {x tx tx'}, g.vertices.lookup x = some tx → r.vertices.lookup x = some tx' →
      tx.parents = tx'.parents)
    (hx : r.contains x = true) (hno : g.contains x = false) : g.lacks r a ≠ [] := by
  obtain ⟨tip, htip, happ⟩ := hr.indexed.exists_tip hr.wf hx
  have htipno : g.contains tip = false := by
    rw [← Bool.not_eq_true] at hno ⊢
    intro htip
    -- what is stored here goes down to the ancestors there
    have hdown : ∀ y, r.Approves tip y → g.contains y = true := by
      intro y hy
      induction hy with
      | refl => exact htip
      | tail _ hp ih =>
        obtain ⟨tx', hl', hp⟩ := mem_pushedParents.1 hp
        obtain ⟨tx, hl⟩ := contains_iff.1 ih
        exact hg.wf.parents_of_lookup hl _ (hsame hl hl' ▸ hp)
    exact hno (hdown x happ)
  exact List.ne_nil_of_mem ((mem_lacks hg.wf).2
    ⟨⟨tip, htip, .inl rfl⟩, hnull tip ((hr.indexed.tips tip).1 htip).1, htipno⟩)

end Graph

/-! ## The round -/

section Round

variable {P : Primitives} {start r : Graph} {s : KronDAG} {a : Address}

/-- What a round does with the bodies needed: nothing when there are none, else they are stored in
some order and the ledger is rebuilt. -/
theorem exchange_cases (hs : s.toGraph.Grown P start) (hr : r.Grown P start)
    (hj : s.toGraph.Joined r a) (carrier : Address) : ∃ ordered relayOf,
      ordered.length = (s.toGraph.lacks r a).length
        ∧ (s.withStored ordered relayOf).toGraph.WF
        ∧ (∀ x tx, (s.withStored ordered relayOf).vertices.lookup x = some tx ↔
          s.vertices.lookup x = some tx ∨ x ∈ s.toGraph.lacks r a ∧ r.vertices.lookup x = some tx)
        ∧ (ordered = [] ∧ exchangeAndMerge P s r (SyncInventory.fromDag r a) carrier
            = (s.withStored ordered relayOf, .ok 0)
          ∨ exchangeAndMerge P s r (SyncInventory.fromDag r a) carrier =
            let res := (s.withStored ordered relayOf).resolveConflictsAndRebuildLedger P
            (res.1, (res.2.map fun _ => min ordered.length (2 ^ 32 - 1)).mapError
              fun e => .err (.attach e))) := by
  obtain ⟨ordered, hmerged, hperm⟩ := hs.merged_of_joined hr hj
  have hids := Graph.map_id_bodies (a := a) hs.wf hr.wf hr.indexed
  have hlen : ordered.length = (s.toGraph.lacks r a).length := by
    rw [← hids, List.length_map, hperm.length_eq]
  have hnd : (ordered.map DagTransaction.id).Nodup := by
    rw [(hperm.map _).nodup_iff, hids]
    exact Graph.nodup_lacks
  have hnew : ∀ tx ∈ ordered, s.contains tx.id = false := fun tx htx =>
    ((Graph.mem_lacks hs.wf).1 ((Graph.mem_bodies hr.wf).1 (hperm.mem_iff.1 htx)).1).2.2
  have hlook : ∀ relayOf x tx, (s.withStored ordered relayOf).vertices.lookup x = some tx ↔
      s.vertices.lookup x = some tx ∨ x ∈ s.toGraph.lacks r a ∧ r.vertices.lookup x = some tx := by
    intro relayOf x tx
    refine (lookup_foldl_insertVertex x ordered _ hnd hnew tx).trans ?_
    rw [hperm.mem_iff, Graph.mem_bodies hr.wf]
    refine or_congr_right ⟨?_, fun ⟨hx, hl⟩ => ?_⟩
    · rintro ⟨h, rfl⟩
      exact h
    · obtain rfl := hr.wf.id_eq hl
      exact ⟨⟨hx, hl⟩, rfl⟩
  have hw := congrArg Prod.snd hmerged
  have hst := congrArg Prod.fst hmerged
  have hwf : (ordered.foldl Graph.insertVertex s.toGraph).WF := by
    have := hs.wf.merged (P := P) (r.transactionsFor (s.toGraph.lacks r a))
    rwa [hst] at this
  by_cases hnil : ordered = []
  · obtain ⟨relayOf, hm⟩ := KronDAG.merge_nothing _ carrier hw (hst.trans hnil)
    refine ⟨ordered, relayOf, hlen, hwf, hlook relayOf, .inl ⟨hnil, ?_⟩⟩
    rw [hnil]
    exact hm
  · obtain ⟨relayOf, hm⟩ := KronDAG.merge_whole _ carrier hw fun h => hnil (hst.symm.trans h)
    refine ⟨ordered, relayOf, hlen, hwf, hlook relayOf, .inr ?_⟩
    rw [hmerged] at hm
    exact hm

/-- The bodies needed are all stored, and the round ends in an overflow of the rebuild or in their
number. -/
theorem exchange_joined (hs : s.toGraph.Grown P start) (hr : r.Grown P start)
    (hj : s.toGraph.Joined r a) (carrier : Address) :
    (∀ x tx, (exchangeAndMerge P s r (SyncInventory.fromDag r a) carrier).1.vertices.lookup x
        = some tx ↔ s.vertices.lookup x = some tx
          ∨ x ∈ s.toGraph.lacks r a ∧ r.vertices.lookup x = some tx)
      ∧ ((exchangeAndMerge P s r (SyncInventory.fromDag r a) carrier).2
          = .error (.err (.attach .overflow))
        ∨ (exchangeAndMerge P s r (SyncInventory.fromDag r a) carrier).2
          = .ok (min (s.toGraph.lacks r a).length (2 ^ 32 - 1))) := by
  obtain ⟨ordered, relayOf, hlen, -, hlook, hex⟩ := exchange_cases hs hr hj carrier
  rcases hex with ⟨hnil, hex⟩ | hex
  · rw [hex, ← hlen, hnil]
    exact ⟨hnil ▸ hlook, .inr rfl⟩
  · have hg := ((s.withStored ordered relayOf).resolve_frame (P := P)).1
    rw [hex, ← hlen]
    simp only [hg]
    refine ⟨hlook, ?_⟩
    rcases hres : (s.withStored ordered relayOf).resolveConflictsAndRebuildLedger P
      with ⟨s', e | ⟨⟨⟩⟩⟩
    · rw [(KronDAG.resolve_error hres).1]
      exact .inl rfl
    · exact .inr rfl

/-- A parent that is neither stored nor needed ends the round before anything is stored. -/
theorem exchange_not_joined (hs : s.toGraph.Grown P start) (hr : r.Grown P start)
    (hj : ¬ s.toGraph.Joined r a) (carrier : Address) :
    ∃ q, exchangeAndMerge P s r (SyncInventory.fromDag r a) carrier
      = (s, .error (.err (.missingParent q))) := by
  unfold Graph.Joined at hj
  push Not at hj
  obtain ⟨x, hx, tx, hl, p, hp, hno, hnot⟩ := hj
  rw [ne_eq, Bool.not_eq_true] at hno
  have hids := Graph.map_id_bodies (a := a) hs.wf hr.wf hr.indexed
  have hnd : ((r.transactionsFor (s.toGraph.lacks r a)).map DagTransaction.id).Nodup := by
    rw [hids]
    exact Graph.nodup_lacks
  obtain rfl := hr.wf.id_eq hl
  obtain ⟨q, hq⟩ := topoOrderIncoming_missing (g := s.toGraph) hnd
    ((Graph.mem_bodies hr.wf).2 ⟨hx, hl⟩) hp hno fun y hy he => hnot (by
      rw [← he]
      exact ((Graph.mem_bodies hr.wf).1 hy).1)
  refine ⟨q, ?_⟩
  change s.mergeOfflineGraphs P (r.transactionsFor (s.toGraph.lacks r a)) carrier = _
  unfold KronDAG.mergeOfflineGraphs
  rw [hq]

end Round

end KronMesh
