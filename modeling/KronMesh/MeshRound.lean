import KronMesh.Exchange
import KronMesh.MeshSync
import KronMesh.Readable

/-!
# What a round comes to

Between two small graphs nothing is cut: each side asks for what it lacks, gets it in the order in
which the other stored it, and stores it. So a round ends with the vertices of both on both sides.
-/

namespace KronMesh

open Word Outcome Wire

/-! ## Bodies in order -/

namespace Graph

variable {P : Primitives} {start g r : Graph} {ids : List TxHash} {tx : DagTransaction}
  {x : TxHash}

theorem map_id_transactionsForInOrder (hr : r.WF) (ids : List TxHash) :
    (r.transactionsForInOrder ids).map DagTransaction.id
      = r.attachOrder.filter fun id => ids.contains id := by
  unfold transactionsForInOrder
  rw [List.map_filterMap]
  refine (List.filterMap_congr fun x hx => ?_).trans List.filterMap_some
  obtain ⟨tx, hl⟩ := contains_iff.1 ((hr.mem_order x).1 (List.mem_filter.1 hx).1)
  rw [hl, Option.map_some, hr.id_eq hl]

theorem mem_transactionsForInOrder (hr : r.WF) : tx ∈ r.transactionsForInOrder ids ↔
    tx.id ∈ ids ∧ r.vertices.lookup tx.id = some tx := by
  unfold transactionsForInOrder
  rw [List.mem_filterMap]
  constructor
  · rintro ⟨id, hid, hl⟩
    obtain rfl := hr.id_eq hl
    exact ⟨List.contains_iff_mem.1 (List.mem_filter.1 hid).2, hl⟩
  · rintro ⟨hid, hl⟩
    exact ⟨tx.id, List.mem_filter.2 ⟨hr.mem_attachOrder hl,
      List.contains_iff_mem.2 hid⟩, hl⟩

/-- A parent that is asked for is sent first. -/
theorem Indexed.parent_first (hr : r.WF) (hi : r.Indexed) {pre post : List DagTransaction}
    (h : r.transactionsForInOrder ids = pre ++ tx :: post) {p : TxHash} (hp : p ∈ tx.parents)
    (hask : p ∈ ids) : p ∈ pre.map DagTransaction.id := by
  have hl : r.vertices.lookup tx.id = some tx :=
    ((mem_transactionsForInOrder hr).1 (h ▸ List.mem_append_right _ List.mem_cons_self)).2
  have hmap := map_id_transactionsForInOrder hr ids
  rw [h, List.map_append, List.map_cons] at hmap
  obtain ⟨l₁, l₂, ho, hpre, htail⟩ := List.filter_eq_append_iff.1 hmap.symm
  obtain ⟨l₃, l₄, ho', hskip, -, -⟩ := List.filter_eq_cons_iff.1 htail
  have hbefore : p ∈ l₁ ++ l₃ :=
    hi.earlier (by rw [ho, ho', List.append_assoc]) hl p hp
  rw [← hpre, List.mem_filter, List.contains_iff_mem]
  rcases List.mem_append.1 hbefore with hb | hb
  · exact ⟨hb, hask⟩
  · exact absurd (List.contains_iff_mem.2 hask) (hskip p hb)

/-- What `g` lacks of `r`, as `r` sends it, comes behind its parents. -/
theorem Grown.asked_parents (hr : r.Grown P start)
    (hids : ∀ x, x ∈ ids ↔ r.contains x = true ∧ g.contains x = false)
    {pre post : List DagTransaction} (h : r.transactionsForInOrder ids = pre ++ tx :: post)
    {p : TxHash} (hp : p ∈ tx.parents) : g.contains p = true ∨ p ∈ pre.map DagTransaction.id := by
  have hl : r.vertices.lookup tx.id = some tx :=
    ((mem_transactionsForInOrder hr.wf).1 (h ▸ List.mem_append_right _ List.mem_cons_self)).2
  have hstored := hr.wf.parents_of_lookup hl p hp
  rcases hc : g.contains p
  · exact .inr (hr.indexed.parent_first hr.wf h hp ((hids p).2 ⟨hstored, hc⟩))
  · exact .inl rfl

/-- It fits behind `g`. -/
theorem Grown.fits_of_asked (hg : g.Grown P start) (hr : r.Grown P start)
    (hids : ∀ x, x ∈ ids ↔ r.contains x = true ∧ g.contains x = false) :
    g.Fits P (r.transactionsForInOrder ids) := by
  have hbody : ∀ tx ∈ r.transactionsForInOrder ids,
      r.vertices.lookup tx.id = some tx ∧ g.contains tx.id = false := by
    intro tx htx
    obtain ⟨hid, hl⟩ := (mem_transactionsForInOrder hr.wf).1 htx
    exact ⟨hl, ((hids tx.id).1 hid).2⟩
  refine fits_of_sound _ (fun tx htx => ?_) ?_ (fun tx htx => (hbody tx htx).2)
    fun {pre tx post} h p hp => hr.asked_parents hids h hp
  · obtain ⟨hl, hno⟩ := hbody tx htx
    exact hr.sound hg hl hno
  · rw [map_id_transactionsForInOrder hr.wf ids]
    exact hr.wf.nodup.filter _

/-- Behind them `g` has the vertices of both. -/
theorem Grown.contains_asked (hr : r.Grown P start)
    (hids : ∀ x, x ∈ ids ↔ r.contains x = true ∧ g.contains x = false) (x : TxHash) :
    ((r.transactionsForInOrder ids).foldl Graph.insertVertex g).contains x
      = (g.contains x || r.contains x) := by
  have hnd : ((r.transactionsForInOrder ids).map DagTransaction.id).Nodup := by
    rw [map_id_transactionsForInOrder hr.wf ids]
    exact hr.wf.nodup.filter _
  have hnew : ∀ tx ∈ r.transactionsForInOrder ids, g.contains tx.id = false := fun tx htx =>
    ((hids tx.id).1 ((mem_transactionsForInOrder hr.wf).1 htx).1).2
  rw [Bool.eq_iff_iff, contains_iff, Bool.or_eq_true]
  simp only [lookup_foldl_insertVertex x _ g hnd hnew, mem_transactionsForInOrder hr.wf]
  constructor
  · rintro ⟨tx, hl | ⟨⟨-, hl⟩, rfl⟩⟩
    · exact .inl (contains_iff.2 ⟨tx, hl⟩)
    · exact .inr (contains_iff.2 ⟨tx, hl⟩)
  · intro h
    rcases hc : g.contains x
    · have hcr : r.contains x = true := h.resolve_left (by rw [hc]; exact Bool.false_ne_true)
      obtain ⟨tx, hl⟩ := contains_iff.1 hcr
      obtain rfl := hr.wf.id_eq hl
      exact ⟨tx, .inr ⟨⟨(hids tx.id).2 ⟨hcr, hc⟩, hl⟩, rfl⟩⟩
    · obtain ⟨tx, hl⟩ := contains_iff.1 hc
      exact ⟨tx, .inl hl⟩

end Graph

/-! ## Taking bodies in -/

section Ingest

variable {P : Primitives}

abbrev LoggedDag := KronDAG × List (DagTransaction × Except DagError Bool)

def LoggedDag.ingest (P : Primitives) (g : LoggedDag) (tx : DagTransaction) : LoggedDag :=
  ((g.1.acceptWireVertex P tx).1, g.2 ++ [(tx, (g.1.acceptWireVertex P tx).2)])

theorem ingestAll_cons (g : LoggedDag) (tx : DagTransaction) (txs : List DagTransaction) :
    (isolatedDag P).logged.ingestAll g (tx :: txs)
      = (isolatedDag P).logged.ingestAll (LoggedDag.ingest P g tx) txs := rfl

/-- What has been written down stays. -/
theorem log_subset : ∀ (txs : List DagTransaction) (g : LoggedDag),
    g.2 ⊆ ((isolatedDag P).logged.ingestAll g txs).2
  | [], _ => List.Subset.refl _
  | tx :: txs, g => by
    rw [ingestAll_cons]
    exact List.Subset.trans (List.subset_append_left g.2 _) (log_subset txs (g.ingest P tx))

/-- The bodies are written down in the order in which they came. -/
theorem log_ingestAll : ∀ (txs : List DagTransaction) (g : LoggedDag),
    ((isolatedDag P).logged.ingestAll g txs).2.map Prod.fst = g.2.map Prod.fst ++ txs
  | [], _ => (List.append_nil _).symm
  | tx :: txs, g => by
    rw [ingestAll_cons, log_ingestAll txs, LoggedDag.ingest, List.map_append, List.append_assoc]
    rfl

/-- A batch that fits is stored whole where no ingest overflows. -/
theorem graph_ingestAll : ∀ (txs : List DagTransaction) {g : LoggedDag}, g.1.toGraph.Fits P txs →
    (∀ e ∈ ((isolatedDag P).logged.ingestAll g txs).2, e.2 ≠ .error .overflow) →
    ((isolatedDag P).logged.ingestAll g txs).1.toGraph = txs.foldl Graph.insertVertex g.1.toGraph
  | [], _, _, _ => rfl
  | tx :: txs, g, ⟨hcheck, hfits⟩, hno => by
    rw [ingestAll_cons] at hno ⊢
    have hmem : (tx, (g.1.acceptWireVertex P tx).2) ∈ (g.ingest P tx).2 :=
      List.mem_append_right g.2 (List.mem_singleton.2 rfl)
    have hgraph : (g.ingest P tx).1.toGraph = g.1.toGraph.insertVertex tx :=
      accept_graph_of_admitted hcheck (hno _ (log_subset txs _ hmem))
    rw [graph_ingestAll txs (hgraph.symm ▸ hfits) hno, hgraph, List.foldl_cons]

/-- A node without a faucet takes in a batch that fits without an overflow. -/
theorem log_of_unfunded : ∀ (txs : List DagTransaction) {g : LoggedDag}, g.1.Unfunded →
    (∀ {id tx}, g.1.vertices.lookup id = some tx → tx.cost ≤ u64Max) →
    (∀ tx ∈ txs, tx.cost ≤ u64Max) → g.1.toGraph.Fits P txs →
    (∀ e ∈ g.2, e.2 ≠ .error .overflow) →
    ∀ e ∈ ((isolatedDag P).logged.ingestAll g txs).2, e.2 ≠ .error .overflow
  | [], _, _, _, _, _, hno => hno
  | tx :: txs, g, hunf, hcosts, hcost, ⟨hcheck, hfits⟩, hno => by
    obtain ⟨htx, hcost⟩ := List.forall_mem_cons.1 hcost
    have hok := KronDAG.accept_ok_of_unfunded hunf hcheck htx hcosts
    have hgraph : (g.ingest P tx).1.toGraph = g.1.toGraph.insertVertex tx :=
      KronDAG.accept_graph_of_unfunded hunf hcheck htx
    rw [ingestAll_cons]
    have hunf' : (exec P g.1 (.accept tx)).Unfunded :=
      KronDAG.unfunded_exec hunf fun a n h => by cases h
    refine log_of_unfunded txs hunf' (fun {id y} hl => ?_) hcost (hgraph.symm ▸ hfits)
      fun e he => ?_
    · rw [hgraph] at hl
      rcases Graph.lookup_insertVertex_cases hl with ⟨-, rfl⟩ | ⟨-, hl⟩
      · exact htx
      · exact hcosts hl
    · rcases List.mem_append.1 he with he | he
      · exact hno e he
      · rw [List.mem_singleton.1 he, hok]
        rintro ⟨⟩

end Ingest

/-! ## Small graphs -/

section Small

variable {P : Primitives} {start g r : Graph}

theorem closureWithin_of_small (hg : g.Grown P start)
    (hn : g.vertices.entries.length ≤ ancestorWalkBound) (tip : TxHash) (htip : tip ∈ g.tips) :
    g.ClosureWithin ancestorWalkBound tip := by
  refine ⟨g.attachOrder, ?_, fun x hx => (hg.wf.mem_order x).2 ?_⟩
  · rwa [hg.wf.order_perm.length_eq, List.length_map]
  · exact hg.wf.contains_of_approves ((hg.indexed.tips tip).1 htip).1 hx

/-- What a node has and the other does not list, the other lacks. -/
theorem mem_lacks_of_have (hg : g.Grown P start) (hr : r.Grown P start)
    (hnull : ∀ x, g.contains x = true → x ≠ nullParent)
    (hb : ∀ tip ∈ g.tips, g.ClosureWithin ancestorWalkBound tip)
    (hb' : ∀ tip ∈ r.tips, r.ClosureWithin ancestorWalkBound tip) {x : TxHash}
    (hx : x ∈ (computeDagDiff g (SyncInventory.fromDag r 0)).2) : x ∈ r.lacks g 0 := by
  have hun : g.Unlisted r x := by
    have hx := (mem_collectHave hg.wf hg.indexed).1 hx
    cases hx with
    | tip _ hx => exact hx
    | parent _ _ hx => exact hx
  obtain ⟨hc, hne, hgen, hno⟩ := hun
  refine (Graph.mem_lacks_of_within hr hg hnull hb).2 ⟨hc, ?_⟩
  rw [← Bool.not_eq_true]
  intro hcr
  refine hno (mem_advertised_fromDag.1 (SyncInventory.mem_advertised.2 (.inr
    ((SyncInventory.mem_recent_of_within (a := 0) hr.wf hr.indexed hb').2 ⟨hcr, ?_, hne⟩))))
  rwa [hr.genesisIdOr_eq hg]

/-- Told what it knows that it lacks, a node asks for no more. -/
theorem foldl_addHave {γ : Type} {G : MeshGraph γ} {g : γ} {need : List TxHash} :
    ∀ (ids : List TxHash), (∀ x ∈ ids, x ∈ need) → ids.foldl (MeshProc.addHave G g) need = need
  | [], _ => rfl
  | id :: ids, h => by
    have hskip : MeshProc.addHave G g need id = need := by
      refine if_neg fun hno => ?_
      have hc : need.contains id = true := List.contains_iff_mem.2 (h id List.mem_cons_self)
      rw [hno.2] at hc
      cases hc
    rw [List.foldl_cons, hskip]
    exact foldl_addHave ids fun x hx => h x (List.mem_cons_of_mem _ hx)

end Small

/-! ## Rounds -/

section Rounds

open Relation

variable {P : Primitives} {start : Graph} {s r d : KronDAG}

/-- Every vertex written down came behind its parents. -/
def Graph.ParentsFirst (g : Graph) (log : List (DagTransaction × Except DagError Bool)) : Prop :=
  ∀ pre e post, log = pre ++ e :: post →
    ∀ p ∈ e.1.parents, g.contains p = true ∨ ∃ e' ∈ pre, e'.1.id = p

/-- Two peers at the beginning of a round, the left one the initiator, with nothing ingested. -/
def roundStart (P : Primitives) (s r : KronDAG) :
    Duplex.Config (LoggedDag × MeshProc LoggedDag) Frame :=
  syncStart (isolatedDag P).logged (s, []) (r, [])

/-- A node behind what it lacks of another. -/
def caughtUp (P : Primitives) (s r : KronDAG) : LoggedDag :=
  (isolatedDag P).logged.ingestAll (s, [])
    (r.toGraph.transactionsForInOrder (s.toGraph.lacks r.toGraph 0))

def roundEnd (P : Primitives) (s r : KronDAG) :
    Duplex.Config (LoggedDag × MeshProc LoggedDag) Frame :=
  ⟨(caughtUp P s r, .stop (.ok ())), (caughtUp P r s, .stop (.ok ())), [], []⟩

/-- A graph that a round takes as it is: it is small, and its bodies come back from their bytes. -/
structure Graph.Sendable (P : Primitives) (g start : Graph) : Prop where
  grown : g.Grown P start
  ne_null : ∀ x, g.contains x = true → x ≠ nullParent
  small : g.vertices.entries.length ≤ ancestorWalkBound
  bytes : ∀ x tx, g.vertices.lookup x = some tx →
    DagTransaction.fromCanonical P tx.canonicalBytes = .ok tx

theorem Graph.Sendable.within {g : Graph} (h : g.Sendable P start) :
    ∀ tip ∈ g.tips, g.ClosureWithin ancestorWalkBound tip :=
  closureWithin_of_small h.grown h.small

theorem Graph.Sendable.mem_lacks {g r : Graph} (hg : g.Sendable P start) (hr : r.Sendable P start)
    (x : TxHash) : x ∈ g.lacks r 0 ↔ r.contains x = true ∧ g.contains x = false :=
  Graph.mem_lacks_of_within hg.grown hr.grown hr.ne_null hr.within

theorem Graph.Sendable.askOf (hs : s.toGraph.Sendable P start) (hr : r.toGraph.Sendable P start) :
    (isolatedDag P).logged.askOf (s, []) (r, []) = r.toGraph.lacks s.toGraph 0 :=
  foldl_addHave _ fun _ hx =>
    mem_lacks_of_have hs.grown hr.grown hs.ne_null hs.within hr.within hx

/-- Its bodies can be read. -/
theorem Graph.Sendable.readable_body {g : Graph} {ids : List TxHash} {tx : DagTransaction}
    (hg : g.Sendable P start) (htx : tx ∈ g.transactionsForInOrder ids) :
    (MeshWireMessage.dagTransaction tx).Readable P := by
  have hl := ((Graph.mem_transactionsForInOrder hg.grown.wf).1 htx).2
  obtain ⟨hsig, hrel⟩ := hg.grown.verified hl
  exact readable_dagTransaction hsig hrel (hg.bytes _ _ hl)

theorem Graph.Sendable.readable (hs : s.toGraph.Sendable P start)
    (hr : r.toGraph.Sendable P start) : (isolatedDag P).logged.Readable P (s, []) (r, []) := by
  have hcap : 2 * ancestorWalkBound ≤ maxInventoryHashes := by decide
  have hss := hs.small
  have hrs := hr.small
  obtain ⟨hinv, hneed, hhad⟩ := (Graph.readable_iff (P := P) (a := 0) (b := 0) hs.grown.wf
    hs.grown.indexed).2 (Graph.counts_of_small hs.grown hr.grown (by omega) (by omega))
  obtain ⟨hinv', hneed', -⟩ := (Graph.readable_iff (P := P) (a := 0) (b := 0) hr.grown.wf
    hr.grown.indexed).2 (Graph.counts_of_small hr.grown hs.grown (by omega) (by omega))
  refine ⟨?_, hneed, hhad, ?_, ?_⟩
  · rintro g (rfl | rfl)
    · exact hinv
    · exact hinv'
  · rw [hs.askOf hr]
    exact hneed'
  · rintro tx (htx | htx)
    · exact hs.readable_body htx
    · exact hr.readable_body htx

/-- Every run of a round can be continued to its end, and none is longer. -/
theorem ends_round (hs : s.toGraph.Sendable P start) (hr : r.toGraph.Sendable P start) :
    Duplex.Ends (meshAct P (isolatedDag P).logged) (roundStart P s r) (roundEnd P s r) := by
  have hreach := reaches_stop (fun _ => rfl) (fun _ _ => rfl) (hs.readable hr)
  rw [hs.askOf hr] at hreach
  exact Duplex.ends_of_reaches hreach (Duplex.not_step_of_stop rfl rfl)

/-- A node that has caught up without an overflow has the vertices of both, and each that came came
behind its parents. -/
theorem caughtUp_spec (hs : s.toGraph.Sendable P start) (hr : r.toGraph.Sendable P start)
    (hno : ∀ e ∈ (caughtUp P s r).2, e.2 ≠ .error .overflow) :
    (∀ x, (caughtUp P s r).1.contains x = (s.contains x || r.contains x))
      ∧ s.toGraph.ParentsFirst (caughtUp P s r).2 := by
  have hids := hs.mem_lacks hr
  have hfits : s.toGraph.Fits P (r.toGraph.transactionsForInOrder (s.toGraph.lacks r.toGraph 0)) :=
    hs.grown.fits_of_asked hr.grown hids
  have hgraph := graph_ingestAll _ (g := (s, [])) hfits hno
  refine ⟨fun x => ?_, fun pre e post hlog p hp => ?_⟩
  · unfold caughtUp
    rw [hgraph]
    exact hr.grown.contains_asked hids x
  · have htxs := log_ingestAll (P := P)
      (r.toGraph.transactionsForInOrder (s.toGraph.lacks r.toGraph 0)) (s, [])
    have hlog : ((isolatedDag P).logged.ingestAll (s, []) (r.toGraph.transactionsForInOrder
      (s.toGraph.lacks r.toGraph 0))).2 = pre ++ e :: post := hlog
    rw [hlog, List.map_append, List.map_cons] at htxs
    refine (hr.grown.asked_parents hids htxs.symm hp).imp_right fun h => ?_
    obtain ⟨tx, htx, rfl⟩ := List.mem_map.1 h
    obtain ⟨e', he', rfl⟩ := List.mem_map.1 htx
    exact ⟨e', he', rfl⟩

/-- For any two peers with small graphs from one genesis whose bodies come back from their bytes:
every run of a round, in whichever order the two take their turns, can be continued to the same
end. Where no ingest overflows, both sides end in `Ok` there with the vertices of both, and what
each received came behind its parents. -/
theorem sync_round_run (h : KronDAG.withGenesis P = some d) (ops ops' : List Op)
    (hs : run P d ops = s) (hr : run P d ops' = r)
    (hnull : ∀ x, s.contains x = true ∨ r.contains x = true → x ≠ nullParent)
    (hsmall : s.vertices.entries.length ≤ 1024 ∧ r.vertices.entries.length ≤ 1024)
    (hbytes : ∀ x tx, s.vertices.lookup x = some tx ∨ r.vertices.lookup x = some tx →
      DagTransaction.fromCanonical P tx.canonicalBytes = .ok tx)
    (hover : ∀ fin, Duplex.Ends (meshAct P (isolatedDag P).logged) (roundStart P s r) fin →
      ∀ e, e ∈ fin.left.1.2 ∨ e ∈ fin.right.1.2 → e.2 ≠ .error .overflow) :
    ∃ fin, Duplex.Ends (meshAct P (isolatedDag P).logged) (roundStart P s r) fin
      ∧ meshAct P (isolatedDag P).logged fin.left = .stop (.ok ())
      ∧ meshAct P (isolatedDag P).logged fin.right = .stop (.ok ())
      ∧ (∀ x, fin.left.1.1.contains x = (s.contains x || r.contains x))
      ∧ (∀ x, fin.right.1.1.contains x = (s.contains x || r.contains x))
      ∧ s.toGraph.ParentsFirst fin.left.1.2 ∧ r.toGraph.ParentsFirst fin.right.1.2 := by
  have hsend : s.toGraph.Sendable P d.toGraph := ⟨hs ▸ grown_run h ops,
    fun x hx => hnull x (.inl hx), hsmall.1, fun x tx hl => hbytes x tx (.inl hl)⟩
  have hrecv : r.toGraph.Sendable P d.toGraph := ⟨hr ▸ grown_run h ops',
    fun x hx => hnull x (.inr hx), hsmall.2, fun x tx hl => hbytes x tx (.inr hl)⟩
  have hends := ends_round hsend hrecv
  obtain ⟨hleft, hfirst⟩ := caughtUp_spec hsend hrecv fun e he => hover _ hends e (.inl he)
  obtain ⟨hright, hfirst'⟩ := caughtUp_spec hrecv hsend fun e he => hover _ hends e (.inr he)
  exact ⟨roundEnd P s r, hends, rfl, rfl, hleft, fun x => (hright x).trans (Bool.or_comm _ _),
    hfirst, hfirst'⟩

namespace StandIn

theorem sendable_tree {up : ℕ → ℕ} {n : ℕ} (hup : ∀ i, up (i + 1) < i + 1)
    (hn : n < ancestorWalkBound) : (tree up n).toGraph.Sendable wide rootDag.toGraph := by
  have hn' : n < 2 ^ 63 := lt_trans hn (by decide)
  refine ⟨grown_tree up n, ne_null_tree hup hn', ?_, fun x tx hl => bytes_tree hup hn' hl⟩
  rw [length_tree hup hn']
  exact hn

/-- No tree overflows when it catches up with another. -/
theorem log_caughtUp_tree {up up' : ℕ → ℕ} {n m : ℕ} (hup : ∀ i, up (i + 1) < i + 1)
    (hup' : ∀ i, up' (i + 1) < i + 1) (hn : n < ancestorWalkBound) (hm : m < ancestorWalkBound) :
    ∀ e ∈ (caughtUp wide (tree up n) (tree up' m)).2, e.2 ≠ .error .overflow := by
  have hn' : n < 2 ^ 63 := lt_trans hn (by decide)
  have hm' : m < 2 ^ 63 := lt_trans hm (by decide)
  have hs := sendable_tree hup hn
  have hr := sendable_tree hup' hm
  refine log_of_unfunded _ (tree_spec hup n hn').1 (cost_tree hup hn') (fun tx htx => ?_)
    (hs.grown.fits_of_asked hr.grown (hs.mem_lacks hr)) fun e he => absurd he List.not_mem_nil
  exact cost_tree hup' hm' ((Graph.mem_transactionsForInOrder hr.grown.wf).1 htx).2

/-- A round between a node and one that stores two vertices more. -/
theorem sync_round_run_fans : ∃ fin, Duplex.Ends (meshAct wide (isolatedDag wide).logged)
      (roundStart wide (tree fan 3) (tree fan 5)) fin
    ∧ meshAct wide (isolatedDag wide).logged fin.left = .stop (.ok ())
    ∧ meshAct wide (isolatedDag wide).logged fin.right = .stop (.ok ())
    ∧ fin.left.1.1.contains (nodeId 5) = true := by
  have hs := sendable_tree (n := 3) fan_lt (by decide)
  have hr := sendable_tree (n := 5) fan_lt (by decide)
  obtain ⟨fin, hends, hleft, hright, hunion, -⟩ := sync_round_run withGenesis_rootDag
    (treeOps fan 3) (treeOps fan 5) (s := tree fan 3) (r := tree fan 5) rfl rfl
    (fun x hx => hx.elim (hs.ne_null x) (hr.ne_null x)) ⟨hs.small, hr.small⟩
    (fun x tx hl => hl.elim (hs.bytes x tx) (hr.bytes x tx)) fun fin hends e he => by
      rw [hends.unique (ends_round hs hr)] at he
      exact he.elim (log_caughtUp_tree fan_lt fan_lt (by decide) (by decide) e)
        (log_caughtUp_tree fan_lt fan_lt (by decide) (by decide) e)
  refine ⟨fin, hends, hleft, hright, ?_⟩
  have hlast : (tree fan 5).contains (nodeId 5) = true :=
    (contains_tree fan_lt (by decide) _).2 ⟨5, le_rfl, rfl⟩
  rw [hunion, hlast, Bool.or_true]

end StandIn

end Rounds

end KronMesh
