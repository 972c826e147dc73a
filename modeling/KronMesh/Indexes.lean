import KronMesh.StandInRun
import KronMesh.Weights

/-!
# The indexes of the graph

Beside the vertices a node keeps their order, their children and the tips. Whatever a node is
handed, these say what the vertices say: parents come before their children, the children of a
vertex are those that name it, and the tips are the vertices without children (`represented_run`).
So they are a matter of the vertices alone, as the weights are (`same_graph_run`).
-/

namespace KronMesh

open Word

namespace Graph

variable {P : Primitives} {g g' : Graph} {tx : DagTransaction}

def childrenOf (g : Graph) (id : TxHash) : List TxHash := (g.children.lookup id).getD []

def hasChildren (g : Graph) (id : TxHash) : Bool := !(g.childrenOf id).isEmpty

/-- Tips set matches the child map. -/
def tipsAreConsistent (g : Graph) : Bool :=
  g.tips.all (fun tip => !g.hasChildren tip)
    && g.children.entries.all (fun e => e.2.isEmpty || !g.tips.contains e.1)
    && g.vertices.entries.all fun e => g.hasChildren e.1 || g.tips.contains e.1

/-! ## What an insertion does to them -/

theorem mem_parents {p : TxHash} :
    p ∈ tx.parents ↔ p ≠ nullParent ∧ (tx.parent1 = p ∨ tx.parent2 = p) := by
  unfold DagTransaction.parents
  by_cases h1 : tx.parent1 = nullParent <;> by_cases h2 : tx.parent2 = nullParent <;>
    by_cases h : tx.parent2 = tx.parent1 <;> simp [h1, h2, h] <;> grind

theorem mem_setInsert {s : List TxHash} {x y : TxHash} : y ∈ setInsert s x ↔ y ∈ s ∨ y = x := by
  unfold setInsert
  split_ifs with h
  · grind
  · simp

theorem nodup_setInsert {s : List TxHash} (h : s.Nodup) (x : TxHash) : (setInsert s x).Nodup := by
  unfold setInsert
  split_ifs with hx
  · exact h
  · rw [List.nodup_append]
    refine ⟨h, List.nodup_singleton x, ?_⟩
    rintro a ha b hb rfl
    exact hx (List.mem_singleton.1 hb ▸ ha)

theorem lookup_children_noteChild (p c id : TxHash) : (g.noteChild p c).children.lookup id
    = if id = p ∧ p ≠ nullParent then some (setInsert (g.childrenOf id) c)
      else g.children.lookup id := by
  unfold noteChild childrenOf
  by_cases hp : p = nullParent
  · simp [hp]
  · by_cases hid : id = p
    · subst hid
      simp [hp]
    · simp [hp, hid, AList.lookup_insert_ne hid]

theorem childrenOf_noteChild (p c id : TxHash) : (g.noteChild p c).childrenOf id
    = if id = p ∧ p ≠ nullParent then setInsert (g.childrenOf id) c else g.childrenOf id := by
  rw [childrenOf, lookup_children_noteChild]
  split_ifs <;> rfl

theorem isSome_children_noteChild (p c id : TxHash) :
    ((g.noteChild p c).children.lookup id).isSome
      ↔ id = p ∧ p ≠ nullParent ∨ (g.children.lookup id).isSome := by
  rw [lookup_children_noteChild]
  split_ifs with h <;> simp [h]

theorem mem_tips_noteChild (p c id : TxHash) :
    id ∈ (g.noteChild p c).tips ↔ id ∈ g.tips ∧ ¬ (id = p ∧ p ≠ nullParent) := by
  unfold noteChild
  by_cases hp : p = nullParent
  · simp [hp]
  · simp [hp]

/-- The graph with the vertex in it, before its parents hear of it. -/
def withVertex (g : Graph) (tx : DagTransaction) : Graph :=
  { g with
    vertices := g.vertices.insert tx.id tx
    attachOrder := g.attachOrder ++ [tx.id]
    weights := g.weights.set tx.id 1
    children := g.children.insert tx.id (g.childrenOf tx.id)
    tips := setInsert g.tips tx.id }

theorem childrenOf_withVertex (id : TxHash) :
    (g.withVertex tx).childrenOf id = g.childrenOf id := by
  unfold withVertex
  by_cases hid : id = tx.id
  · subst hid
    simp [childrenOf]
  · simp [childrenOf, AList.lookup_insert_ne hid]

theorem isSome_children_withVertex (id : TxHash) :
    ((g.withVertex tx).children.lookup id).isSome ↔ id = tx.id ∨ (g.children.lookup id).isSome := by
  unfold withVertex
  by_cases hid : id = tx.id
  · subst hid
    simp
  · simp [hid, AList.lookup_insert_ne hid]

/-- Children and tips behind an insertion are those behind the two notes to the parents. -/
theorem insertVertex_indexes (g : Graph) (tx : DagTransaction) : ∃ g₁ : Graph,
    g₁ = (if tx.parent2 ≠ tx.parent1
      then ((g.withVertex tx).noteChild tx.parent1 tx.id).noteChild tx.parent2 tx.id
      else (g.withVertex tx).noteChild tx.parent1 tx.id)
    ∧ (g.insertVertex tx).children = g₁.children ∧ (g.insertVertex tx).tips = g₁.tips := by
  refine ⟨_, rfl, ?_⟩
  unfold insertVertex incrementAncestorWeights
  simp only []
  split_ifs <;> exact ⟨rfl, rfl⟩

theorem childrenOf_insertVertex (g : Graph) (tx : DagTransaction) (id : TxHash) :
    (id ∈ tx.parents → (g.insertVertex tx).childrenOf id = setInsert (g.childrenOf id) tx.id)
      ∧ (id ∉ tx.parents → (g.insertVertex tx).childrenOf id = g.childrenOf id) := by
  obtain ⟨g₁, hg₁, hchildren, -⟩ := insertVertex_indexes g tx
  have he : (g.insertVertex tx).childrenOf id = g₁.childrenOf id := by
    unfold childrenOf
    rw [hchildren]
  rw [he, hg₁, mem_parents]
  split_ifs <;> simp only [childrenOf_noteChild, childrenOf_withVertex] <;> grind

theorem mem_childrenOf_insertVertex (p c : TxHash) :
    c ∈ (g.insertVertex tx).childrenOf p ↔ c ∈ g.childrenOf p ∨ c = tx.id ∧ p ∈ tx.parents := by
  obtain ⟨hin, hout⟩ := childrenOf_insertVertex g tx p
  by_cases hp : p ∈ tx.parents
  · rw [hin hp, mem_setInsert]
    simp [hp]
  · rw [hout hp]
    simp [hp]

theorem isSome_children_insertVertex (id : TxHash) :
    ((g.insertVertex tx).children.lookup id).isSome
      ↔ id = tx.id ∨ id ∈ tx.parents ∨ (g.children.lookup id).isSome := by
  obtain ⟨g₁, hg₁, hchildren, -⟩ := insertVertex_indexes g tx
  rw [hchildren, hg₁, mem_parents]
  split_ifs <;> simp only [isSome_children_noteChild, isSome_children_withVertex] <;> grind

theorem nodup_tips_insertVertex (h : g.tips.Nodup) : (g.insertVertex tx).tips.Nodup := by
  have hnote : ∀ (g : Graph) (p c : TxHash), g.tips.Nodup → (g.noteChild p c).tips.Nodup := by
    intro g p c hg
    unfold noteChild
    split_ifs
    · exact hg
    · exact hg.filter _
  obtain ⟨g₁, hg₁, -, htips⟩ := insertVertex_indexes g tx
  have hwith : (g.withVertex tx).tips.Nodup := nodup_setInsert h tx.id
  rw [htips, hg₁]
  split_ifs
  · exact hnote _ _ _ (hnote _ _ _ hwith)
  · exact hnote _ _ _ hwith

theorem mem_tips_insertVertex (id : TxHash) :
    id ∈ (g.insertVertex tx).tips ↔ (id ∈ g.tips ∨ id = tx.id) ∧ id ∉ tx.parents := by
  obtain ⟨g₁, hg₁, -, htips⟩ := insertVertex_indexes g tx
  have hwith : id ∈ (g.withVertex tx).tips ↔ id ∈ g.tips ∨ id = tx.id := mem_setInsert
  rw [htips, hg₁, mem_parents]
  split_ifs <;> simp only [mem_tips_noteChild, hwith] <;> grind

/-! ## What they say -/

/-- The indexes say what the vertices say. -/
structure Indexed (g : Graph) : Prop where
  head : g.attachOrder.head? = g.genesisId
  earlier : ∀ {pre id post tx}, g.attachOrder = pre ++ id :: post →
    g.vertices.lookup id = some tx → ∀ p ∈ tx.parents, p ∈ pre
  keys : ∀ id, (g.children.lookup id).isSome ↔ g.contains id = true
  nodup : ∀ id, (g.childrenOf id).Nodup
  children : ∀ p c, c ∈ g.childrenOf p ↔ ∃ tx, g.vertices.lookup c = some tx ∧ p ∈ tx.parents
  tips : ∀ id, id ∈ g.tips ↔ g.contains id = true ∧ g.childrenOf id = []

/-- The parents of an admitted vertex are stored. -/
theorem WF.parents_stored (hg : g.WF) (h : g.checkVertex P tx = .ok ()) :
    ∀ p ∈ tx.parents, g.contains p = true := by
  obtain ⟨⟨-, h1⟩, -, h2⟩ := checkParents_ok (checkVertex_ok h).2.1 (hg.not_isGenesis h)
  intro p hp
  rcases (mem_parents.1 hp).2 with rfl | rfl
  · exact h1
  · exact h2

theorem Indexed.childrenOf_eq_nil (hi : g.Indexed) {id : TxHash} (h : g.contains id = false) :
    g.childrenOf id = [] := by
  refine List.eq_nil_iff_forall_not_mem.2 fun c hc => ?_
  have hkey : (g.children.lookup id).isSome := by
    unfold childrenOf at hc
    rcases hl : g.children.lookup id with _ | kids
    · rw [hl] at hc
      cases hc
    · rfl
  rw [hi.keys, h] at hkey
  cases hkey

section Admitted

variable (hg : g.WF) (hi : g.Indexed) (h : g.checkVertex P tx = .ok ())
include hg hi h

/-- The new vertex stands behind its parents, and nothing in front of it moves. -/
theorem earlier_insertVertex {pre : List TxHash} {id : TxHash} {post : List TxHash}
    {tx' : DagTransaction} (ho : (g.insertVertex tx).attachOrder = pre ++ id :: post)
    (hl : (g.insertVertex tx).vertices.lookup id = some tx') : ∀ p ∈ tx'.parents, p ∈ pre := by
  intro p hp
  rw [insertVertex_attachOrder] at ho
  rcases Replay.concat_eq_append_cons ho with ⟨rfl, rfl, -⟩ | ⟨post', -, ho⟩
  · rw [lookup_insertVertex, if_pos rfl] at hl
    cases hl
    rw [hg.mem_order]
    exact hg.parents_stored h p hp
  · refine hi.earlier ho ?_ p hp
    rw [lookup_insertVertex, if_neg] at hl
    · exact hl
    · rintro rfl
      have hmem : tx.id ∈ g.attachOrder := by
        rw [ho]
        exact List.mem_append_right _ List.mem_cons_self
      rw [hg.mem_order, (checkVertex_ok h).1] at hmem
      cases hmem

/-- The new vertex is a tip, its parents are tips no longer, the others are what they were. -/
theorem tips_insertVertex (id : TxHash) : id ∈ (g.insertVertex tx).tips ↔
    (g.insertVertex tx).contains id = true ∧ (g.insertVertex tx).childrenOf id = [] := by
  have hnone : g.contains tx.id = false := contains_eq_false.2 (checkVertex_ok h).1
  -- nobody names the new vertex yet, itself included
  have hself : tx.id ∉ tx.parents := fun hm => by
    rw [hg.parents_stored h _ hm] at hnone
    cases hnone
  have hchildless := hi.childrenOf_eq_nil hnone
  obtain ⟨hin, hout⟩ := childrenOf_insertVertex g tx id
  rw [mem_tips_insertVertex, hi.tips, contains_insertVertex, Bool.or_eq_true, decide_eq_true_eq]
  by_cases hp : id ∈ tx.parents
  · have hne : setInsert (g.childrenOf id) tx.id ≠ [] :=
      List.ne_nil_of_mem (mem_setInsert.2 (.inr rfl))
    rw [hin hp]
    simp [hp, hne]
  · rw [hout hp]
    by_cases hid : id = tx.id
    · subst hid
      simp [hself, hchildless]
    · simp [hp, hid]

/-- An admitted vertex keeps the indexes right. -/
theorem Indexed.insertVertex : (g.insertVertex tx).Indexed := by
  have hgen := hg.not_isGenesis h
  refine ⟨?_, earlier_insertVertex hg hi h, fun id => ?_, fun id => ?_, fun p c => ?_,
    tips_insertVertex hg hi h⟩
  · obtain ⟨gid, hgid, -⟩ := hg.genesis
    have hhead := hi.head
    rw [insertVertex_attachOrder, insertVertex_genesisId, hgen, List.head?_append, hhead, hgid]
    rfl
  · rw [isSome_children_insertVertex, hi.keys, contains_insertVertex, Bool.or_eq_true,
      decide_eq_true_eq]
    refine ⟨?_, fun h => h.imp_right .inr⟩
    rintro (hid | hid | hid)
    · exact .inl hid
    · exact .inr (hg.parents_stored h id hid)
    · exact .inr hid
  · obtain ⟨hin, hout⟩ := childrenOf_insertVertex g tx id
    by_cases hp : id ∈ tx.parents
    · rw [hin hp]
      exact nodup_setInsert (hi.nodup id) _
    · rw [hout hp]
      exact hi.nodup id
  · rw [mem_childrenOf_insertVertex, hi.children, lookup_insertVertex]
    split_ifs with hc
    · subst hc
      simp [(checkVertex_ok h).1]
    · simp [hc]

end Admitted

/-- The indexes of the genesis vertex. -/
theorem indexed_genesis (hgen : tx.isGenesis = true) : (Graph.empty.insertVertex tx).Indexed := by
  have hnull : tx.parents = [] := by
    simp only [DagTransaction.isGenesis, Bool.and_eq_true, beq_iff_eq] at hgen
    simp [DagTransaction.parents, hgen.1, hgen.2]
  have hlook : ∀ {id tx'}, (Graph.empty.insertVertex tx).vertices.lookup id = some tx' →
      tx' = tx := fun hl => (lookup_insertVertex_empty hl).2
  have hempty : ∀ id, (Graph.empty.insertVertex tx).childrenOf id = [] := fun id =>
    (childrenOf_insertVertex Graph.empty tx id).2 (by rw [hnull]; exact List.not_mem_nil)
  refine ⟨?_, fun {pre id post tx'} _ hl p hp => ?_, fun id => ?_, fun id => ?_, fun p c => ?_,
    fun id => ?_⟩
  · rw [insertVertex_attachOrder, insertVertex_genesisId, if_pos hgen]
    rfl
  · rw [hlook hl, hnull] at hp
    cases hp
  · rw [isSome_children_insertVertex, contains_insertVertex, hnull]
    simp [Graph.empty, contains]
  · rw [hempty]
    exact List.nodup_nil
  · rw [hempty]
    refine ⟨fun h => absurd h List.not_mem_nil, ?_⟩
    rintro ⟨tx', hl, hp⟩
    rw [hlook hl, hnull] at hp
    cases hp
  · rw [mem_tips_insertVertex, hempty, contains_insertVertex, hnull]
    simp [Graph.empty, contains]

/-- Tips and children agree, as the node's own check has it. -/
theorem Indexed.tipsAreConsistent (hi : g.Indexed) : g.tipsAreConsistent = true := by
  have hmem : ∀ {id}, id ∈ g.tips ↔ g.contains id = true ∧ g.hasChildren id = false := by
    intro id
    rw [hi.tips, hasChildren, Bool.not_eq_false', List.isEmpty_iff]
  unfold Graph.tipsAreConsistent
  simp only [Bool.and_eq_true, List.all_eq_true, Bool.or_eq_true, Bool.not_eq_true',
    List.isEmpty_iff]
  refine ⟨⟨fun tip htip => (hmem.1 htip).2, fun e he => ?_⟩, fun e he => ?_⟩
  · by_cases hkids : e.2 = []
    · exact .inl hkids
    · refine .inr ?_
      rw [← Bool.not_eq_true, List.contains_iff_mem, hi.tips]
      rintro ⟨-, hnil⟩
      have hl : g.children.lookup e.1 = some e.2 := AList.mem_lookup_iff.2 he
      rw [childrenOf, hl] at hnil
      exact hkids hnil
  · rcases hc : g.hasChildren e.1
    · refine .inr ?_
      rw [List.contains_iff_mem, hmem]
      refine ⟨?_, hc⟩
      have hl : g.vertices.lookup e.1 = some e.2 := AList.mem_lookup_iff.2 he
      unfold contains
      rw [hl]
      rfl
    · exact .inl rfl

/-- The vertex that came last is a tip. -/
theorem Indexed.tips_ne_nil (hg : g.WF) (hi : g.Indexed) : g.tips ≠ [] := by
  obtain ⟨gid, hgid, hs, -⟩ := hg.genesis
  rcases List.eq_nil_or_concat g.attachOrder with hnil | ⟨pre, id, ho⟩
  · have hm := (hg.mem_order gid).2 hs
    rw [hnil] at hm
    cases hm
  · rw [List.concat_eq_append] at ho
    have hid : id ∈ g.attachOrder := by
      rw [ho]
      exact List.mem_append_right _ List.mem_cons_self
    refine List.ne_nil_of_mem ((hi.tips id).2 ⟨(hg.mem_order id).1 hid, ?_⟩)
    refine List.eq_nil_iff_forall_not_mem.2 fun c hc => ?_
    obtain ⟨tx, hl, hp⟩ := (hi.children id c).1 hc
    obtain ⟨pre', post', ho'⟩ := hg.split_order hl
    -- a child comes behind its parent, and nothing comes behind the last
    have hbefore := hi.earlier ho' hl id hp
    have hpre : id ∈ pre := by
      rcases Replay.concat_eq_append_cons (ho.symm.trans ho') with ⟨-, rfl, -⟩ | ⟨post'', -, rfl⟩
      · exact hbefore
      · exact List.mem_append_left _ hbefore
    have hnd := hg.nodup
    rw [ho, List.nodup_append] at hnd
    exact hnd.2.2 id hpre id List.mem_cons_self rfl

/-- What the order, the children and the tips of a graph are to its vertices. The dummy parent
names no vertex. -/
structure Represented (g : Graph) : Prop where
  order_nodup : g.attachOrder.Nodup
  mem_order : ∀ id, id ∈ g.attachOrder ↔ g.contains id = true
  starts : g.attachOrder.head? = some g.genesisIdOr
  genesis : ∀ id tx, g.vertices.lookup id = some tx →
    (tx.parent1 = nullParent ∧ tx.parent2 = nullParent ↔ id = g.genesisIdOr)
  parents : ∀ id tx, g.vertices.lookup id = some tx → id ≠ g.genesisIdOr →
    g.contains tx.parent1 = true ∧ g.contains tx.parent2 = true
  earlier : ∀ pre id post tx, g.attachOrder = pre ++ id :: post →
    g.vertices.lookup id = some tx → id ≠ g.genesisIdOr → tx.parent1 ∈ pre ∧ tx.parent2 ∈ pre
  children_nodup : ∀ p, (g.childrenOf p).Nodup
  children : ∀ p c, c ∈ g.childrenOf p ↔
    ∃ tx, g.vertices.lookup c = some tx ∧ p ≠ nullParent ∧ (tx.parent1 = p ∨ tx.parent2 = p)
  tips : ∀ id, id ∈ g.tips ↔ g.contains id = true ∧ g.childrenOf id = []
  tips_ne_nil : g.tips ≠ []

theorem Indexed.represented (hg : g.WF) (hi : g.Indexed) : g.Represented := by
  obtain ⟨gid, hgid, -, hgen⟩ := hg.genesis
  have hid : g.genesisIdOr = gid := by
    unfold genesisIdOr
    rw [hgid]
    rfl
  have hisGenesis : ∀ {tx : DagTransaction}, tx.isGenesis = true ↔
      tx.parent1 = nullParent ∧ tx.parent2 = nullParent := by
    intro tx
    simp only [DagTransaction.isGenesis, Bool.and_eq_true, beq_iff_eq]
  have hnot : ∀ {id tx}, g.vertices.lookup id = some tx → id ≠ g.genesisIdOr →
      tx.isGenesis = false := by
    intro id tx hl hne
    rw [← Bool.not_eq_true, hgen hl, ← hid]
    exact hne
  refine ⟨hg.nodup, hg.mem_order, ?_, fun id tx hl => ?_, fun id tx hl hne => ?_,
    fun pre id post tx ho hl hne => ?_, hi.nodup, fun p c => ?_, hi.tips, hi.tips_ne_nil hg⟩
  · rw [hi.head, hgid, hid]
  · rw [← hisGenesis, hgen hl, hid]
  · obtain ⟨⟨-, h1⟩, -, h2⟩ := hg.parents hl (hnot hl hne)
    exact ⟨h1, h2⟩
  · obtain ⟨⟨h1, -⟩, h2, -⟩ := hg.parents hl (hnot hl hne)
    exact ⟨hi.earlier ho hl _ (mem_parents.2 ⟨h1, .inl rfl⟩),
      hi.earlier ho hl _ (mem_parents.2 ⟨h2, .inr rfl⟩)⟩
  · simp only [hi.children, mem_parents]

/-! ## The same vertices -/

/-- Two graphs of the same vertices have the same genesis vertex. -/
theorem genesisId_congr (hg : g.WF) (hg' : g'.WF)
    (h : ∀ id, g'.vertices.lookup id = g.vertices.lookup id) : g'.genesisId = g.genesisId := by
  obtain ⟨gid, hgid, hs, hgen⟩ := hg.genesis
  obtain ⟨gid', hgid', -, hgen'⟩ := hg'.genesis
  obtain ⟨tx, hl⟩ := Option.isSome_iff_exists.1 hs
  have hl' : g'.vertices.lookup gid = some tx := (h gid).trans hl
  rw [hgid, hgid', (hgen' hl').1 ((hgen hl).2 rfl)]

/-- What two graphs agree on beside the order in which their vertices came. -/
structure SameGraph (g g' : Graph) : Prop where
  genesisId : g'.genesisId = g.genesisId
  childKeys : ∀ id, (g'.children.lookup id).isSome ↔ (g.children.lookup id).isSome
  children : ∀ p, (g'.childrenOf p).Perm (g.childrenOf p)
  tips : ∀ id, id ∈ g'.tips ↔ id ∈ g.tips
  weights : ∀ id, g'.weights.lookup id = g.weights.lookup id

theorem same_graph (hg : g.WF) (hg' : g'.WF) (hi : g.Indexed) (hi' : g'.Indexed) (hw : g.Weighed)
    (hw' : g'.Weighed) (h : ∀ id, g'.vertices.lookup id = g.vertices.lookup id) :
    SameGraph g g' := by
  have hcont : ∀ id, g'.contains id = g.contains id := by
    intro id
    unfold contains
    rw [h]
  have hmem : ∀ p c, c ∈ g'.childrenOf p ↔ c ∈ g.childrenOf p := by
    intro p c
    rw [hi.children, hi'.children, h]
  have hperm : ∀ p, (g'.childrenOf p).Perm (g.childrenOf p) := fun p =>
    (List.perm_ext_iff_of_nodup (hi'.nodup p) (hi.nodup p)).2 (hmem p)
  refine ⟨genesisId_congr hg hg' h, fun id => ?_, hperm, fun id => ?_,
    lookup_weights_congr hw hw' h⟩
  · rw [hi.keys, hi'.keys, hcont]
  · have hnil : g'.childrenOf id = [] ↔ g.childrenOf id = [] :=
      ⟨fun hnil => (hnil ▸ hperm id).nil_eq.symm, fun hnil => (hnil ▸ hperm id).eq_nil⟩
    rw [hi.tips, hi'.tips, hcont, hnil]

end Graph

section Runs

variable {P : Primitives} {d : KronDAG}

theorem indexed_run (h : KronDAG.withGenesis P = some d) (ops : List Op) :
    (run P d ops).toGraph.Indexed := by
  refine (KronDAG.graph_run (P := P) (fun g => g.WF ∧ g.Indexed)
    (fun g tx hg hcheck => ⟨hg.1.insertVertex hcheck, hg.2.insertVertex hg.1 hcheck⟩) ops
    ⟨Graph.WF_withGenesis h, ?_⟩).2
  obtain ⟨g, -, hgen, -, rfl⟩ := withGenesis_eq h
  exact Graph.indexed_genesis hgen

/-- In every state of a run, whatever the calls were handed and returned, order, children and tips
are what the vertices say, and the node's own check of its tips finds nothing. -/
theorem represented_run (h : KronDAG.withGenesis P = some d) (ops : List Op) :
    (run P d ops).toGraph.Represented ∧ (run P d ops).toGraph.tipsAreConsistent = true :=
  ⟨(indexed_run h ops).represented (wf_run h ops).graph, (indexed_run h ops).tipsAreConsistent⟩

namespace StandIn

/-- A payment to the wallet of the first transfer. -/
def payTransfer : DagTransaction :=
  transfer 12530994446765 2 genesisId genesisId (address 1) 100000 0

theorem isTransfer_pay : ∀ tx ∈ [payTransfer, firstTransfer], IsTransfer tx :=
  List.forall_mem_cons.2
    ⟨isTransfer_transfer .., List.forall_mem_singleton.2 (isTransfer_transfer ..)⟩

def payFirstOps : List Op :=
  [.credit (address 2) 1000000, .accept payTransfer, .accept firstTransfer]

def payLastOps : List Op :=
  [.credit (address 2) 1000000, .accept firstTransfer, .accept payTransfer]

def payFirstDag : KronDAG := acceptAll (fundedDag 2 1000000) [payTransfer, firstTransfer]

def payLastDag : KronDAG := acceptAll (fundedDag 2 1000000) [firstTransfer, payTransfer]

theorem run_payFirstOps : run primitives genesisDag payFirstOps = payFirstDag := by
  have h := run_funded 2 1000000 isTransfer_pay (by decide)
  exact h

theorem run_payLastOps : run primitives genesisDag payLastOps = payLastDag := by
  have h := run_funded 2 1000000 (fun tx htx => isTransfer_pay tx
    ((List.Perm.swap payTransfer firstTransfer []).mem_iff.1 htx)) (by decide)
  exact h

/-- Both orders store the same vertices. -/
theorem lookup_payOps (id : TxHash) : (run primitives genesisDag payFirstOps).vertices.lookup id
    = (run primitives genesisDag payLastOps).vertices.lookup id := by
  rw [run_payFirstOps, run_payLastOps]
  exact lookup_acceptPair_swap (by decide) isTransfer_pay (by decide) (by decide) id

end StandIn

open StandIn in
theorem represented_run_payFirstOps :
    (run primitives genesisDag payFirstOps).toGraph.Represented
      ∧ (run primitives genesisDag payFirstOps).toGraph.tipsAreConsistent = true :=
  represented_run withGenesis_genesisDag payFirstOps

/-- Two runs that store the same vertices, by whatever calls and in whatever order, have the same
genesis vertex, children, tips and weights. -/
theorem same_graph_run (h : KronDAG.withGenesis P = some d) (ops ops' : List Op)
    (hvertices : ∀ id, (run P d ops').vertices.lookup id = (run P d ops).vertices.lookup id) :
    Graph.SameGraph (run P d ops).toGraph (run P d ops').toGraph :=
  Graph.same_graph (wf_run h ops).graph (wf_run h ops').graph (indexed_run h ops)
    (indexed_run h ops') (weighed_run h ops) (weighed_run h ops') hvertices

open StandIn in
theorem same_graph_run_payOps :
    Graph.SameGraph (run primitives genesisDag payLastOps).toGraph
      (run primitives genesisDag payFirstOps).toGraph :=
  same_graph_run withGenesis_genesisDag payLastOps payFirstOps lookup_payOps

end Runs

end KronMesh
