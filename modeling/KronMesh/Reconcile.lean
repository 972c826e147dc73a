import KronMesh.Lib.Search
import KronMesh.Indexes

/-!
# What a node advertises, needs and has

A node advertises its tips and their parent closures, each cut off after so many vertices. The
other side needs what is advertised and not stored, and has what it stores below its own tips down
to what is advertised.
-/

namespace KronMesh

open Word Outcome Wire

/-- Pushes the parents that are not the dummy one; the head of the stack is its top. -/
def pushedParents (vertices : AList fun _ : TxHash => DagTransaction) (cur : TxHash) :
    List TxHash :=
  match vertices.lookup cur with
  | some tx =>
    (if tx.parent2 ≠ nullParent then [tx.parent2] else [])
      ++ if tx.parent1 ≠ nullParent then [tx.parent1] else []
  | none => []

/-- Two pushes for each of the vertices visited, the one to begin with, and the turn that ends. -/
def closureFuel : ℕ := 2 * ancestorWalkBound + 2

namespace Graph

/-- All vertices reached by walking parents from `id`. The vertex at which the walk is cut is in,
its parents are not looked at. -/
def parentClosure (g : Graph) (id : TxHash) : List TxHash :=
  Search.walkUpTo (pushedParents g.vertices) ancestorWalkBound closureFuel [id] []

/-- Bodies for `ids`, unknown ones left out. -/
def transactionsFor (g : Graph) (ids : List TxHash) : List DagTransaction :=
  ids.filterMap fun id => g.vertices.lookup id

/-- Bodies for `ids` in attach order. -/
def transactionsForInOrder (g : Graph) (ids : List TxHash) : List DagTransaction :=
  (g.attachOrder.filter fun id => ids.contains id).filterMap fun id => g.vertices.lookup id

end Graph

/-- Hard cap on the hashes advertised. -/
def maxInventoryHashes : ℕ := 4096

structure SyncInventory where
  tips : List TxHash
  recent : List TxHash
  peerId : Option Address
  deriving DecidableEq

namespace SyncInventory

def fromDag (dag : Graph) (peerId : Address) : SyncInventory :=
  let tips := dag.tips.insertionSort (· ≤ ·)
  let genesis := dag.genesisIdOr
  let recent := ((tips.flatMap dag.parentClosure).filter fun h =>
    ¬ (h = genesis ∨ h = nullParent)).foldl setInsert []
  { tips := tips
    recent := recent.insertionSort (· ≤ ·)
    peerId := some peerId }

/-- Tips and recent hashes, each once. -/
def advertised (inventory : SyncInventory) : List TxHash :=
  (inventory.tips ++ inventory.recent).foldl setInsert []

end SyncInventory

/-- What a tip of the other side adds to the hashes needed: a parent that is missing of a vertex
that is stored, else the tip. -/
def needTip (g : Graph) (need : List TxHash) (tip : TxHash) : List TxHash :=
  if tip = nullParent then need
  else
    match g.vertices.lookup tip with
    | some tx =>
      [tx.parent1, tx.parent2].foldl
        (fun need p => if p ≠ nullParent ∧ g.contains p = false then setInsert need p else need)
        need
    | none =>
      if tip = g.genesisIdOr ∧ g.contains g.genesisIdOr = true then need else setInsert need tip

def needRecent (g : Graph) (need : List TxHash) (h : TxHash) : List TxHash :=
  if h = nullParent then need
  else if g.contains h = true then need
  else if h = g.genesisIdOr ∧ g.contains g.genesisIdOr = true then need
  else setInsert need h

def collectNeed (g : Graph) (remote : SyncInventory) : List TxHash :=
  (remote.recent.foldl (needRecent g) (remote.tips.foldl (needTip g) [])).insertionSort (· ≤ ·)

/-- The walk for what a node has turns back here. -/
def haveStops (g : Graph) (advertised : List TxHash) (h : TxHash) : Bool :=
  h == nullParent || h == g.genesisIdOr || advertised.contains h || !g.contains h

/-- The parents it goes on to. -/
def haveNext (g : Graph) (advertised : List TxHash) (h : TxHash) : List TxHash :=
  if haveStops g advertised h then [] else pushParentsOf g.vertices h []

/-- One walk from each tip, over what the walks before have not seen. Every vertex is pushed twice
at the most. -/
def collectHave (g : Graph) (advertised : List TxHash) : List TxHash :=
  let fuel := 2 * g.vertices.entries.length + 2
  let seen := g.tips.foldl
    (fun seen tip => Search.walk (haveNext g advertised) fuel [tip] seen) []
  (seen.filter fun h => !haveStops g advertised h).insertionSort (· ≤ ·)

/-- The hashes to download, and those to send. -/
def computeDagDiff (g : Graph) (remote : SyncInventory) : List TxHash × List TxHash :=
  (collectNeed g remote, collectHave g remote.advertised)

/-- One round in which the bodies needed are merged at once. -/
def exchangeAndMerge (P : Primitives) (localDag : KronDAG) (remote : Graph)
    (remoteInventory : SyncInventory) (carrier : Address) :
    KronDAG × Except (Fault SyncError) ℕ :=
  let need := (computeDagDiff localDag.toGraph remoteInventory).1
  localDag.mergeOfflineGraphs P (remote.transactionsFor need) carrier

/-! ## The parent closure -/

namespace Graph

variable {g : Graph} {id x : TxHash}

/-- `h` is `id` or one of its ancestors. -/
def Approves (g : Graph) (id h : TxHash) : Prop := Search.Reaches (pushedParents g.vertices) id h

/-- The parent closure of `id` has at most `n` vertices. -/
def ClosureWithin (g : Graph) (n : ℕ) (id : TxHash) : Prop :=
  ∃ l : List TxHash, l.length ≤ n ∧ ∀ h, g.Approves id h → h ∈ l

theorem mem_pushedParents {p : TxHash} : p ∈ pushedParents g.vertices id ↔
    ∃ tx, g.vertices.lookup id = some tx ∧ p ∈ tx.parents := by
  unfold pushedParents
  rcases g.vertices.lookup id with _ | tx
  · simp
  · simp only [Option.some.injEq, exists_eq_left', mem_parents]
    split_ifs <;> simp <;> grind

theorem length_pushedParents (id : TxHash) : (pushedParents g.vertices id).length ≤ 2 := by
  unfold pushedParents
  rcases g.vertices.lookup id with _ | tx
  · exact Nat.zero_le 2
  · simp only []
    split_ifs <;> simp

/-- The parents of a stored vertex are stored. -/
theorem WF.parents_of_lookup (hg : g.WF) {tx : DagTransaction}
    (hl : g.vertices.lookup id = some tx) :
    ∀ p ∈ tx.parents, g.contains p = true := by
  intro p hp
  obtain ⟨hnull, hp⟩ := mem_parents.1 hp
  have hp := hp.imp Eq.symm Eq.symm
  have hid : g.contains id = true := contains_iff.2 ⟨tx, hl⟩
  exact hg.closed id tx hid hl p (mem_pushParents.2 (.inr ⟨hnull, hp⟩))

theorem WF.within (hg : g.WF) :
    Search.Within (pushedParents g.vertices) (fun id => g.contains id = true) g.attachOrder := by
  refine ⟨fun id _ p hp => ?_, fun id hid => (hg.mem_order id).2 hid⟩
  obtain ⟨tx, hl, hp⟩ := mem_pushedParents.1 hp
  exact hg.parents_of_lookup hl p hp

theorem WF.contains_of_approves (hg : g.WF) (hid : g.contains id = true) (h : g.Approves id x) :
    g.contains x = true := by
  induction h with
  | refl => exact hid
  | tail _ hp ih => exact hg.within.closed _ ih _ hp

/-- What a cut walk finds is stored above the tip. -/
theorem approves_of_mem_parentClosure (h : x ∈ g.parentClosure id) : g.Approves id x := by
  rcases Search.reaches_of_mem_walkUpTo closureFuel [id] [] h with h | ⟨y, hy, h⟩
  · exact absurd h List.not_mem_nil
  · exact List.mem_singleton.1 hy ▸ h

/-- A closure within the bound is found whole. -/
theorem mem_parentClosure (hb : g.ClosureWithin ancestorWalkBound id) :
    x ∈ g.parentClosure id ↔ g.Approves id x := by
  obtain ⟨l, hl, hmem⟩ := hb
  have hS : Search.Within (pushedParents g.vertices) (g.Approves id) l :=
    ⟨fun x hx y hy => hx.tail hy, hmem⟩
  have hself : g.Approves id id := Relation.ReflTransGen.refl
  have hwalk : g.parentClosure id = Search.walk (pushedParents g.vertices) closureFuel [id] [] :=
    Search.walkUpTo_eq_walk hS hl _ _ _ List.nodup_nil (fun _ h => absurd h List.not_mem_nil)
      (List.forall_mem_singleton.2 hself)
  rw [hwalk]
  refine Search.mem_walk_iff hS length_pushedParents ?_ hself x
  unfold closureFuel
  omega

theorem self_mem_parentClosure (g : Graph) (id : TxHash) : id ∈ g.parentClosure id := by
  unfold parentClosure closureFuel ancestorWalkBound
  rw [Search.walkUpTo, if_neg List.not_mem_nil, if_neg (by decide)]
  exact Search.subset_walkUpTo _ _ _ (List.mem_append_right _ List.mem_cons_self)

/-- A vertex comes behind its parents. -/
theorem Indexed.idxOf_lt (hg : g.WF) (hi : g.Indexed) {tx : DagTransaction}
    (hl : g.vertices.lookup x = some tx) {p : TxHash} (hp : p ∈ tx.parents) :
    g.attachOrder.idxOf p < g.attachOrder.idxOf x := by
  obtain ⟨pre, post, ho⟩ := hg.split_order hl
  have hbefore := hi.earlier ho hl p hp
  have hxpre : x ∉ pre := by
    have hnd := hg.nodup
    rw [ho, List.nodup_append] at hnd
    exact fun hm => hnd.2.2 x hm x List.mem_cons_self rfl
  rw [ho, List.idxOf_append_of_mem hbefore, List.idxOf_append_of_notMem hxpre,
    List.idxOf_cons_self, Nat.add_zero]
  exact List.idxOf_lt_length_of_mem hbefore

/-- Every stored vertex is below a tip. -/
theorem Indexed.exists_tip (hg : g.WF) (hi : g.Indexed) : ∀ {id : TxHash}, g.contains id = true →
    ∃ tip ∈ g.tips, g.Approves tip id := by
  -- by induction on how many vertices came later: a child did
  have hkey : ∀ (n : ℕ) (id : TxHash), g.contains id = true →
      g.attachOrder.length - g.attachOrder.idxOf id ≤ n → ∃ tip ∈ g.tips, g.Approves tip id := by
    intro n
    induction n with
    | zero =>
      intro id hid hn
      have := List.idxOf_lt_length_of_mem ((hg.mem_order id).2 hid)
      omega
    | succ n ih =>
      intro id hid hn
      by_cases hkids : g.childrenOf id = []
      · exact ⟨id, (hi.tips id).2 ⟨hid, hkids⟩, Relation.ReflTransGen.refl⟩
      · obtain ⟨c, hc⟩ := List.exists_mem_of_ne_nil _ hkids
        obtain ⟨tx, hl, hp⟩ := (hi.children id c).1 hc
        have hlt := hi.idxOf_lt hg hl hp
        have hc_lt := List.idxOf_lt_length_of_mem (hg.mem_attachOrder hl)
        obtain ⟨tip, htip, happ⟩ := ih c (contains_iff.2 ⟨tx, hl⟩) (by omega)
        exact ⟨tip, htip, happ.tail (mem_pushedParents.2 ⟨tx, hl, hp⟩)⟩
  exact fun {id} hid => hkey _ id hid le_rfl

end Graph

/-! ## The inventory -/

/-- A loop that adds for each item what `Q` says adds that. -/
theorem mem_foldl_of {α : Type*} {f : List TxHash → α → List TxHash} {Q : α → TxHash → Prop}
    (hf : ∀ s a x, x ∈ f s a ↔ x ∈ s ∨ Q a x) (x : TxHash) : ∀ (l : List α) (s : List TxHash),
      x ∈ l.foldl f s ↔ x ∈ s ∨ ∃ a ∈ l, Q a x
  | [], s => by simp
  | a :: l, s => by
    rw [List.foldl_cons, mem_foldl_of hf x l, hf]
    simp only [List.mem_cons, exists_eq_or_imp, or_assoc]

theorem mem_foldl_setInsert (x : TxHash) (l s : List TxHash) :
    x ∈ l.foldl setInsert s ↔ x ∈ s ∨ x ∈ l := by
  have hf : ∀ s a x, x ∈ setInsert s a ↔ x ∈ s ∨ x = a := fun _ _ _ => Graph.mem_setInsert
  rw [mem_foldl_of hf]
  simp

theorem nodup_foldl_of {α : Type*} {f : List TxHash → α → List TxHash}
    (hf : ∀ s a, s.Nodup → (f s a).Nodup) : ∀ (l : List α) {s : List TxHash}, s.Nodup →
      (l.foldl f s).Nodup
  | [], _, hs => hs
  | a :: l, s, hs => nodup_foldl_of hf l (hf s a hs)

namespace SyncInventory

variable {g : Graph} {a : Address} {x : TxHash}

@[simp] theorem mem_tips_fromDag : x ∈ (fromDag g a).tips ↔ x ∈ g.tips :=
  List.mem_insertionSort _

theorem mem_recent_fromDag : x ∈ (fromDag g a).recent ↔
    (∃ tip ∈ g.tips, x ∈ g.parentClosure tip) ∧ x ≠ g.genesisIdOr ∧ x ≠ nullParent := by
  unfold fromDag
  simp only [List.mem_insertionSort, mem_foldl_setInsert, List.not_mem_nil, false_or,
    List.mem_filter, List.mem_flatMap, decide_eq_true_eq, not_or]

theorem mem_advertised {inventory : SyncInventory} :
    x ∈ inventory.advertised ↔ x ∈ inventory.tips ∨ x ∈ inventory.recent := by
  unfold advertised
  rw [mem_foldl_setInsert, List.mem_append]
  simp

/-- Where no closure is cut, every stored vertex but the genesis is advertised. -/
theorem mem_recent_of_within (hg : g.WF) (hi : g.Indexed)
    (hb : ∀ tip ∈ g.tips, g.ClosureWithin ancestorWalkBound tip) :
    x ∈ (fromDag g a).recent ↔ g.contains x = true ∧ x ≠ g.genesisIdOr ∧ x ≠ nullParent := by
  rw [mem_recent_fromDag]
  refine and_congr_left fun _ => ⟨?_, fun hx => ?_⟩
  · rintro ⟨tip, htip, h⟩
    exact hg.contains_of_approves ((hi.tips tip).1 htip).1 (Graph.approves_of_mem_parentClosure h)
  · obtain ⟨tip, htip, h⟩ := hi.exists_tip hg hx
    exact ⟨tip, htip, (Graph.mem_parentClosure (hb tip htip)).2 h⟩

end SyncInventory

/-! ## What is needed -/

section Need

variable {g : Graph} {inventory : SyncInventory} {x : TxHash}

theorem mem_needTip (hg : g.WF) (need : List TxHash) (tip x : TxHash) :
    x ∈ needTip g need tip ↔
      x ∈ need ∨ x = tip ∧ tip ≠ nullParent ∧ g.contains tip = false := by
  unfold needTip
  by_cases hnull : tip = nullParent
  · simp [hnull]
  rw [if_neg hnull]
  rcases hl : g.vertices.lookup tip with _ | tx
  · have hc : g.contains tip = false := Graph.contains_eq_false.2 hl
    have hgen : ¬ (tip = g.genesisIdOr ∧ g.contains g.genesisIdOr = true) := by
      rintro ⟨rfl, h⟩
      rw [h] at hc
      cases hc
    simp only [if_neg hgen, Graph.mem_setInsert, hnull, hc, ne_eq, not_false_eq_true, and_true]
  · have hc : g.contains tip = true := Graph.contains_iff.2 ⟨tx, hl⟩
    have hpar : ∀ p ∈ [tx.parent1, tx.parent2],
        ¬ (p ≠ nullParent ∧ g.contains p = false) := by
      rintro p hp ⟨hnull, hno⟩
      have hmem : p ∈ tx.parents :=
        Graph.mem_parents.2 ⟨hnull, (List.mem_pair.1 hp).imp Eq.symm Eq.symm⟩
      rw [hg.parents_of_lookup hl p hmem] at hno
      cases hno
    simp only [List.foldl_cons, List.foldl_nil, if_neg (hpar _ List.mem_cons_self),
      if_neg (hpar _ (List.mem_cons_of_mem _ List.mem_cons_self))]
    simp [hc]

theorem mem_needRecent (need : List TxHash) (h x : TxHash) :
    x ∈ needRecent g need h ↔ x ∈ need ∨ x = h ∧ h ≠ nullParent ∧ g.contains h = false := by
  unfold needRecent
  split_ifs with hnull hc hgen
  · simp [hnull]
  · simp [hc]
  · rw [← hgen.1] at hgen
    exact absurd hgen.2 hc
  · rw [Graph.mem_setInsert]
    simp [hnull, hc]

/-- What is advertised and not stored is needed. -/
theorem mem_collectNeed (hg : g.WF) : x ∈ collectNeed g inventory ↔
    (x ∈ inventory.tips ∨ x ∈ inventory.recent) ∧ x ≠ nullParent ∧ g.contains x = false := by
  unfold collectNeed
  rw [List.mem_insertionSort, mem_foldl_of mem_needRecent, mem_foldl_of (mem_needTip hg)]
  simp only [List.not_mem_nil, false_or]
  constructor
  · rintro (⟨h, hh, rfl, hx⟩ | ⟨h, hh, rfl, hx⟩)
    · exact ⟨.inl hh, hx⟩
    · exact ⟨.inr hh, hx⟩
  · rintro ⟨hh | hh, hx⟩
    · exact .inl ⟨x, hh, rfl, hx⟩
    · exact .inr ⟨x, hh, rfl, hx⟩

theorem nodup_collectNeed : (collectNeed g inventory).Nodup := by
  have htip : ∀ (need : List TxHash) tip, need.Nodup → (needTip g need tip).Nodup := by
    intro need tip hnd
    unfold needTip
    by_cases hnull : tip = nullParent
    · rwa [if_pos hnull]
    rw [if_neg hnull]
    rcases g.vertices.lookup tip with _ | tx
    · simp only []
      split_ifs
      · exact hnd
      · exact Graph.nodup_setInsert hnd tip
    · refine nodup_foldl_of (fun s p hs => ?_) _ hnd
      split_ifs
      · exact Graph.nodup_setInsert hs p
      · exact hs
  have hrecent : ∀ (need : List TxHash) h, need.Nodup → (needRecent g need h).Nodup := by
    intro need h hnd
    unfold needRecent
    split_ifs
    · exact hnd
    · exact hnd
    · exact hnd
    · exact Graph.nodup_setInsert hnd h
  unfold collectNeed
  rw [(List.perm_insertionSort _ _).nodup_iff]
  exact nodup_foldl_of hrecent _ (nodup_foldl_of htip _ List.nodup_nil)

end Need

/-! ## What is had -/

namespace Graph

/-- What `g` advertises: its tips, and what their closures hold beside the genesis vertex. -/
def Advertises (g : Graph) (h : TxHash) : Prop :=
  h ∈ g.tips ∨ (∃ tip ∈ g.tips, h ∈ g.parentClosure tip) ∧ h ≠ g.genesisIdOr ∧ h ≠ nullParent

/-- Stored, and neither the genesis vertex nor advertised by `r`. -/
def Unlisted (g r : Graph) (h : TxHash) : Prop :=
  g.contains h = true ∧ h ≠ nullParent ∧ h ≠ g.genesisIdOr ∧ ¬ r.Advertises h

/-- The tip subgraph of `g` that `r` does not advertise. -/
inductive Unshared (g r : Graph) : TxHash → Prop
  | tip {h : TxHash} : h ∈ g.tips → g.Unlisted r h → Unshared g r h
  | parent {h p : TxHash} :
    Unshared g r h → p ∈ pushedParents g.vertices h → g.Unlisted r p → Unshared g r p

end Graph

section Have

variable {g r : Graph} {a : Address} {advertised : List TxHash} {x : TxHash}

theorem haveStops_eq_false : haveStops g advertised x = false ↔
    g.contains x = true ∧ x ≠ nullParent ∧ x ≠ g.genesisIdOr ∧ x ∉ advertised := by
  unfold haveStops
  simp [and_comm, and_left_comm]

theorem mem_haveNext {y : TxHash} : y ∈ haveNext g advertised x ↔
    haveStops g advertised x = false ∧ y ∈ pushedParents g.vertices x := by
  unfold haveNext
  rw [Graph.mem_pushedParents]
  split_ifs with hstop
  · simp [hstop]
  · rw [Bool.not_eq_true] at hstop
    unfold pushParentsOf
    rcases g.vertices.lookup x with _ | tx
    · simp
    · simp [hstop, mem_pushParents, Graph.mem_parents, eq_comm]

theorem length_haveNext (advertised : List TxHash) (x : TxHash) :
    (haveNext g advertised x).length ≤ 2 := by
  unfold haveNext pushParentsOf pushParents
  rcases g.vertices.lookup x with _ | tx
  · simp
  · simp only []
    split_ifs <;> simp

theorem within_haveNext (hg : g.WF) :
    Search.Within (haveNext g advertised) (fun id => g.contains id = true) g.attachOrder :=
  ⟨fun x hx y hy => hg.within.closed x hx y (mem_haveNext.1 hy).2, hg.within.mem⟩

/-- What is had: what a walk from a tip reaches, and does not turn back at. -/
theorem mem_collectHave_iff (hg : g.WF) (hi : g.Indexed) : x ∈ collectHave g advertised ↔
    (∃ tip ∈ g.tips, Search.Reaches (haveNext g advertised) tip x)
      ∧ haveStops g advertised x = false := by
  have hlen : g.attachOrder.length = g.vertices.entries.length := by
    rw [hg.order_perm.length_eq, List.length_map]
  unfold collectHave
  rw [List.mem_insertionSort, List.mem_filter, Bool.not_eq_true',
    Search.mem_foldl_walk_iff (within_haveNext hg) (length_haveNext _) (by rw [hlen])
      fun tip htip => ((hi.tips tip).1 htip).1]

theorem mem_advertised_fromDag : x ∈ (SyncInventory.fromDag g a).advertised ↔ g.Advertises x := by
  rw [SyncInventory.mem_advertised, SyncInventory.mem_tips_fromDag,
    SyncInventory.mem_recent_fromDag]
  rfl

theorem haveStops_fromDag :
    haveStops g (SyncInventory.fromDag r a).advertised x = false ↔ g.Unlisted r x := by
  rw [haveStops_eq_false, mem_advertised_fromDag]
  rfl

theorem mem_collectHave (hg : g.WF) (hi : g.Indexed) :
    x ∈ collectHave g (SyncInventory.fromDag r a).advertised ↔ g.Unshared r x := by
  rw [mem_collectHave_iff hg hi, haveStops_fromDag]
  constructor
  · rintro ⟨⟨tip, htip, hreach⟩, hx⟩
    induction hreach with
    | refl => exact .tip htip hx
    | tail _ hp ih =>
      obtain ⟨hy, hp⟩ := mem_haveNext.1 hp
      exact .parent (ih (haveStops_fromDag.1 hy)) hp hx
  · intro h
    induction h with
    | tip htip hx => exact ⟨⟨_, htip, Relation.ReflTransGen.refl⟩, hx⟩
    | parent _ hp hx ih =>
      obtain ⟨⟨tip, htip, hreach⟩, hy⟩ := ih
      exact ⟨⟨tip, htip, hreach.tail (mem_haveNext.2 ⟨haveStops_fromDag.2 hy, hp⟩)⟩, hx⟩

theorem nodup_collectHave (advertised : List TxHash) : (collectHave g advertised).Nodup := by
  unfold collectHave
  rw [(List.perm_insertionSort _ _).nodup_iff]
  refine List.Nodup.filter _ (nodup_foldl_of (fun seen tip hs => ?_) _ List.nodup_nil)
  exact Search.nodup_walk _ _ seen hs

/-- What is had comes in order, each once. -/
theorem pairwise_collectHave (advertised : List TxHash) :
    (collectHave g advertised).Pairwise (· < ·) := by
  have hle : (collectHave g advertised).Pairwise (· ≤ ·) := List.pairwise_insertionSort _ _
  exact List.Pairwise.imp₂ (fun _ _ hxy hne => BitVec.lt_of_le_ne hxy hne) hle
    (nodup_collectHave advertised)

/-- What the other side lacks is had: no path down to it is cut, for a vertex at which one could
turn back is stored there with all that is below. -/
theorem mem_collectHave_of_notMem (hg : g.WF) (hi : g.Indexed)
    (hnull : g.contains nullParent = false) {R : Set TxHash} (hgenesis : g.genesisIdOr ∈ R)
    (hclosed : ∀ id tx, id ∈ R → g.vertices.lookup id = some tx → ∀ p ∈ tx.parents, p ∈ R)
    (hsub : ∀ id ∈ advertised, id ∈ R) (hx : g.contains x = true) (hR : x ∉ R) :
    x ∈ collectHave g advertised := by
  have hgoes : ∀ y, g.contains y = true → y ∉ R → haveStops g advertised y = false := by
    intro y hy hyR
    refine haveStops_eq_false.2 ⟨hy, ?_, fun h => hyR (h ▸ hgenesis), fun h => hyR (hsub y h)⟩
    rintro rfl
    rw [hnull] at hy
    cases hy
  obtain ⟨tip, htip, hpath⟩ := hi.exists_tip hg hx
  refine (mem_collectHave_iff hg hi).2 ⟨⟨tip, htip, ?_⟩, hgoes x hx hR⟩
  clear htip
  induction hpath with
  | refl => exact Relation.ReflTransGen.refl
  | @tail y z _ hp ih =>
    obtain ⟨tx, hl, hp'⟩ := Graph.mem_pushedParents.1 hp
    have hyR : y ∉ R := fun h => hR (hclosed y tx h hl z hp')
    have hy : g.contains y = true := Graph.contains_iff.2 ⟨tx, hl⟩
    exact (ih hy hyR).tail (mem_haveNext.2 ⟨hgoes y hy hyR, hp⟩)

end Have

section Runs

variable {P : Primitives} {d : KronDAG}

/-- Let `R` be what the other side stores and `advertised` any part of it. In every state of a run
that stores nothing under the dummy parent, what is had comes in strictly increasing order, misses
no vertex outside `R`, and has stored vertices only, not advertised, the genesis vertex not among
them. -/
theorem collect_have_run (h : KronDAG.withGenesis P = some d) (ops : List Op)
    (hnull : (run P d ops).contains nullParent = false) (R : Set TxHash)
    (hgenesis : (run P d ops).genesisIdOr ∈ R)
    (hclosed : ∀ id tx, id ∈ R → (run P d ops).vertices.lookup id = some tx →
      ∀ p ∈ tx.parents, p ∈ R)
    (advertised : List TxHash) (hsub : ∀ id ∈ advertised, id ∈ R) :
    (collectHave (run P d ops).toGraph advertised).Pairwise (· < ·)
      ∧ (∀ x, (run P d ops).contains x = true → x ∉ R →
        x ∈ collectHave (run P d ops).toGraph advertised)
      ∧ ∀ x ∈ collectHave (run P d ops).toGraph advertised, (run P d ops).contains x = true
        ∧ x ∉ advertised ∧ x ≠ (run P d ops).genesisIdOr := by
  have hg := (wf_run h ops).graph
  have hi := indexed_run h ops
  refine ⟨pairwise_collectHave advertised, fun x hx hR =>
    mem_collectHave_of_notMem hg hi hnull hgenesis hclosed hsub hx hR, fun x hx => ?_⟩
  obtain ⟨hc, -, hne, hmem⟩ := haveStops_eq_false.1 ((mem_collectHave_iff hg hi).1 hx).2
  exact ⟨hc, hmem, hne⟩

open StandIn in
theorem collect_have_run_firstOps :
    firstTransfer.id ∈ collectHave (run primitives genesisDag firstOps).toGraph [genesisId] := by
  have hnull : (run primitives genesisDag firstOps).contains nullParent = false := by
    rw [run_firstOps]
    decide
  have hgenesis : (run primitives genesisDag firstOps).genesisIdOr = genesisId := by
    rw [run_firstOps]
    decide
  have hlookup : (run primitives genesisDag firstOps).vertices.lookup genesisId
      = some genesisTx := by
    rw [run_firstOps]
    rfl
  refine (collect_have_run withGenesis_genesisDag firstOps hnull {genesisId} hgenesis ?_ [genesisId]
    fun id hid => List.mem_singleton.1 hid).2.1 _ ?_ ?_
  · rintro id tx rfl hl p hp
    obtain rfl := Option.some.inj (hlookup.symm.trans hl)
    rw [show genesisTx.parents = [] by decide] at hp
    cases hp
  · rw [run_firstOps]
    decide
  · decide

end Runs

end KronMesh
