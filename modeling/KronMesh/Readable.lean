import KronMesh.MeshWire
import KronMesh.StandInTree
import Mathlib.Data.Set.Card

/-!
# What the other side can read

The decoder caps a list of hashes and an inventory at `maxInventoryHashes`; those who send them cap
neither. So a round can be read exactly when three sets of vertices are small enough: what one
advertises beside its tips, what of the other it lacks, and what it has and the other does not
advertise.
-/

namespace KronMesh

open Word Outcome Wire

theorem length_eq_ncard {l : List TxHash} {S : Set TxHash} (hnd : l.Nodup)
    (h : ∀ x, x ∈ l ↔ x ∈ S) : l.length = S.ncard := by
  have hS : S = (l.toFinset : Set TxHash) := Set.ext fun x => by simp [h]
  rw [hS, Set.ncard_coe_finset, List.toFinset_card_of_nodup hnd]

namespace Graph

variable {P : Primitives} {start g r : Graph} {a b : Address}

/-- What `g` lists beside its tips. -/
def recentSet (g : Graph) : Set TxHash :=
  {x | (∃ tip ∈ g.tips, x ∈ g.parentClosure tip) ∧ x ≠ g.genesisIdOr ∧ x ≠ nullParent}

/-- What `r` lists and `g` does not store. -/
def lackedSet (g r : Graph) : Set TxHash :=
  {x | r.Advertises x ∧ x ≠ nullParent ∧ g.contains x = false}

theorem length_tips_fromDag : (SyncInventory.fromDag g a).tips.length = g.tips.length :=
  (List.perm_insertionSort _ _).length_eq

theorem length_recent_fromDag :
    (SyncInventory.fromDag g a).recent.length = g.recentSet.ncard := by
  refine length_eq_ncard ?_ fun x => SyncInventory.mem_recent_fromDag
  have hset : ∀ (s : List TxHash) (x : TxHash), s.Nodup → (setInsert s x).Nodup :=
    fun s x hs => nodup_setInsert hs x
  unfold SyncInventory.fromDag
  rw [(List.perm_insertionSort _ _).nodup_iff]
  exact nodup_foldl_of hset _ List.nodup_nil

theorem length_need (hg : g.WF) :
    (computeDagDiff g (SyncInventory.fromDag r b)).1.length = (g.lackedSet r).ncard := by
  refine length_eq_ncard nodup_collectNeed fun x => ?_
  show x ∈ collectNeed g (SyncInventory.fromDag r b) ↔ _
  rw [mem_collectNeed hg, ← SyncInventory.mem_advertised, mem_advertised_fromDag]
  rfl

theorem length_have (hg : g.WF) (hi : g.Indexed) :
    (computeDagDiff g (SyncInventory.fromDag r b)).2.length = {x | g.Unshared r x}.ncard :=
  length_eq_ncard (nodup_collectHave _) fun _ => mem_collectHave hg hi

/-- The messages of a node can be read exactly when what they list is within the cap. -/
theorem readable_iff (hg : g.WF) (hi : g.Indexed) :
    ((MeshWireMessage.syncInventory (SyncInventory.fromDag g a)).Readable P
      ∧ (MeshWireMessage.needIds
        (computeDagDiff g (SyncInventory.fromDag r b)).1).Readable P
      ∧ (MeshWireMessage.haveIds
        (computeDagDiff g (SyncInventory.fromDag r b)).2).Readable P) ↔
      g.tips.length + g.recentSet.ncard ≤ maxInventoryHashes
        ∧ (g.lackedSet r).ncard ≤ maxInventoryHashes
        ∧ {x | g.Unshared r x}.ncard ≤ maxInventoryHashes := by
  rw [readable_syncInventory, readable_needIds, readable_haveIds, length_tips_fromDag,
    length_recent_fromDag, length_need hg, length_have hg hi]

/-! ## Small graphs -/

theorem ncard_le_of_stored (hg : g.WF) {S : Set TxHash} (h : ∀ x ∈ S, g.contains x = true) :
    S.ncard ≤ g.vertices.entries.length := by
  have hsub : S ⊆ (g.attachOrder.toFinset : Set TxHash) := by
    intro x hx
    rw [List.coe_toFinset, Set.mem_ofPred_eq, hg.mem_order]
    exact h x hx
  have hle := Set.ncard_le_ncard hsub (Finset.finite_toSet _)
  rw [Set.ncard_coe_finset, List.toFinset_card_of_nodup hg.nodup, hg.order_perm.length_eq,
    List.length_map] at hle
  exact hle

/-- What two small graphs list is within the cap. -/
theorem counts_of_small (hg : g.Grown P start) (hr : r.Grown P start)
    (hn : 2 * g.vertices.entries.length ≤ maxInventoryHashes)
    (hm : r.vertices.entries.length ≤ maxInventoryHashes) :
    g.tips.length + g.recentSet.ncard ≤ maxInventoryHashes
      ∧ (g.lackedSet r).ncard ≤ maxInventoryHashes
      ∧ {x | g.Unshared r x}.ncard ≤ maxInventoryHashes := by
  have hclosure : ∀ {g : Graph}, g.Grown P start → ∀ {x tip}, tip ∈ g.tips →
      x ∈ g.parentClosure tip → g.contains x = true := fun hg _ _ htip hx =>
    hg.wf.contains_of_approves ((hg.indexed.tips _).1 htip).1 (approves_of_mem_parentClosure hx)
  have htips : g.tips.length ≤ g.vertices.entries.length := by
    rw [length_eq_ncard (S := {x | x ∈ g.tips}) hg.tips_nodup fun _ => Iff.rfl]
    exact ncard_le_of_stored hg.wf fun x hx => ((hg.indexed.tips x).1 hx).1
  have hrecent : g.recentSet.ncard ≤ g.vertices.entries.length := by
    refine ncard_le_of_stored hg.wf fun x hx => ?_
    obtain ⟨⟨tip, htip, hx⟩, -⟩ := hx
    exact hclosure hg htip hx
  have hlacked : (g.lackedSet r).ncard ≤ r.vertices.entries.length := by
    refine ncard_le_of_stored hr.wf fun x hx => ?_
    obtain ⟨hx | ⟨⟨tip, htip, hx⟩, -⟩, -⟩ := hx
    · exact ((hr.indexed.tips x).1 hx).1
    · exact hclosure hr htip hx
  have hunshared : {x | g.Unshared r x}.ncard ≤ g.vertices.entries.length := by
    refine ncard_le_of_stored hg.wf fun x hx => ?_
    have hx : g.Unshared r x := hx
    cases hx with
    | tip _ hx => exact hx.1
    | parent _ _ hx => exact hx.1
  exact ⟨by omega, by omega, by omega⟩

end Graph

/-! ## Runs -/

section Runs

variable {P : Primitives} {d : KronDAG}

/-- For any two runs from one genesis: the inventory of the first, and what it needs and has of the
second, can be read exactly when what they list is within the cap. -/
theorem readable_run_iff (h : KronDAG.withGenesis P = some d) (ops ops' : List Op) (a b : Address)
    {s r : KronDAG} (hs : run P d ops = s) (hr : run P d ops' = r) :
    ((MeshWireMessage.syncInventory (SyncInventory.fromDag s.toGraph a)).Readable P
      ∧ (MeshWireMessage.needIds
        (computeDagDiff s.toGraph (SyncInventory.fromDag r.toGraph b)).1).Readable P
      ∧ (MeshWireMessage.haveIds
        (computeDagDiff s.toGraph (SyncInventory.fromDag r.toGraph b)).2).Readable P) ↔
      s.tips.length + s.toGraph.recentSet.ncard ≤ maxInventoryHashes
        ∧ (s.toGraph.lackedSet r.toGraph).ncard ≤ maxInventoryHashes
        ∧ {x | s.toGraph.Unshared r.toGraph x}.ncard ≤ maxInventoryHashes := by
  subst hs hr
  have hs := grown_run h ops
  exact Graph.readable_iff hs.wf hs.indexed

open StandIn in
/-- What the genesis state and one of three vertices on it say to each other. -/
theorem readable_run_iff_fan :
    (MeshWireMessage.syncInventory (SyncInventory.fromDag rootDag.toGraph 0)).Readable wide
      ∧ (MeshWireMessage.needIds (computeDagDiff rootDag.toGraph
        (SyncInventory.fromDag (tree fan 3).toGraph 0)).1).Readable wide
      ∧ (MeshWireMessage.haveIds (computeDagDiff rootDag.toGraph
        (SyncInventory.fromDag (tree fan 3).toGraph 0)).2).Readable wide := by
  refine (readable_run_iff (r := tree fan 3) withGenesis_rootDag [] (treeOps fan 3) 0 0 rfl rfl).2
    (Graph.counts_of_small (grown_withGenesis withGenesis_rootDag) (grown_tree fan 3) (by decide)
      ?_)
  rw [length_tree fan_lt (by decide)]
  decide

namespace StandIn

theorem le_length_of_nodeId {n : ℕ} (hn : n < 2 ^ 63) {l : List TxHash}
    (h : ∀ i < n, nodeId (i + 1) ∈ l) : n ≤ l.length := by
  have hnd : ((List.range n).map fun i => nodeId (i + 1)).Nodup := by
    refine (List.nodup_map_iff_inj_on List.nodup_range).2 fun i hi j hj he => ?_
    rw [List.mem_range] at hi hj
    rw [nodeId_inj (by omega) (by omega)] at he
    omega
  have hsub : ((List.range n).map fun i => nodeId (i + 1)) ⊆ l := by
    intro x hx
    obtain ⟨i, hi, rfl⟩ := List.mem_map.1 hx
    exact h i (List.mem_range.1 hi)
  have hle := (hnd.subperm hsub).length_le
  rwa [List.length_map, List.length_range] at hle

theorem mem_tips_fan {n i : ℕ} (hn : n < 2 ^ 63) (hi : i < n) :
    nodeId (i + 1) ∈ (tree fan n).tips :=
  (mem_tips_tree fan_lt hn _).2 ⟨i + 1, hi, rfl, fun _ _ => (Nat.succ_ne_zero i).symm⟩

/-- To a node with the genesis vertex alone all else of a fan is unshared. -/
theorem unshared_fan {n i : ℕ} (hn : n < 2 ^ 63) (hi : i < n) :
    (tree fan n).toGraph.Unshared rootDag.toGraph (nodeId (i + 1)) := by
  have hr := grown_tree fan n
  have hs : rootDag.toGraph.Grown wide rootDag.toGraph := grown_withGenesis withGenesis_rootDag
  have hno : rootDag.contains (nodeId (i + 1)) = false :=
    not_contains_rootDag (by omega) (Nat.succ_ne_zero i)
  have htip := mem_tips_fan hn hi
  refine .tip htip ⟨((hr.indexed.tips _).1 htip).1, nodeId_ne_null (by omega), ?_, ?_⟩
  · intro h
    have hgen := hs.contains_genesis
    rw [hs.genesisIdOr_eq hr, ← h, hno] at hgen
    cases hgen
  · intro h
    have hcont : rootDag.contains (nodeId (i + 1)) = true := by
      rcases h with h | ⟨⟨tip, htip, h⟩, -⟩
      · exact ((hs.indexed.tips _).1 h).1
      · exact hs.wf.contains_of_approves ((hs.indexed.tips _).1 htip).1
          (Graph.approves_of_mem_parentClosure h)
    rw [hno] at hcont
    cases hcont

theorem unreadable_fan {n : ℕ} (hn : n < 2 ^ 63) (hlt : maxInventoryHashes < n) :
    ¬ (MeshWireMessage.syncInventory (SyncInventory.fromDag (tree fan n).toGraph 0)).Readable wide
      ∧ ¬ (MeshWireMessage.haveIds (computeDagDiff (tree fan n).toGraph
        (SyncInventory.fromDag rootDag.toGraph 0)).2).Readable wide := by
  have hr := grown_tree fan n
  rw [readable_syncInventory, readable_haveIds]
  constructor
  · have hle : n ≤ (SyncInventory.fromDag (tree fan n).toGraph 0).tips.length :=
      le_length_of_nodeId hn fun i hi => SyncInventory.mem_tips_fromDag.2 (mem_tips_fan hn hi)
    omega
  · have hle : n ≤ (computeDagDiff (tree fan n).toGraph
        (SyncInventory.fromDag rootDag.toGraph 0)).2.length :=
      le_length_of_nodeId hn fun i hi =>
        (mem_collectHave hr.wf hr.indexed).2 (unshared_fan hn hi)
    omega

/-- Of 4097 vertices on the genesis one all are tips: the inventory is no longer read, nor is what
they are to a node that has the genesis vertex alone. -/
theorem inventory_unreadable :
    KronDAG.withGenesis wide = some rootDag
      ∧ run wide rootDag (treeOps fan 4097) = tree fan 4097
      ∧ ¬ (MeshWireMessage.syncInventory
        (SyncInventory.fromDag (tree fan 4097).toGraph 0)).Readable wide
      ∧ ¬ (MeshWireMessage.haveIds (computeDagDiff (tree fan 4097).toGraph
        (SyncInventory.fromDag rootDag.toGraph 0)).2).Readable wide :=
  ⟨withGenesis_rootDag, rfl, unreadable_fan (by decide) (by decide)⟩

end StandIn

end Runs

end KronMesh
