import KronMesh.StandInTree

/-!
# Catching up in one round

Between any two runs from one genesis. Where the parent closures of the other side's tips are within
the bound, a round ends in the union. A deeper history is advertised down to the bound only, and
where the vertex below is lacked too the round ends with nothing stored.
-/

namespace KronMesh

open Word Outcome Wire

section Runs

variable {P : Primitives} {d : KronDAG}

/-- For any two runs from one genesis, the parent closures of the tips of the second within the
bound: a round leaves the first with the vertices of both, and ends in an overflow of the rebuild
or in the number of those it lacked, or in the end of a word. -/
theorem exchange_union_run (h : KronDAG.withGenesis P = some d) (ops ops' : List Op)
    (peerId carrier : Address) {s r : KronDAG} (hs : run P d ops = s) (hr : run P d ops' = r)
    (hnull : ∀ x, r.contains x = true → x ≠ nullParent)
    (hb : ∀ tip ∈ r.tips, r.toGraph.ClosureWithin ancestorWalkBound tip) :
    (∀ x, (exchangeAndMerge P s r.toGraph (SyncInventory.fromDag r.toGraph peerId)
        carrier).1.vertices.lookup x = (s.vertices.lookup x).or (r.vertices.lookup x))
      ∧ ((exchangeAndMerge P s r.toGraph (SyncInventory.fromDag r.toGraph peerId) carrier).2
          = .error (.err (.attach .overflow))
        ∨ (exchangeAndMerge P s r.toGraph (SyncInventory.fromDag r.toGraph peerId) carrier).2
          = .ok (min (r.vertices.entries.countP fun e => !s.contains e.1) (2 ^ 32 - 1))) := by
  have hs' : s.toGraph.Grown P d.toGraph := hs ▸ grown_run h ops
  have hr' : r.toGraph.Grown P d.toGraph := hr ▸ grown_run h ops'
  obtain ⟨hlook, hres⟩ := exchange_joined hs' hr' (Graph.joined_of_within hs' hr' hnull hb) carrier
  refine ⟨fun x => ?_, ?_⟩
  · refine Option.ext fun tx => ?_
    rw [hlook, Option.or_eq_some_iff, Graph.mem_lacks_of_within hs' hr' hnull hb]
    refine or_congr_right ?_
    constructor
    · rintro ⟨⟨-, hno⟩, hl⟩
      exact ⟨Graph.contains_eq_false.1 hno, hl⟩
    · rintro ⟨hno, hl⟩
      exact ⟨⟨Graph.contains_iff.2 ⟨tx, hl⟩, Graph.contains_eq_false.2 hno⟩, hl⟩
  · rwa [Graph.length_lacks_of_within hs' hr' hnull hb] at hres

open StandIn in
/-- Three vertices under one genesis vertex are taken over. -/
theorem exchange_union_run_fan : (exchangeAndMerge wide rootDag (tree fan 3).toGraph
    (SyncInventory.fromDag (tree fan 3).toGraph 0) 0).1.vertices.lookup (nodeId 3)
      = some (node fan 3) := by
  have hn : 3 < 2 ^ 63 := by decide
  have hl : (tree fan 3).vertices.lookup (nodeId 3) = some (node fan 3) :=
    (lookup_tree fan_lt hn _ _).2 ⟨3, le_rfl, rfl, rfl⟩
  have hroot : rootDag.vertices.lookup (nodeId 3) = none :=
    Graph.contains_eq_false.1 (not_contains_rootDag (by decide) (by decide))
  have hunion := (exchange_union_run (s := rootDag) (r := tree fan 3) withGenesis_rootDag []
    (treeOps fan 3) 0 0 rfl rfl (ne_null_tree fan_lt hn) (within_fan hn)).1 (nodeId 3)
  rw [hunion, hl, hroot]
  rfl

namespace StandIn

/-- A node that has the genesis vertex alone lacks the `n` others of a fan. -/
theorem countP_fan {n : ℕ} (hn : n < 2 ^ 63) :
    ((tree fan n).vertices.entries.countP fun e => !rootDag.contains e.1) = n := by
  have hperm := (grown_tree fan n).wf.order_perm
  rw [(tree_spec fan_lt n hn).2.1] at hperm
  have hmap := List.countP_map (p := fun x => !rootDag.contains x) (f := Sigma.fst)
    (l := (tree fan n).vertices.entries)
  rw [Function.comp_def] at hmap
  rw [← hmap, ← hperm.countP_eq, List.range_succ_eq_map, List.map_cons, List.countP_cons,
    List.map_map, List.countP_map]
  have hzero : rootDag.contains (nodeId 0) = true := (contains_rootDag _).2 rfl
  have hall : ∀ i ∈ List.range n,
      ((fun x => !rootDag.contains x) ∘ nodeId ∘ Nat.succ) i = true := by
    intro i hi
    rw [List.mem_range] at hi
    rw [Function.comp_apply, Bool.not_eq_true', Function.comp_apply]
    exact not_contains_rootDag (by omega) (Nat.succ_ne_zero i)
  rw [List.countP_eq_length.2 hall, List.length_range, hzero]
  rfl

/-- It takes over the whole fan, and returns as many as fit a word. -/
theorem exchange_fan {n : ℕ} (hn : n < 2 ^ 63) :
    (exchangeAndMerge wide rootDag (tree fan n).toGraph
      (SyncInventory.fromDag (tree fan n).toGraph 0) 0).2 = .ok (min n (2 ^ 32 - 1)) := by
  have hr := grown_tree fan n
  have hs := grown_run withGenesis_rootDag []
  have hj := Graph.joined_of_within (a := 0) hs hr (ne_null_tree fan_lt hn) (within_fan hn)
  have hlen := Graph.length_lacks_of_within (a := 0) hs hr (ne_null_tree fan_lt hn)
    (within_fan hn)
  obtain ⟨ordered, relayOf, hlen', hwf, hlook, hex⟩ := exchange_cases hs hr hj 0
  have hn' : ordered.length = n := hlen'.trans (hlen.trans (countP_fan hn))
  rw [run_nil] at hex
  rcases hex with ⟨hnil, hex⟩ | hex
  · rw [hex, ← hn', hnil]
    rfl
  · have hcost : ∀ {x tx}, (rootDag.withStored ordered relayOf).vertices.lookup x = some tx →
        tx.cost ≤ u64Max := by
      intro x tx hl
      have hroot : rootDag = tree fan 0 := rfl
      rcases (hlook x tx).1 hl with hl | ⟨-, hl⟩
      · rw [run_nil, hroot] at hl
        exact cost_tree fan_lt (by decide) hl
      · exact cost_tree fan_lt hn hl
    have hres := KronDAG.resolve_ok_of_unfunded (P := wide) hwf (fun _ => rfl) hcost
    rw [run_nil] at hres
    rw [hex, ← hn']
    simp only [hres]
    rfl

/-- Of a fan of `2 ^ 32` vertices, each under the id the code computes, all are taken over, and one
fewer is returned. -/
theorem exchange_fan_saturates :
    KronDAG.withGenesis wide = some rootDag
      ∧ run wide rootDag (treeOps fan (2 ^ 32)) = tree fan (2 ^ 32)
      ∧ (∀ x tx, (tree fan (2 ^ 32)).vertices.lookup x = some tx →
        tx.id = DagTransaction.computeId wide tx.unsignedBytes ∧ x ≠ nullParent)
      ∧ (∀ x y tx ty, (tree fan (2 ^ 32)).vertices.lookup x = some tx →
        (tree fan (2 ^ 32)).vertices.lookup y = some ty →
        DagTransaction.computeId wide tx.unsignedBytes
          = DagTransaction.computeId wide ty.unsignedBytes → tx = ty)
      ∧ (∀ tip ∈ (tree fan (2 ^ 32)).tips,
        (tree fan (2 ^ 32)).toGraph.ClosureWithin ancestorWalkBound tip)
      ∧ ((tree fan (2 ^ 32)).vertices.entries.countP fun e => !rootDag.contains e.1) = 2 ^ 32
      ∧ (exchangeAndMerge wide rootDag (tree fan (2 ^ 32)).toGraph
        (SyncInventory.fromDag (tree fan (2 ^ 32)).toGraph 0) 0).2 = .ok (2 ^ 32 - 1) := by
  have hn : 2 ^ 32 < 2 ^ 63 := by decide
  refine ⟨withGenesis_rootDag, rfl, fun x tx hl => ?_, fun x y tx ty hx hy he => ?_,
    within_fan hn, countP_fan hn, ?_⟩
  · exact ⟨id_tree fan_lt hn hl, ne_null_tree fan_lt hn x (Graph.contains_iff.2 ⟨tx, hl⟩)⟩
  · rw [← id_tree fan_lt hn hx, ← id_tree fan_lt hn hy] at he
    have hwf := (grown_tree fan (2 ^ 32)).wf
    rw [hwf.id_eq hx, hwf.id_eq hy] at he
    rw [he, hy] at hx
    exact (Option.some.inj hx).symm
  · rw [exchange_fan hn]
    rfl

end StandIn

/-- For any two runs from one genesis: a round stores something exactly when something is needed and
every parent of what is needed is stored or needed. A parent that is not ends the round with nothing
changed; there is none where no closure there is cut. And a vertex lacked has something needed above
it, where an id means the same parents to both. -/
theorem exchange_progress_run (h : KronDAG.withGenesis P = some d) (ops ops' : List Op)
    (peerId carrier : Address) {s r : KronDAG} (hs : run P d ops = s) (hr : run P d ops' = r) :
    ((∃ x, s.contains x = false ∧ (exchangeAndMerge P s r.toGraph
        (SyncInventory.fromDag r.toGraph peerId) carrier).1.contains x = true) ↔
      s.toGraph.lacks r.toGraph peerId ≠ [] ∧ s.toGraph.Joined r.toGraph peerId)
    ∧ (¬ s.toGraph.Joined r.toGraph peerId → ∃ q, exchangeAndMerge P s r.toGraph
        (SyncInventory.fromDag r.toGraph peerId) carrier = (s, .error (.err (.missingParent q))))
    ∧ ((∀ x, r.contains x = true → x ≠ nullParent) →
      ((∀ tip ∈ r.tips, r.toGraph.ClosureWithin ancestorWalkBound tip) →
        s.toGraph.Joined r.toGraph peerId)
      ∧ ((∀ x tx tx', s.vertices.lookup x = some tx → r.vertices.lookup x = some tx' →
          tx.parents = tx'.parents) →
        (∃ x, r.contains x = true ∧ s.contains x = false) →
          s.toGraph.lacks r.toGraph peerId ≠ [])) := by
  have hs' : s.toGraph.Grown P d.toGraph := hs ▸ grown_run h ops
  have hr' : r.toGraph.Grown P d.toGraph := hr ▸ grown_run h ops'
  refine ⟨⟨?_, fun ⟨hne, hj⟩ => ?_⟩, fun hj => exchange_not_joined hs' hr' hj carrier,
    fun hnull => ⟨Graph.joined_of_within hs' hr' hnull, fun hsame hlack => ?_⟩⟩
  · rintro ⟨x, hno, hx⟩
    by_cases hj : s.toGraph.Joined r.toGraph peerId
    · refine ⟨?_, hj⟩
      obtain ⟨tx, hl⟩ := Graph.contains_iff.1 hx
      rcases ((exchange_joined hs' hr' hj carrier).1 x tx).1 hl with hl | ⟨hx, -⟩
      · rw [Graph.contains_iff.2 ⟨tx, hl⟩] at hno
        cases hno
      · exact List.ne_nil_of_mem hx
    · obtain ⟨q, hq⟩ := exchange_not_joined hs' hr' hj carrier
      rw [hq, hno] at hx
      cases hx
  · obtain ⟨y, hy⟩ := List.exists_mem_of_ne_nil _ hne
    obtain ⟨hlook, -⟩ := exchange_joined hs' hr' hj carrier
    obtain ⟨tx, hl⟩ := Graph.contains_iff.1
      (Graph.contains_of_mem_lacks hs'.wf hr'.wf hr'.indexed hy)
    exact ⟨y, ((Graph.mem_lacks hs'.wf).1 hy).2.2,
      Graph.contains_iff.2 ⟨tx, (hlook y tx).2 (.inr ⟨hy, hl⟩)⟩⟩
  · obtain ⟨x, hx, hno⟩ := hlack
    exact Graph.lacks_ne_nil hs' hr' hnull (fun {x tx tx'} => hsame x tx tx') hx hno

open StandIn in
/-- A whole closure leaves nothing in the way of the other side. -/
theorem exchange_progress_run_fan : ∃ x, rootDag.contains x = false
    ∧ (exchangeAndMerge wide rootDag (tree fan 3).toGraph
      (SyncInventory.fromDag (tree fan 3).toGraph 0) 0).1.contains x = true := by
  have hn : 3 < 2 ^ 63 := by decide
  obtain ⟨hiff, -, hnull⟩ := exchange_progress_run (s := rootDag) (r := tree fan 3)
    withGenesis_rootDag [] (treeOps fan 3) 0 0 rfl rfl
  obtain ⟨hwithin, hlack⟩ := hnull (ne_null_tree fan_lt hn)
  refine hiff.2 ⟨hlack (fun x tx tx' hl hl' => ?_) ⟨nodeId 3, ?_, ?_⟩, hwithin (within_fan hn)⟩
  · have hroot : rootDag = tree fan 0 := rfl
    rw [hroot] at hl
    obtain ⟨i, hi, rfl, rfl⟩ := (lookup_tree fan_lt (by decide) x tx).1 hl
    obtain ⟨j, hj, hij, rfl⟩ := (lookup_tree fan_lt hn _ tx').1 hl'
    rw [nodeId_inj (by omega) (by omega)] at hij
    rw [hij]
  · exact (contains_tree fan_lt hn _).2 ⟨3, le_rfl, rfl⟩
  · exact not_contains_rootDag (by decide) (by decide)

namespace StandIn

/-- Of a long chain a node that has the genesis vertex alone finds those to be lacked that are
within the bounded walk from the tip. -/
theorem mem_lacks_chain {n i : ℕ} (hn : n < 2 ^ 63) (hlong : ancestorWalkBound ≤ n) (hi : i ≤ n)
    (h0 : i ≠ 0) : nodeId i ∈ rootDag.toGraph.lacks (tree chain n).toGraph 0 ↔
      n ≤ i + ancestorWalkBound := by
  have hs : rootDag.toGraph.Grown wide rootDag.toGraph := grown_withGenesis withGenesis_rootDag
  have hno := not_contains_rootDag (by omega : i < 2 ^ 64) h0
  have hgen : nodeId i ≠ (tree chain n).genesisIdOr := by
    rw [(grown_tree chain n).genesisIdOr_eq hs]
    intro h
    have hcont := hs.contains_genesis
    rw [← h, hno] at hcont
    cases hcont
  rw [Graph.mem_lacks hs.wf, ← mem_parentClosure_chain hn hlong hi]
  constructor
  · rintro ⟨⟨tip, htip, h⟩, -⟩
    rw [(mem_tips_chain hn tip).1 htip] at h
    rcases h with h | ⟨h, -⟩
    · rw [h]
      exact Graph.self_mem_parentClosure _ _
    · exact h
  · intro h
    exact ⟨⟨nodeId n, (mem_tips_chain hn _).2 rfl, .inr ⟨h, hgen⟩⟩, nodeId_ne_null (by omega), hno⟩

/-- Of a chain of 1026 vertices the last 1025 are advertised. The parent of the first of these is
unknown to a node that has the genesis vertex alone, and nothing is stored. -/
theorem exchange_chain_stuck :
    KronDAG.withGenesis wide = some rootDag
      ∧ run wide rootDag (treeOps chain 1026) = tree chain 1026
      ∧ (∀ x tx, (tree chain 1026).vertices.lookup x = some tx →
        tx.id = DagTransaction.computeId wide tx.unsignedBytes ∧ x ≠ nullParent)
      ∧ (tree chain 1026).contains (nodeId 1) = true ∧ rootDag.contains (nodeId 1) = false
      ∧ ∃ q, exchangeAndMerge wide rootDag (tree chain 1026).toGraph
        (SyncInventory.fromDag (tree chain 1026).toGraph 0) 0
          = (rootDag, .error (.err (.missingParent q))) := by
  have hn : 1026 < 2 ^ 63 := by decide
  have hs : rootDag.toGraph.Grown wide rootDag.toGraph := grown_withGenesis withGenesis_rootDag
  have hr := grown_tree chain 1026
  have hno : rootDag.contains (nodeId 1) = false := not_contains_rootDag (by decide) (by decide)
  have hlacks : ∀ {i : ℕ}, i ≤ 1026 → i ≠ 0 →
      (nodeId i ∈ rootDag.toGraph.lacks (tree chain 1026).toGraph 0 ↔
        1026 ≤ i + ancestorWalkBound) := mem_lacks_chain hn (by decide)
  refine ⟨withGenesis_rootDag, rfl, fun x tx hl => ?_, (contains_tree chain_lt hn _).2
    ⟨1, by decide, rfl⟩, hno, exchange_not_joined hs hr (fun hj => ?_) 0⟩
  · exact ⟨id_tree chain_lt hn hl, ne_null_tree chain_lt hn x (Graph.contains_iff.2 ⟨tx, hl⟩)⟩
  · have hl : (tree chain 1026).vertices.lookup (nodeId 2) = some (node chain 2) :=
      (lookup_tree chain_lt hn _ _).2 ⟨2, by decide, rfl, rfl⟩
    have hp : nodeId 1 ∈ (node chain 2).parents := by
      rw [parents_node (by decide) (chain_lt 1)]
      exact List.mem_singleton.2 rfl
    rcases hj (nodeId 2) ((hlacks (by decide) (by decide)).2 (by decide)) _ hl _ hp with h | h
    · rw [hno] at h
      cases h
    · exact absurd ((hlacks (by decide) (by decide)).1 h) (by decide)

end StandIn

end Runs

end KronMesh
