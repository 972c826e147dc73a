import KronMesh.Calls
import Mathlib.Data.List.Perm.Lattice

/-!
# Weights are a matter of the vertices

A vertex adds one to the weight of each ancestor its walk finds. The walk reads the bodies of
ancestors only, and they are stored before it, so it finds the same in every later graph. Hence the
weight of a vertex is one and the number of stored vertices whose walk finds it (`weighed_run`), and
two graphs of the same vertices rank them alike, in whatever order they came.
-/

namespace KronMesh

open Word

/-! ## The walk -/

section Walk

variable {v v' : AList fun _ : TxHash => DagTransaction}

theorem mem_pushParents {p p1 p2 : TxHash} {stack : List TxHash} :
    p ∈ pushParents p1 p2 stack ↔
      p ∈ stack ∨ p ≠ nullParent ∧ (p = p1 ∨ p = p2) := by
  unfold pushParents
  by_cases h1 : p1 = nullParent
  · by_cases h2 : p2 = nullParent
    · simp [h1, h2]
    · simp [h1, h2]
      grind
  · by_cases h2 : p2 = nullParent
    · simp [h1, h2]
      grind
    · by_cases h : p2 = p1
      · simp [h1, h]
        grind
      · simp [h1, h2, h]
        grind

theorem length_pushParents (p1 p2 : TxHash) (stack : List TxHash) :
    (pushParents p1 p2 stack).length ≤ stack.length + 2 := by
  unfold pushParents
  simp only []
  split_ifs <;> simp

/-- More turns than the walk needs change nothing. -/
theorem ancestorWalk_fuel (v : AList fun _ : TxHash => DagTransaction) :
    ∀ (fuel : ℕ) (stack seen : List TxHash),
      2 * (ancestorWalkBound - seen.length) + stack.length + 1 ≤ fuel →
        ancestorWalk v (fuel + 1) stack seen = ancestorWalk v fuel stack seen
  | 0, _, _, h => by omega
  | fuel + 1, [], seen, _ => rfl
  | fuel + 1, h :: stack, seen, hf => by
    rw [List.length_cons] at hf
    rw [ancestorWalk, ancestorWalk]
    split_ifs with hskip hfull
    · exact ancestorWalk_fuel v fuel stack seen (by omega)
    · rfl
    · refine ancestorWalk_fuel v fuel _ _ ?_
      have hlen : (pushParentsOf v h stack).length ≤ stack.length + 2 := by
        unfold pushParentsOf
        rcases v.lookup h with _ | tx
        · exact Nat.le_add_right _ _
        · exact length_pushParents _ _ _
      rw [List.length_append, List.length_singleton]
      omega

/-- `walkFuel` turns are enough for every vertex. -/
theorem ancestorWalk_walkFuel (v : AList fun _ : TxHash => DagTransaction) (p1 p2 : TxHash)
    (n : ℕ) : ancestorWalk v (walkFuel + n) (pushParents p1 p2 []) []
      = ancestorWalk v walkFuel (pushParents p1 p2 []) [] := by
  induction n with
  | zero => rfl
  | succ n ih =>
    have hlen := length_pushParents p1 p2 []
    rw [List.length_nil] at hlen
    refine (ancestorWalk_fuel v (walkFuel + n) _ _ ?_).trans ih
    unfold walkFuel
    rw [List.length_nil]
    omega

/-- A set of vertices whose parents are in it. -/
def Closed (v : AList fun _ : TxHash => DagTransaction) (S : TxHash → Prop) : Prop :=
  ∀ h tx, S h → v.lookup h = some tx → ∀ p ∈ pushParents tx.parent1 tx.parent2 [], S p

theorem closed_pushParentsOf {S : TxHash → Prop} (hS : Closed v S) {h : TxHash}
    {stack : List TxHash} (hh : S h) (hstack : ∀ p ∈ stack, S p) :
    ∀ p ∈ pushParentsOf v h stack, S p := by
  intro p hp
  unfold pushParentsOf at hp
  rcases hl : v.lookup h with _ | tx
  · rw [hl] at hp
    exact hstack p hp
  · rw [hl] at hp
    rcases mem_pushParents.1 hp with hp | hp
    · exact hstack p hp
    · exact hS h tx hh hl p (mem_pushParents.2 (.inr hp))

/-- The walk stays within a closed set, and reads nothing outside it. -/
theorem ancestorWalk_closed {S : TxHash → Prop} (hS : Closed v S)
    (heq : ∀ h, S h → v'.lookup h = v.lookup h) : ∀ (fuel : ℕ) (stack seen : List TxHash),
      (∀ h ∈ stack, S h) → (∀ h ∈ seen, S h) →
        ancestorWalk v' fuel stack seen = ancestorWalk v fuel stack seen
          ∧ ∀ h ∈ ancestorWalk v fuel stack seen, S h
  | 0, _, _, _, hseen => ⟨rfl, hseen⟩
  | _ + 1, [], _, _, hseen => ⟨rfl, hseen⟩
  | fuel + 1, h :: stack, seen, hstack, hseen => by
    obtain ⟨hh, hstack⟩ := List.forall_mem_cons.1 hstack
    rw [ancestorWalk, ancestorWalk]
    split_ifs with hskip hfull
    · exact ancestorWalk_closed hS heq fuel stack seen hstack hseen
    · exact ⟨rfl, hseen⟩
    · have hpush : pushParentsOf v' h stack = pushParentsOf v h stack := by
        unfold pushParentsOf
        rw [heq h hh]
      rw [hpush]
      refine ancestorWalk_closed hS heq fuel _ _ (closed_pushParentsOf hS hh hstack) ?_
      simpa [or_imp, forall_and, hh] using hseen

/-- The walk visits no vertex twice. -/
theorem nodup_ancestorWalk : ∀ (fuel : ℕ) (stack seen : List TxHash), seen.Nodup →
    (ancestorWalk v fuel stack seen).Nodup
  | 0, _, _, h => h
  | _ + 1, [], _, h => h
  | fuel + 1, x :: stack, seen, h => by
    rw [ancestorWalk]
    split_ifs with hskip hfull
    · exact nodup_ancestorWalk fuel stack seen h
    · exact h
    · rw [not_or] at hskip
      refine nodup_ancestorWalk fuel _ _ ?_
      rw [List.nodup_append]
      refine ⟨h, List.nodup_singleton x, ?_⟩
      rintro a ha b hb rfl
      exact hskip.2 (List.mem_singleton.1 hb ▸ ha)

end Walk

namespace Graph

variable {P : Primitives} {g g' : Graph} {tx : DagTransaction}

/-- The ancestors a vertex adds to the weight of. -/
def walkOf (g : Graph) (tx : DagTransaction) : List TxHash :=
  ancestorWalk g.vertices walkFuel (pushParents tx.parent1 tx.parent2 []) []

/-- How many stored vertices approve `id`. -/
def approvers (g : Graph) (id : TxHash) : ℕ :=
  g.vertices.entries.countP fun e => (g.walkOf e.2).contains id

/-- The weights are those of the stored vertices. -/
def Weighed (g : Graph) : Prop :=
  ∀ id, g.weights.lookup id
    = if g.contains id then some (min u64Max (1 + g.approvers id)) else none

theorem WF.closed (hg : g.WF) : Closed g.vertices fun id => g.contains id = true := by
  intro h tx _ hl p hp
  rcases mem_pushParents.1 hp with hp | ⟨hnull, hp⟩
  · cases hp
  · have hgen : tx.isGenesis = false := by
      rw [← Bool.not_eq_true]
      intro hgen
      simp only [DagTransaction.isGenesis, Bool.and_eq_true, beq_iff_eq] at hgen
      rw [hgen.1, hgen.2, or_self] at hp
      exact hnull hp
    obtain ⟨⟨-, h1⟩, -, h2⟩ := hg.parents hl hgen
    rcases hp with rfl | rfl
    · exact h1
    · exact h2

/-- A new vertex whose parents are stored finds none but stored vertices, and changes none of their
walks. -/
theorem walkOf_insert (hg : g.WF) (hnew : g.vertices.lookup tx.id = none) {y : DagTransaction}
    (hy : ∀ p ∈ pushParents y.parent1 y.parent2 [], g.contains p = true) :
    (g.insertVertex tx).walkOf y = g.walkOf y ∧ ∀ id ∈ g.walkOf y, g.contains id = true := by
  refine ancestorWalk_closed hg.closed (fun h hh => ?_) walkFuel _ _ hy (by simp)
  rw [lookup_insertVertex, if_neg]
  rintro rfl
  unfold contains at hh
  rw [hnew] at hh
  cases hh

theorem lookup_foldl_bumpWeight (id : TxHash) : ∀ (l : List TxHash) (w : Tally TxHash), l.Nodup →
    (l.foldl bumpWeight w).lookup id
      = if id ∈ l then (w.lookup id).map (saturatingAdd · 1) else w.lookup id := by
  have hbump : ∀ (w : Tally TxHash) h, (bumpWeight w h).lookup id
      = if id = h then (w.lookup id).map (saturatingAdd · 1) else w.lookup id := by
    intro w h
    unfold bumpWeight
    by_cases hid : id = h
    · subst hid
      rcases hl : w.lookup id with _ | n
      · simp [hl]
      · simp [Tally.set]
    · rcases hl : w.lookup h with _ | n
      · simp [hid]
      · simp [hid, Tally.set, AList.lookup_insert_ne hid]
  intro l
  induction l with
  | nil => intro w _; rfl
  | cons h l ih =>
    intro w hnd
    obtain ⟨hh, hl⟩ := List.nodup_cons.1 hnd
    rw [List.foldl_cons, ih _ hl, hbump]
    by_cases hid : id = h
    · subst hid
      simp [hh]
    · simp [hid]

/-- The walks of the others stay as they were, and every walk finds stored vertices only. -/
theorem walks_insertVertex (hg : g.WF) (hcheck : g.checkVertex P tx = .ok ()) :
    ((g.insertVertex tx).walkOf tx = g.walkOf tx ∧ ∀ id ∈ g.walkOf tx, g.contains id = true)
      ∧ ∀ e ∈ g.vertices.entries, (g.insertVertex tx).walkOf e.2 = g.walkOf e.2
        ∧ ∀ id ∈ g.walkOf e.2, g.contains id = true := by
  have hnew := (checkVertex_ok hcheck).1
  obtain ⟨⟨-, h1⟩, -, h2⟩ :=
    checkParents_ok (checkVertex_ok hcheck).2.1 (hg.not_isGenesis hcheck)
  have hpar : ∀ p ∈ pushParents tx.parent1 tx.parent2 [], g.contains p = true := by
    intro p hp
    rcases mem_pushParents.1 hp with hp | ⟨-, rfl | rfl⟩
    · cases hp
    · exact h1
    · exact h2
  refine ⟨walkOf_insert hg hnew hpar, fun e he => ?_⟩
  have hl : g.vertices.lookup e.1 = some e.2 := AList.mem_lookup_iff.2 he
  have hc : g.contains e.1 = true := by
    unfold contains
    rw [hl]
    rfl
  exact walkOf_insert hg hnew (hg.closed e.1 e.2 hc hl)

/-- A new vertex approves what its walk finds. -/
theorem approvers_insertVertex (hg : g.WF) (hcheck : g.checkVertex P tx = .ok ()) (id : TxHash) :
    (g.insertVertex tx).approvers id = g.approvers id + if id ∈ g.walkOf tx then 1 else 0 := by
  have hnew := (checkVertex_ok hcheck).1
  obtain ⟨⟨hwalk, -⟩, hold⟩ := walks_insertVertex hg hcheck
  have hc : (g.vertices.entries.countP fun e => ((g.insertVertex tx).walkOf e.2).contains id)
      = g.vertices.entries.countP fun e => (g.walkOf e.2).contains id :=
    List.countP_congr fun e he => by rw [(hold e he).1]
  unfold approvers
  rw [insertVertex_vertices, AList.entries_insert_of_notMem (AList.lookup_eq_none.1 hnew),
    List.countP_cons, hc, hwalk]
  simp

/-- Nobody approves a vertex that is not stored. -/
theorem approvers_eq_zero (hg : g.WF) (hcheck : g.checkVertex P tx = .ok ()) :
    g.approvers tx.id = 0 := by
  have hnone : g.contains tx.id = false := contains_eq_false.2 (checkVertex_ok hcheck).1
  unfold approvers
  rw [List.countP_eq_zero]
  intro e he hm
  rw [((walks_insertVertex hg hcheck).2 e he).2 _ (List.contains_iff_mem.1 hm)] at hnone
  cases hnone

/-- An admitted vertex keeps the weights those of the vertices. -/
theorem Weighed.insertVertex (hg : g.WF) (hw : g.Weighed) (hcheck : g.checkVertex P tx = .ok ()) :
    (g.insertVertex tx).Weighed := by
  have hgen := hg.not_isGenesis hcheck
  have hnone : g.contains tx.id = false := contains_eq_false.2 (checkVertex_ok hcheck).1
  obtain ⟨⟨hwalk, hin⟩, -⟩ := walks_insertVertex hg hcheck
  intro id
  have hweights : (g.insertVertex tx).weights
      = (g.walkOf tx).foldl bumpWeight (g.weights.set tx.id 1) := by
    rw [insertVertex_weights, hgen, if_neg (by simp), ← hwalk, ← insertVertex_vertices]
    rfl
  have hnd : (g.walkOf tx).Nodup := nodup_ancestorWalk _ _ _ List.nodup_nil
  rw [hweights, lookup_foldl_bumpWeight id _ _ hnd, contains_insertVertex,
    approvers_insertVertex hg hcheck]
  by_cases hid : id = tx.id
  · subst hid
    have hself : tx.id ∉ g.walkOf tx := fun hm => by
      rw [hin _ hm] at hnone
      cases hnone
    simp [hself, approvers_eq_zero hg hcheck, Tally.set, u64Max]
  · have hlook : (g.weights.set tx.id 1).lookup id = g.weights.lookup id :=
      AList.lookup_insert_ne hid
    rw [hlook, hw id]
    by_cases hc : g.contains id
    · by_cases hm : id ∈ g.walkOf tx
      · simp [hc, hm, saturatingAdd]
        omega
      · simp [hc, hm]
    · have hm : id ∉ g.walkOf tx := fun hm => hc (hin _ hm)
      simp [hid, hc, hm]

/-- The genesis vertex weighs one. -/
theorem weighed_genesis (hgen : tx.isGenesis = true) : (Graph.empty.insertVertex tx).Weighed := by
  have hnull : tx.parent1 = nullParent ∧ tx.parent2 = nullParent := by
    simpa only [DagTransaction.isGenesis, Bool.and_eq_true, beq_iff_eq] using hgen
  have hwalk : (Graph.empty.insertVertex tx).walkOf tx = [] := by
    unfold walkOf
    rw [hnull.1, hnull.2]
    rfl
  have hentries : (Graph.empty.insertVertex tx).vertices.entries = [⟨tx.id, tx⟩] := by
    rw [insertVertex_vertices, AList.entries_insert_of_notMem (AList.lookup_eq_none.1 rfl)]
    rfl
  have happ : ∀ id, (Graph.empty.insertVertex tx).approvers id = 0 := by
    intro id
    unfold approvers
    rw [hentries]
    simp [hwalk]
  intro id
  rw [insertVertex_weights, if_pos hgen, contains_insertVertex, happ]
  by_cases hid : id = tx.id
  · subst hid
    simp [Tally.set, u64Max]
  · have hlook : (Graph.empty.weights.set tx.id 1).lookup id = none :=
      AList.lookup_insert_ne hid
    have hc : Graph.empty.contains id = false := rfl
    simp [hlook, hid, hc]

/-! ## The same vertices, in any order -/

variable {id : TxHash}

theorem walkOf_congr (h : ∀ id, g'.vertices.lookup id = g.vertices.lookup id)
    (tx : DagTransaction) : g'.walkOf tx = g.walkOf tx :=
  (ancestorWalk_closed (S := fun _ => True) (fun _ _ _ _ _ _ => trivial) (fun id _ => h id) _ _ _
    (fun _ _ => trivial) (fun _ _ => trivial)).1

/-- Graphs of the same vertices weigh them alike. -/
theorem lookup_weights_congr (hw : g.Weighed) (hw' : g'.Weighed)
    (h : ∀ id, g'.vertices.lookup id = g.vertices.lookup id) (id : TxHash) :
    g'.weights.lookup id = g.weights.lookup id := by
  have hperm : g'.vertices.entries.Perm g.vertices.entries :=
    List.lookup_ext g'.vertices.nodupKeys g.vertices.nodupKeys fun x y => by
      have := h x
      unfold AList.lookup at this
      rw [this]
  have happ : g'.approvers id = g.approvers id := by
    unfold approvers
    rw [hperm.countP_eq]
    exact List.countP_congr fun e _ => by rw [walkOf_congr h]
  rw [hw id, hw' id, happ]
  unfold contains
  rw [h]

theorem cumulativeWeight_congr (hw : g.Weighed) (hw' : g'.Weighed)
    (h : ∀ id, g'.vertices.lookup id = g.vertices.lookup id) (id : TxHash) :
    g'.cumulativeWeight id = g.cumulativeWeight id := by
  unfold cumulativeWeight Tally.get
  rw [lookup_weights_congr hw hw' h]

theorem rankLE_congr (hw : g.Weighed) (hw' : g'.Weighed)
    (h : ∀ id, g'.vertices.lookup id = g.vertices.lookup id) (a b : TxHash) :
    g'.RankLE a b ↔ g.RankLE a b := by
  unfold RankLE
  rw [cumulativeWeight_congr hw hw' h, cumulativeWeight_congr hw hw' h]

theorem spends_congr (h : ∀ id, g'.vertices.lookup id = g.vertices.lookup id) (id : TxHash)
    (key : Address × UInt64) : g'.Spends id key ↔ g.Spends id key := by
  unfold Spends
  rw [h]

/-- Graphs of the same vertices choose the same losers, for the same winners. -/
theorem winnerOf_congr (hg : g.WF) (hg' : g'.WF) (hw : g.Weighed) (hw' : g'.Weighed)
    (h : ∀ id, g'.vertices.lookup id = g.vertices.lookup id) (id : TxHash) :
    g'.winnerOf.lookup id = g.winnerOf.lookup id := by
  refine Option.ext fun b => ?_
  rw [lookup_winnerOf hg, lookup_winnerOf hg']
  simp only [spends_congr h, rankLE_congr hw hw' h]

theorem replayedAt_congr (hg : g.WF) (hg' : g'.WF) (hw : g.Weighed) (hw' : g'.Weighed)
    (h : ∀ id, g'.vertices.lookup id = g.vertices.lookup id) : g'.replayedAt = g.replayedAt := by
  funext id
  unfold replayedAt
  rw [winnerOf_congr hg hg' hw hw' h, h]

/-- And they replay the same vertices, each in its own order. -/
theorem replayed_perm (hg : g.WF) (hg' : g'.WF) (hw : g.Weighed) (hw' : g'.Weighed)
    (h : ∀ id, g'.vertices.lookup id = g.vertices.lookup id) :
    g.replayed.Perm g'.replayed := by
  have horder : g.attachOrder.Perm g'.attachOrder := by
    rw [List.perm_ext_iff_of_nodup hg.nodup hg'.nodup]
    intro id
    rw [hg.mem_order, hg'.mem_order, h]
  unfold replayed
  rw [replayedAt_congr hg hg' hw hw' h]
  exact horder.filterMap _

end Graph

/-- In every state of a run the weights are those of the stored vertices. -/
theorem weighed_run {P : Primitives} {d : KronDAG} (h : KronDAG.withGenesis P = some d)
    (ops : List Op) : (run P d ops).toGraph.Weighed := by
  refine (run_invariant (P := P) (fun d => d.toGraph.WF ∧ d.toGraph.Weighed) (fun d a n hd => ?_)
    (fun d d' hs hd => ?_) ops ⟨Graph.WF_withGenesis h, ?_⟩).2
  · rwa [(d.creditAccount_frame a n.toNat).1]
  · refine ⟨KronDAG.step_graphWF hd.1 hs, ?_⟩
    rcases KronDAG.step_graph hs with he | ⟨tx, hcheck, he⟩
    · rw [he]
      exact hd.2
    · rw [he]
      exact hd.2.insertVertex hd.1 hcheck
  · obtain ⟨g, -, hgen, -, rfl⟩ := withGenesis_eq h
    exact Graph.weighed_genesis hgen

end KronMesh
