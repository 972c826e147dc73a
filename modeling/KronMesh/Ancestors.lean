import KronMesh.Lib.Search
import KronMesh.Indexes
import Mathlib.Data.Set.Card

/-!
# The weight of a vertex counts its descendants

The walk that moves the weights is cut behind so many vertices, and never asks for a vertex more. So
where no vertex has more ancestors than that, each walk finds all of them, each once, on however
many paths they are reached; and the weight of a vertex is one and the number of stored vertices
above it (`weight_exact_run`).
-/

namespace KronMesh

open Word Relation

/-- `a` is reached from `x` by one or more steps to a parent. -/
def Graph.ProperAncestor (g : Graph) (x a : TxHash) : Prop :=
  TransGen (fun y p => ∃ tx, g.vertices.lookup y = some tx ∧ p ∈ tx.parents) x a

section Walk

variable {v : AList fun _ : TxHash => DagTransaction} {tx : DagTransaction}

theorem pushParents_eq_append (p1 p2 : TxHash) (stack : List TxHash) :
    pushParents p1 p2 stack = pushParents p1 p2 [] ++ stack := by
  unfold pushParents
  simp only []
  split_ifs <;> rfl

theorem pushParentsOf_eq_append (h : TxHash) (stack : List TxHash) :
    pushParentsOf v h stack = pushParentsOf v h [] ++ stack := by
  unfold pushParentsOf
  rcases v.lookup h with _ | tx
  · rfl
  · exact pushParents_eq_append _ _ _

theorem mem_pushParents_nil {p : TxHash} :
    p ∈ pushParents tx.parent1 tx.parent2 [] ↔ p ∈ tx.parents := by
  rw [mem_pushParents, Graph.mem_parents, or_iff_right List.not_mem_nil, eq_comm, @eq_comm _ p]

theorem mem_pushParentsOf_nil {h p : TxHash} :
    p ∈ pushParentsOf v h [] ↔ ∃ tx, v.lookup h = some tx ∧ p ∈ tx.parents := by
  unfold pushParentsOf
  rcases v.lookup h with _ | tx
  · simp
  · simp [mem_pushParents_nil]

theorem length_pushParentsOf_nil (h : TxHash) : (pushParentsOf v h []).length ≤ 2 := by
  unfold pushParentsOf
  rcases v.lookup h with _ | tx
  · exact Nat.zero_le 2
  · exact length_pushParents _ _ []

/-- Over no more vertices than its bound the walk is not cut. The bound is looked at before a vertex
is seen, so it is reached only when one more is asked for. -/
theorem ancestorWalk_eq_walk {S : TxHash → Prop} {U : List TxHash}
    (hS : Search.Within (fun h => pushParentsOf v h []) S U) (hU : U.length ≤ ancestorWalkBound)
    (hnull : ¬ S nullParent) : ∀ (fuel : ℕ) (stack seen : List TxHash), seen.Nodup →
      (∀ h ∈ seen, S h) → (∀ h ∈ stack, S h) →
        ancestorWalk v fuel stack seen = Search.walk (fun h => pushParentsOf v h []) fuel stack seen
  | 0, _, _, _, _, _ => rfl
  | _ + 1, [], _, _, _, _ => rfl
  | fuel + 1, h :: stack, seen, hnd, hseen, hstack => by
    obtain ⟨hh, hstack⟩ := List.forall_mem_cons.1 hstack
    have hne : h ≠ nullParent := fun he => hnull (he ▸ hh)
    rw [ancestorWalk, Search.walk]
    simp only [hne, false_or]
    split_ifs with hmem hfull
    · exact ancestorWalk_eq_walk hS hU hnull fuel stack seen hnd hseen hstack
    · have := hS.room hnd hseen hh hmem
      omega
    · rw [pushParentsOf_eq_append]
      exact ancestorWalk_eq_walk hS hU hnull fuel _ _ (Search.nodup_concat hnd hmem)
        (List.forall_mem_append.2 ⟨hseen, List.forall_mem_singleton.2 hh⟩)
        (List.forall_mem_append.2 ⟨hS.closed h hh, hstack⟩)

end Walk

namespace Graph

variable {P : Primitives} {g : Graph} {tx : DagTransaction} {x a : TxHash}

/-- The walk of a stored vertex with few ancestors finds them all. -/
theorem mem_walkOf (hl : g.vertices.lookup x = some tx) {U : List TxHash}
    (hU : U.length ≤ ancestorWalkBound) (hall : ∀ b, g.ProperAncestor x b → b ∈ U) :
    a ∈ g.walkOf tx ↔ g.ProperAncestor x a := by
  have hS : Search.Within (fun h => pushParentsOf g.vertices h []) (g.ProperAncestor x) U :=
    ⟨fun b hb c hc => hb.tail (mem_pushParentsOf_nil.1 hc), hall⟩
  have hnull : ¬ g.ProperAncestor x nullParent := by
    intro h
    obtain ⟨y, -, tx', -, hp⟩ := TransGen.tail'_iff.1 h
    exact (mem_parents.1 hp).1 rfl
  have hstart : ∀ p, p ∈ pushParents tx.parent1 tx.parent2 [] ↔ p ∈ tx.parents :=
    fun p => mem_pushParents_nil
  have hstack : ∀ p ∈ pushParents tx.parent1 tx.parent2 [], g.ProperAncestor x p :=
    fun p hp => TransGen.single ⟨tx, hl, (hstart p).1 hp⟩
  have hfuel : 2 * (U.length - ([] : List TxHash).length)
      + (pushParents tx.parent1 tx.parent2 []).length + 1 ≤ walkFuel := by
    have := length_pushParents tx.parent1 tx.parent2 []
    unfold walkFuel
    rw [List.length_nil] at *
    omega
  have hnil : ∀ b ∈ ([] : List TxHash), g.ProperAncestor x b := fun b hb =>
    absurd hb List.not_mem_nil
  obtain ⟨hseen, hclosed⟩ := Search.closed_walk hS length_pushParentsOf_nil walkFuel _ []
    List.nodup_nil hnil hstack hfuel fun b hb => absurd hb List.not_mem_nil
  unfold walkOf
  rw [ancestorWalk_eq_walk hS hU hnull _ _ _ List.nodup_nil hnil hstack]
  constructor
  · intro h
    rcases Search.reaches_of_mem_walk _ _ _ h with h | ⟨p, hp, h⟩
    · cases h
    · refine TransGen.head'_iff.2 ⟨p, ⟨tx, hl, (hstart p).1 hp⟩, ?_⟩
      exact ReflTransGen.mono (fun b c hc => mem_pushParentsOf_nil.1 hc) p a h
  · intro hanc
    obtain ⟨p, ⟨tx', hl', hp⟩, h⟩ := TransGen.head'_iff.1 hanc
    clear hanc
    obtain rfl := Option.some.inj (hl.symm.trans hl')
    induction h with
    | refl => exact hseen ((hstart p).2 hp)
    | tail _ hstep ih => exact hclosed _ ih _ (mem_pushParentsOf_nil.2 hstep)

/-- Where no vertex has too many ancestors, those that approve a vertex are those above it. -/
theorem approvers_eq (hbound : ∀ x, g.contains x = true →
      {b | g.ProperAncestor x b}.encard ≤ ancestorWalkBound) :
    (g.approvers a : ℕ∞) = {x | g.contains x = true ∧ g.ProperAncestor x a}.encard := by
  have hmem : ∀ e ∈ g.vertices.entries, (g.walkOf e.2).contains a = true
      ↔ g.ProperAncestor e.1 a := by
    intro e he
    have hl : g.vertices.lookup e.1 = some e.2 := AList.mem_lookup_iff.2 he
    obtain ⟨hfin, n, hn, hle⟩ :=
      Set.encard_le_coe_iff.1 (hbound e.1 (Graph.contains_iff.2 ⟨_, hl⟩))
    have hcard : hfin.toFinset.toList.length ≤ ancestorWalkBound := by
      rw [hfin.encard_eq_coe_toFinset_card, Nat.cast_inj] at hn
      rw [Finset.length_toList, hn]
      exact hle
    rw [List.contains_iff_mem]
    exact mem_walkOf hl hcard fun b hb => by simpa using hb
  set above := g.vertices.entries.filter fun e => (g.walkOf e.2).contains a with habove
  have hset : {x | g.contains x = true ∧ g.ProperAncestor x a}
      = ((above.map Sigma.fst).toFinset : Set TxHash) := by
    ext x
    rw [Set.mem_ofPred_eq, Finset.mem_coe, List.mem_toFinset, List.mem_map]
    constructor
    · rintro ⟨hc, hanc⟩
      obtain ⟨tx, hl⟩ := contains_iff.1 hc
      have he : (⟨x, tx⟩ : Sigma fun _ : TxHash => DagTransaction) ∈ g.vertices.entries :=
        AList.mem_lookup_iff.1 hl
      exact ⟨_, List.mem_filter.2 ⟨he, (hmem _ he).2 hanc⟩, rfl⟩
    · rintro ⟨e, he, rfl⟩
      obtain ⟨he, hw⟩ := List.mem_filter.1 he
      exact ⟨contains_iff.2 ⟨e.2, AList.mem_lookup_iff.2 he⟩, (hmem e he).1 hw⟩
  have hnd : (above.map Sigma.fst).Nodup :=
    (List.filter_sublist.map Sigma.fst).nodup g.vertices.nodupKeys
  rw [hset, Set.encard_coe_eq_coe_finsetCard, List.toFinset_card_of_nodup hnd, List.length_map,
    approvers, List.countP_eq_length_filter]

/-- The genesis vertex approves none, so no vertex is approved by all. -/
theorem approvers_lt (hg : g.WF) : g.approvers a < g.attachOrder.length := by
  obtain ⟨gid, -, hs, hgen⟩ := hg.genesis
  obtain ⟨tx, hl⟩ := Option.isSome_iff_exists.1 hs
  have hnull : tx.parent1 = nullParent ∧ tx.parent2 = nullParent := by
    simpa only [DagTransaction.isGenesis, Bool.and_eq_true, beq_iff_eq] using (hgen hl).2 rfl
  have hwalk : g.walkOf tx = [] := by
    unfold walkOf
    rw [hnull.1, hnull.2]
    rfl
  rw [hg.length]
  refine lt_of_le_of_ne List.countP_le_length fun heq => ?_
  have hin := List.countP_eq_length.1 heq ⟨gid, tx⟩ (AList.mem_lookup_iff.1 hl)
  rw [hwalk] at hin
  cases hin

/-- Ancestors are stored, so there are no more of them than vertices. -/
theorem encard_properAncestor_le (hg : g.WF) (x : TxHash) :
    {b | g.ProperAncestor x b}.encard ≤ g.attachOrder.length := by
  have hsub : {b | g.ProperAncestor x b} ⊆ (g.attachOrder.toFinset : Set TxHash) := by
    intro b hb
    obtain ⟨y, -, tx, hl, hp⟩ := TransGen.tail'_iff.1 hb
    have hy : g.contains y = true := contains_iff.2 ⟨tx, hl⟩
    obtain ⟨z, hz⟩ := contains_iff.1 (hg.closed y tx hy hl b (mem_pushParents_nil.2 hp))
    rw [Finset.mem_coe, List.mem_toFinset]
    exact hg.mem_attachOrder hz
  refine (Set.encard_le_encard hsub).trans ?_
  rw [Set.encard_coe_eq_coe_finsetCard, Nat.cast_le]
  exact List.toFinset_card_le _

end Graph

/-- In every state of a run in which no stored vertex has more than 1024 ancestors, the weight of a
vertex is one and the number of stored vertices above it. The node keeps its vertices in one list,
whose length is a word. The walks that count are not cut short: more turns change nothing. -/
theorem weight_exact_run {P : Primitives} {d : KronDAG} (h : KronDAG.withGenesis P = some d)
    (ops : List Op)
    (hbound : ∀ x, (run P d ops).contains x = true →
      {a | (run P d ops).ProperAncestor x a}.encard ≤ 1024)
    (hlen : (run P d ops).attachOrder.length ≤ u64Max) {v : TxHash}
    (hv : (run P d ops).contains v = true) :
    ((run P d ops).cumulativeWeight v : ℕ∞)
        = 1 + {x | (run P d ops).contains x = true ∧ (run P d ops).ProperAncestor x v}.encard
      ∧ ∀ p1 p2 n, ancestorWalk (run P d ops).vertices (walkFuel + n) (pushParents p1 p2 []) []
        = ancestorWalk (run P d ops).vertices walkFuel (pushParents p1 p2 []) [] := by
  refine ⟨?_, ancestorWalk_walkFuel _⟩
  have hg := (wf_run h ops).graph
  have hlt := Graph.approvers_lt (a := v) hg
  have hweight : (run P d ops).cumulativeWeight v = 1 + (run P d ops).approvers v := by
    rw [Graph.cumulativeWeight, Tally.get, weighed_run h ops v, if_pos hv, Option.getD_some]
    exact min_eq_right (by omega)
  rw [hweight, ← Graph.approvers_eq hbound, Nat.cast_add, Nat.cast_one]

section

open StandIn

/-- The genesis vertex under one transfer. -/
theorem weight_exact_run_firstOps :
    ((run primitives genesisDag firstOps).cumulativeWeight genesisId : ℕ∞)
      = 1 + {x | (run primitives genesisDag firstOps).contains x = true
        ∧ (run primitives genesisDag firstOps).ProperAncestor x genesisId}.encard := by
  have hlen : (run primitives genesisDag firstOps).attachOrder.length = 2 := by
    rw [run_firstOps]
    rfl
  have hg := (wf_run withGenesis_genesisDag firstOps).graph
  refine (weight_exact_run withGenesis_genesisDag firstOps (fun x _ => ?_)
    (by rw [hlen]; decide) ?_).1
  · refine (Graph.encard_properAncestor_le hg x).trans ?_
    rw [hlen]
    exact Nat.cast_le.2 (by decide)
  · rw [run_firstOps]
    rfl

end

end KronMesh
