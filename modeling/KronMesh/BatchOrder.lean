import KronMesh.Topo
import Mathlib.Data.List.Permutation

/-!
# The order of a batch is a matter of the batch

The sort walks three hash maps, in orders that nothing fixes. Whatever these orders are, and in
whatever order the batch came, the result is the same: the queue is sorted at the start, and so is
whatever joins it (`topoLoop_congr`). A batch is ordered exactly when its parents are known and none
of its vertices waits for itself through others.
-/

namespace KronMesh

open Word Outcome Wire Relation

/-- The orders in which the sort comes to see its hash maps. -/
structure Iteration (unique : AList fun _ : TxHash => DagTransaction) where
  /-- `for id in &batch_ids` -/
  batchIds : List TxHash
  /-- `unique.values()` -/
  values : List (Sigma fun _ : TxHash => DagTransaction)
  /-- `indeg.iter()` -/
  counted : List TxHash
  batchIds_perm : batchIds.Perm unique.keys
  values_perm : values.Perm unique.entries
  counted_perm : counted.Perm unique.keys

/-- `topo_order_incoming`, with its hash maps seen in the orders of `it`. -/
def topoOrderIterating (g : Graph) (unique : AList fun _ : TxHash => DagTransaction)
    (it : Iteration unique) : Except (Fault SyncError) (List DagTransaction) := do
  let start : Waiting := ⟨it.batchIds.foldl (fun indeg id => indeg.set id 0) ∅, ∅⟩
  let waiting ← it.values.foldlM
    (fun w e => e.2.parents.foldlM (countParent g unique e.1) w) start
  let ready := it.counted.filter fun id => waiting.indeg.get id = 0
  topoLoop waiting.dependents (unique.entries.length + 1) (ready.insertionSort (· ≤ ·)) unique
    waiting.indeg

/-- The order in which the model keeps a map. -/
def Iteration.kept (unique : AList fun _ : TxHash => DagTransaction) : Iteration unique :=
  ⟨unique.keys, unique.entries, unique.keys, .refl _, .refl _, .refl _⟩

theorem topoOrderIncoming_eq (g : Graph) (txs : List DagTransaction) :
    topoOrderIncoming g txs = topoOrderIterating g (uniqueOf txs) (.kept _) := by
  unfold topoOrderIncoming topoOrderIterating Iteration.kept AList.keys List.keys
  simp only [List.foldl_map]

/-- A vertex of the batch names another as its parent, and neither is stored. -/
def WaitsFor (g : Graph) (txs : List DagTransaction) (x p : TxHash) : Prop :=
  ∃ tx ∈ txs, ∃ y ∈ txs, tx.id = x ∧ y.id = p ∧ p ∈ tx.parents
    ∧ g.contains x = false ∧ g.contains p = false

section

variable {g : Graph} {txs txs' : List DagTransaction}
  {unique unique' : AList fun _ : TxHash => DagTransaction}

/-! ## One outcome for all orders -/

/-- Sorted, two orders of the same ids are one. -/
theorem insertionSort_eq_of_perm {l l' : List TxHash} (h : l.Perm l') :
    l.insertionSort (· ≤ ·) = l'.insertionSort (· ≤ ·) := by
  refine List.Perm.eq_of_pairwise (fun _ _ _ _ => BitVec.le_antisymm)
    (List.pairwise_insertionSort _ l) (List.pairwise_insertionSort _ l') ?_
  exact (List.perm_insertionSort _ l).trans (h.trans (List.perm_insertionSort _ l').symm)

theorem entries_eq_nil_iff :
    unique.entries = [] ↔ ∀ id, unique.lookup id = none := by
  constructor
  · intro h id
    unfold AList.lookup
    rw [h]
    rfl
  · intro h
    by_contra hne
    obtain ⟨e, he⟩ := List.exists_mem_of_ne_nil _ hne
    have hl : unique.lookup e.1 = some e.2 := AList.mem_lookup_iff.2 he
    rw [h] at hl
    cases hl

/-- What a turn releases does not depend on the order of those that wait. -/
theorem release_congr {kids kids' : List TxHash} (h : kids.Perm kids') (hnd : kids.Nodup)
    {indeg indeg' : Tally TxHash} (hget : ∀ y, indeg.get y = indeg'.get y) :
    (∀ y, (release indeg kids).1.get y = (release indeg' kids').1.get y)
      ∧ (release indeg kids).2.Perm (release indeg' kids').2 := by
  obtain ⟨hin, hout, hnewly⟩ := release_spec kids indeg hnd
  obtain ⟨hin', hout', hnewly'⟩ := release_spec kids' indeg' (h.nodup_iff.1 hnd)
  refine ⟨fun y => ?_, ?_⟩
  · by_cases hy : y ∈ kids
    · rw [hin y hy, hin' y (h.subset hy), hget]
    · rw [hout y hy, hout' y fun hy' => hy (h.symm.subset hy'), hget]
  · rw [hnewly, hnewly']
    simp only [hget]
    exact h.filter _

/-- The loop looks at the bodies left, at the counts, and at who waits for whom in any order. -/
theorem topoLoop_congr {dependents dependents' : AList fun _ : TxHash => List TxHash}
    (hkids : ∀ x, ((dependents.lookup x).getD []).Perm ((dependents'.lookup x).getD []))
    (hnd : ∀ x, ((dependents.lookup x).getD []).Nodup) :
    ∀ (fuel : ℕ) (queue : List TxHash) (unique unique' : AList fun _ : TxHash => DagTransaction)
      (indeg indeg' : Tally TxHash), (∀ id, unique.lookup id = unique'.lookup id) →
      (∀ y, indeg.get y = indeg'.get y) →
      topoLoop dependents fuel queue unique indeg = topoLoop dependents' fuel queue unique' indeg'
  | 0, _, _, _, _, _, _, _ => rfl
  | fuel + 1, [], unique, unique', _, _, hl, _ => by
    have hentries : unique.entries = [] ↔ unique'.entries = [] := by
      simp only [entries_eq_nil_iff, hl]
    rw [topoLoop, topoLoop]
    simp only [ne_eq, hentries]
  | fuel + 1, id :: queue, unique, unique', indeg, indeg', hl, hget => by
    obtain ⟨hget', hnewly⟩ := release_congr (hkids id) (hnd id) hget
    have hl' : ∀ x, (unique.erase id).lookup x = (unique'.erase id).lookup x := by
      intro x
      by_cases hx : x = id
      · rw [hx, AList.lookup_erase, AList.lookup_erase]
      · rw [AList.lookup_erase_ne hx, AList.lookup_erase_ne hx, hl]
    have ih := topoLoop_congr hkids hnd fuel
      (queue ++ (release indeg ((dependents.lookup id).getD [])).2.insertionSort (· ≤ ·)) _ _ _ _
      hl' hget'
    rw [topoLoop, topoLoop, ← hl id]
    rcases unique.lookup id with _ | tx
    · rfl
    · simp only []
      rw [ih, insertionSort_eq_of_perm hnewly]

/-- A batch is kept whole in whatever order it comes. -/
theorem lookup_uniqueOf_perm (h : txs'.Perm txs) (hnd : (txs.map DagTransaction.id).Nodup)
    (id : TxHash) : (uniqueOf txs').lookup id = (uniqueOf txs).lookup id := by
  have hnd' : (txs'.map DagTransaction.id).Nodup := (h.map _).nodup_iff.2 hnd
  refine Option.ext fun tx => ?_
  rw [lookup_uniqueOf hnd, lookup_uniqueOf hnd', h.mem_iff]

/-- Maps that say the same are orders of each other. -/
theorem entries_perm (hl : ∀ id, unique.lookup id = unique'.lookup id) :
    unique.entries.Perm unique'.entries := by
  refine (List.perm_ext_iff_of_nodup unique.nodupKeys.nodup unique'.nodupKeys.nodup).2 fun e => ?_
  rw [← AList.mem_lookup_iff, ← AList.mem_lookup_iff, hl]

theorem batchParents_congr (hl : ∀ id, unique.lookup id = unique'.lookup id) (id : TxHash) :
    batchParents g unique id = batchParents g unique' id := by
  unfold batchParents
  rw [hl]

theorem get_foldl_set_zero (id : TxHash) : ∀ (ids : List TxHash) (t : Tally TxHash),
    t.get id = 0 → (ids.foldl (fun t id => t.set id 0) t).get id = 0
  | [], _, h => h
  | j :: ids, t, h => by
    refine get_foldl_set_zero id ids _ ?_
    rw [Tally.get_set, h]
    split_ifs <;> rfl

/-- What is counted before the loop, and the queue it starts with. -/
theorem topoOrderIterating_eq
    (hknown : ∀ e ∈ unique.entries, ∀ p ∈ e.2.parents, Known g unique p) (it : Iteration unique) :
    ∃ w : Waiting, topoOrderIterating g unique it
        = topoLoop w.dependents (unique.entries.length + 1)
          ((it.counted.filter fun id => w.indeg.get id = 0).insertionSort (· ≤ ·)) unique w.indeg
      ∧ (∀ j, w.indeg.get j = (batchParents g unique j).length)
      ∧ ∀ x, (w.kids x).Nodup ∧ ∀ y, y ∈ w.kids x ↔ x ∈ batchParents g unique y := by
  obtain ⟨w, hw, hindeg, hkids⟩ := count_ok it.values_perm
    (fun id => get_foldl_set_zero id it.batchIds ∅ rfl) hknown
  refine ⟨w, ?_, hindeg, hkids⟩
  unfold topoOrderIterating
  simp only [hw, ok_bind]

/-- Where every parent is known, the sort comes to one result in all orders. -/
theorem topoOrderIterating_congr (hl : ∀ id, unique.lookup id = unique'.lookup id)
    (hknown : ∀ e ∈ unique.entries, ∀ p ∈ e.2.parents, Known g unique p)
    (it : Iteration unique) (it' : Iteration unique') :
    topoOrderIterating g unique it = topoOrderIterating g unique' it' := by
  have hperm := entries_perm hl
  have hknown' : ∀ e ∈ unique'.entries, ∀ p ∈ e.2.parents, Known g unique' p := by
    intro e he p hp
    have h := hknown e (hperm.symm.subset he) p hp
    unfold Known at h ⊢
    rwa [← hl]
  obtain ⟨w, he, hindeg, hkids⟩ := topoOrderIterating_eq hknown it
  obtain ⟨w', he', hindeg', hkids'⟩ := topoOrderIterating_eq hknown' it'
  have hget : ∀ y, w.indeg.get y = w'.indeg.get y := by
    intro y
    rw [hindeg, hindeg', batchParents_congr hl]
  have hkidsPerm : ∀ x, (w.kids x).Perm (w'.kids x) := by
    intro x
    refine (List.perm_ext_iff_of_nodup (hkids x).1 (hkids' x).1).2 fun y => ?_
    rw [(hkids x).2, (hkids' x).2, batchParents_congr hl]
  have hcounted : it.counted.Perm it'.counted :=
    it.counted_perm.trans ((hperm.map Sigma.fst).trans it'.counted_perm.symm)
  rw [he, he', hperm.length_eq]
  simp only [hget]
  rw [insertionSort_eq_of_perm (hcounted.filter _)]
  exact topoLoop_congr hkidsPerm (fun x => (hkids x).1) _ _ _ _ _ _ hl hget

/-! ## When a batch is ordered -/

/-- Vertices that wait in a circle are all new to the node. -/
theorem waitsFor_of_transGen (hnd : (txs.map DagTransaction.id).Nodup) {left : List TxHash}
    (hsub : left ⊆ (uniqueOf txs).keys) {x y : TxHash}
    (h : TransGen (fun p x => p ∈ batchParents g (uniqueOf txs) x ∧ p ∈ left ∧ x ∈ left) x y)
    (hy : g.contains y = false) : TransGen (fun p x => WaitsFor g txs x p) x y := by
  have hstep : ∀ {p x}, p ∈ batchParents g (uniqueOf txs) x → p ∈ left →
      g.contains x = false → WaitsFor g txs x p := by
    intro p x hp hpl hx
    obtain ⟨tx, hl, hpar, hc⟩ := mem_batchParents.1 hp
    obtain ⟨htx, rfl⟩ := (lookup_uniqueOf hnd).1 hl
    obtain ⟨z, hz⟩ := Option.isSome_iff_exists.1
      (AList.lookup_isSome.2 (AList.mem_keys.1 (hsub hpl)))
    obtain ⟨hmem, rfl⟩ := (lookup_uniqueOf hnd).1 hz
    exact ⟨tx, htx, z, hmem, rfl, rfl, hpar, hx, hc⟩
  induction h with
  | single h => exact .single (hstep h.1 h.2.1 hy)
  | tail _ h ih =>
    obtain ⟨-, -, -, hc⟩ := mem_batchParents.1 h.1
    exact (ih hc).tail (hstep h.1 h.2.1 hy)

/-- An ordered batch has no vertex that waits for itself. -/
theorem not_transGen_of_ordered (hnd : (txs.map DagTransaction.id).Nodup)
    {ordered : List DagTransaction}
    (h : Ordered (batchParents g (uniqueOf txs)) (uniqueOf txs) ordered) (x : TxHash) :
    ¬ TransGen (WaitsFor g txs) x x := by
  have hlt : ∀ {x p}, WaitsFor g txs x p →
      (ordered.map DagTransaction.id).idxOf p < (ordered.map DagTransaction.id).idxOf x := by
    rintro x p ⟨tx, htx, y, hy, rfl, rfl, hpar, -, hc⟩
    have hl := (lookup_uniqueOf hnd).2 ⟨htx, rfl⟩
    obtain ⟨pre, post, he⟩ := List.append_of_mem ((h.mem tx).2 hl)
    have hkey : y.id ∈ (uniqueOf txs).keys :=
      AList.mem_keys.2 (AList.lookup_isSome.1 (by rw [(lookup_uniqueOf hnd).2 ⟨hy, rfl⟩]; rfl))
    have hpre := h.behind he y.id (mem_batchParents.2 ⟨tx, hl, hpar, hc⟩) hkey
    have hnotin : tx.id ∉ pre.map DagTransaction.id := by
      have hn := h.nodup
      rw [he, List.map_append, List.map_cons] at hn
      exact fun hm => (List.nodup_append.1 hn).2.2 _ hm _ List.mem_cons_self rfl
    rw [he, List.map_append, List.map_cons, List.idxOf_append_of_mem hpre,
      List.idxOf_append_of_notMem hnotin, List.idxOf_cons_self, Nat.add_zero]
    exact List.idxOf_lt_length_iff.2 hpre
  have hall : ∀ {x p}, TransGen (WaitsFor g txs) x p →
      (ordered.map DagTransaction.id).idxOf p < (ordered.map DagTransaction.id).idxOf x := by
    intro x p hxp
    induction hxp with
    | single h => exact hlt h
    | tail _ h ih => exact (hlt h).trans ih
  exact fun hx => lt_irrefl _ (hall hx)

/-- Everything the sort can do with a batch whose parents are known. -/
theorem topoOrderIterating_cases (hnd : (txs.map DagTransaction.id).Nodup)
    (hknown : ∀ e ∈ (uniqueOf txs).entries, ∀ p ∈ e.2.parents, Known g (uniqueOf txs) p)
    (it : Iteration (uniqueOf txs)) :
    (∃ ordered, topoOrderIterating g (uniqueOf txs) it = .ok ordered
      ∧ Ordered (batchParents g (uniqueOf txs)) (uniqueOf txs) ordered) ∨
    (topoOrderIterating g (uniqueOf txs) it = .error (.err .cyclicBatch)
      ∧ ∃ x, TransGen (WaitsFor g txs) x x) := by
  obtain ⟨w, he, hindeg, hkids⟩ := topoOrderIterating_eq hknown it
  have hready := ready_of_count it.counted_perm hknown hindeg
  have hfuel : (uniqueOf txs).keys.length < (uniqueOf txs).entries.length + 1 := by
    rw [AList.keys, List.keys, List.length_map]
    omega
  rw [he]
  refine (topoLoop_cases (fun y => nodup_batchParents y) hkids _ _ _ _ hready hfuel
    fun {id tx} hl => ((lookup_uniqueOf hnd).1 hl).2).imp_right ?_
  rintro ⟨hcyclic, left, indeg, hsub, hne, hleft⟩
  obtain ⟨x, hx⟩ := hleft.exists_cycle hne
  refine ⟨hcyclic, x, transGen_swap.1 (waitsFor_of_transGen hnd hsub hx ?_)⟩
  obtain ⟨y, h, -⟩ := TransGen.head'_iff.1 hx
  obtain ⟨-, -, -, hc⟩ := mem_batchParents.1 h.1
  exact hc

/-- The sort fails on a batch that names a parent which is neither stored nor in it. -/
theorem topoOrderIterating_missing
    (h : ∃ e ∈ (uniqueOf txs).entries, ∃ p ∈ e.2.parents, ¬ Known g (uniqueOf txs) p)
    (it : Iteration (uniqueOf txs)) :
    ∃ q, topoOrderIterating g (uniqueOf txs) it = .error (.err (.missingParent q)) := by
  obtain ⟨e, he, hbad⟩ := h
  obtain ⟨q, hq⟩ := countEntries_missing (g := g) it.values
    ⟨it.batchIds.foldl (fun indeg id => indeg.set id 0) ∅, ∅⟩
    ⟨e, it.values_perm.symm.subset he, hbad⟩
  unfold topoOrderIterating
  simp only [hq]
  exact ⟨q, rfl⟩

/-- What an ordered batch is: the batch, each vertex behind those of its parents that are new. -/
theorem ordered_spec (hnd : (txs.map DagTransaction.id).Nodup) {ordered : List DagTransaction}
    (h : Ordered (batchParents g (uniqueOf txs)) (uniqueOf txs) ordered) :
    ordered.Perm txs ∧ ∀ pre tx post, ordered = pre ++ tx :: post → ∀ p ∈ tx.parents,
      (∃ y ∈ txs, y.id = p) → g.contains p = false → p ∈ pre.map DagTransaction.id := by
  constructor
  · refine (List.perm_ext_iff_of_nodup (List.Nodup.of_map _ h.nodup)
      (List.Nodup.of_map _ hnd)).2 fun tx => ?_
    rw [h.mem, lookup_uniqueOf hnd, and_iff_left rfl]
  · rintro pre tx post he p hp ⟨y, hy, rfl⟩ hc
    have hmem : tx ∈ ordered := he ▸ List.mem_append_right _ List.mem_cons_self
    refine h.behind he y.id (mem_batchParents.2 ⟨tx, (h.mem tx).1 hmem, hp, hc⟩) ?_
    exact AList.mem_keys.2 (AList.lookup_isSome.1 (by rw [(lookup_uniqueOf hnd).2 ⟨hy, rfl⟩]; rfl))

/-- The sort finds an order exactly when every parent is known and no new vertex waits for itself
through others. The order lists the batch with parents first, and it is the same for every
permutation of the batch and whatever orders the hash maps come in. And the sort never panics. -/
theorem topo_order_correct (g : Graph) (txs : List DagTransaction)
    (hnd : (txs.map DagTransaction.id).Nodup) (it : Iteration (uniqueOf txs)) :
    ((∃ ordered, topoOrderIterating g (uniqueOf txs) it = .ok ordered) ↔
      (∀ tx ∈ txs, ∀ p ∈ tx.parents, g.contains p = true ∨ ∃ y ∈ txs, y.id = p)
        ∧ ∀ x, ¬ TransGen (WaitsFor g txs) x x)
    ∧ (∀ ordered, topoOrderIterating g (uniqueOf txs) it = .ok ordered →
      ordered.Perm txs
      ∧ (∀ pre tx post, ordered = pre ++ tx :: post → ∀ p ∈ tx.parents,
        (∃ y ∈ txs, y.id = p) → g.contains p = false → p ∈ pre.map DagTransaction.id)
      ∧ ∀ txs', txs'.Perm txs → ∀ it' : Iteration (uniqueOf txs'),
        topoOrderIterating g (uniqueOf txs') it' = .ok ordered)
    ∧ topoOrderIterating g (uniqueOf txs) it ≠ .error .panic := by
  have hentry : ∀ e, e ∈ (uniqueOf txs).entries ↔ e.2 ∈ txs ∧ e.2.id = e.1 := fun e =>
    AList.mem_lookup_iff.symm.trans (lookup_uniqueOf hnd)
  have hknown_iff : (∀ e ∈ (uniqueOf txs).entries, ∀ p ∈ e.2.parents, Known g (uniqueOf txs) p)
      ↔ ∀ tx ∈ txs, ∀ p ∈ tx.parents, g.contains p = true ∨ ∃ y ∈ txs, y.id = p := by
    simp only [known_uniqueOf hnd]
    exact ⟨fun h tx htx => h ⟨tx.id, tx⟩ ((hentry _).2 ⟨htx, rfl⟩),
      fun h e he => h e.2 ((hentry e).1 he).1⟩
  rw [← hknown_iff]
  by_cases hknown : ∀ e ∈ (uniqueOf txs).entries, ∀ p ∈ e.2.parents, Known g (uniqueOf txs) p
  · rcases topoOrderIterating_cases hnd hknown it with ⟨ordered, he, hord⟩ | ⟨he, x, hx⟩
    · refine ⟨iff_of_true ⟨ordered, he⟩ ⟨hknown, not_transGen_of_ordered hnd hord⟩,
        fun ordered' he' => ?_, by rw [he]; exact nofun⟩
      obtain rfl := Except.ok.inj (he.symm.trans he')
      obtain ⟨hperm, hbehind⟩ := ordered_spec hnd hord
      refine ⟨hperm, hbehind, fun txs' hperm' it' => ?_⟩
      rw [← he]
      exact (topoOrderIterating_congr (fun id => (lookup_uniqueOf_perm hperm' hnd id).symm) hknown
        it it').symm
    · rw [he]
      exact ⟨iff_of_false nofun fun h => h.2 x hx, nofun, nofun⟩
  · have hbad : ∃ e ∈ (uniqueOf txs).entries, ∃ p ∈ e.2.parents, ¬ Known g (uniqueOf txs) p := by
      by_contra! hno
      exact hknown hno
    obtain ⟨q, hq⟩ := topoOrderIterating_missing hbad it
    rw [hq]
    exact ⟨iff_of_false nofun fun h => hknown h.1, nofun, nofun⟩

end

section

open StandIn

/-- A transfer and one that approves it come out in this order, whichever came first. -/
theorem topo_order_correct_pair :
    topoOrderIncoming genesisDag.toGraph [orphanTransfer, firstTransfer]
        = .ok [firstTransfer, orphanTransfer]
      ∧ topoOrderIncoming genesisDag.toGraph [firstTransfer, orphanTransfer]
        = .ok [firstTransfer, orphanTransfer] := by
  have hwaits : ∀ x p, WaitsFor genesisDag.toGraph [orphanTransfer, firstTransfer] x p →
      x = orphanTransfer.id ∧ p = firstTransfer.id := by
    rintro x p ⟨tx, htx, y, hy, rfl, rfl, hp, -, hnew⟩
    simp only [List.mem_cons, List.not_mem_nil, or_false] at htx hy
    rcases htx with rfl | rfl <;> rcases hy with rfl | rfl
    · exact absurd hp (by decide)
    · exact ⟨rfl, rfl⟩
    · exact absurd hp (by decide)
    · exact absurd hp (by decide)
  have hacyclic : ∀ x,
      ¬ TransGen (WaitsFor genesisDag.toGraph [orphanTransfer, firstTransfer]) x x := by
    intro x hx
    obtain ⟨y, hy, -⟩ := TransGen.head'_iff.1 hx
    obtain ⟨z, -, hz⟩ := TransGen.tail'_iff.1 hx
    exact absurd ((hwaits _ _ hy).1.symm.trans (hwaits _ _ hz).2) (by decide)
  have hknown : ∀ tx ∈ [orphanTransfer, firstTransfer], ∀ p ∈ tx.parents,
      genesisDag.contains p = true ∨ ∃ y ∈ [orphanTransfer, firstTransfer], y.id = p := by
    have hon : orphanTransfer.parents = [firstTransfer.id] := by decide
    have hroot : firstTransfer.parents = [genesisId] := by decide
    simp only [List.forall_mem_cons, List.not_mem_nil, false_imp_iff, implies_true, and_true, hon,
      hroot]
    exact ⟨.inr ⟨firstTransfer, by simp, rfl⟩, .inl (by decide)⟩
  obtain ⟨hiff, hordered, -⟩ := topo_order_correct genesisDag.toGraph
    [orphanTransfer, firstTransfer] (by decide) (.kept _)
  obtain ⟨ordered, hsort⟩ := hiff.2 ⟨hknown, hacyclic⟩
  obtain ⟨hperm, hbehind, hany⟩ := hordered ordered hsort
  have hpair : ordered = [firstTransfer, orphanTransfer] := by
    rcases List.perm_pair.1 hperm with rfl | rfl
    · have hfirst := hbehind [] orphanTransfer [firstTransfer] rfl firstTransfer.id (by decide)
        ⟨firstTransfer, by simp, rfl⟩ (by decide)
      cases hfirst
    · rfl
  subst hpair
  rw [topoOrderIncoming_eq, topoOrderIncoming_eq]
  exact ⟨hsort, hany _ (.swap _ _ _) (.kept _)⟩

end

end KronMesh
