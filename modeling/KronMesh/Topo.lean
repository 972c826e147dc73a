import KronMesh.Lib.Kahn
import KronMesh.Indexes
import KronMesh.Merge

/-!
# A batch in order

The order of a batch is found when every parent named in it is stored or in the batch and no vertex
waits for itself through others (`topoOrderIncoming_ok`). Then parents come first, and a batch of
vertices that are sound and new goes in whole. A parent that is neither stored nor in the batch
ends the merge before anything is stored.
-/

namespace KronMesh

open Word Outcome Wire

/-- The parents of a vertex of the batch that it waits for. -/
def batchParents (g : Graph) (unique : AList fun _ : TxHash => DagTransaction) (id : TxHash) :
    List TxHash :=
  match unique.lookup id with
  | some tx => tx.parents.filter fun p => !g.contains p
  | none => []

section Loop

variable {g : Graph} {unique : AList fun _ : TxHash => DagTransaction}

theorem DagTransaction.nodup_parents (tx : DagTransaction) : tx.parents.Nodup := by
  unfold DagTransaction.parents
  split_ifs with h1 h2
  · simpa using h2.2.symm
  · simp
  · simp
  · simp

theorem nodup_batchParents (id : TxHash) : (batchParents g unique id).Nodup := by
  unfold batchParents
  rcases unique.lookup id with _ | tx
  · exact List.nodup_nil
  · exact tx.nodup_parents.filter _

theorem mem_batchParents {id p : TxHash} : p ∈ batchParents g unique id ↔
    ∃ tx, unique.lookup id = some tx ∧ p ∈ tx.parents ∧ g.contains p = false := by
  unfold batchParents
  rcases unique.lookup id with _ | tx
  · simp
  · simp [List.mem_filter]

/-- Each of `kids` waits for one fewer; those of them that wait for none are returned. -/
theorem release_spec : ∀ (kids : List TxHash) (indeg : Tally TxHash), kids.Nodup →
    (∀ y ∈ kids, (release indeg kids).1.get y = indeg.get y - 1)
      ∧ (∀ y, y ∉ kids → (release indeg kids).1.get y = indeg.get y)
      ∧ (release indeg kids).2 = kids.filter fun k => indeg.get k - 1 = 0
  | [], _, _ => ⟨fun _ h => absurd h List.not_mem_nil, fun _ _ => rfl, rfl⟩
  | kid :: kids, indeg, hnd => by
    obtain ⟨hkid, hnd⟩ := List.nodup_cons.1 hnd
    obtain ⟨hin, hout, hnewly⟩ := release_spec kids (indeg.set kid (indeg.get kid - 1)) hnd
    have hsame : ∀ y ∈ kids, (indeg.set kid (indeg.get kid - 1)).get y = indeg.get y :=
      fun y hy => Tally.get_set_ne _ _ fun h => hkid (h ▸ hy)
    refine ⟨fun y hy => ?_, fun y hy => ?_, ?_⟩
    · rcases List.mem_cons.1 hy with rfl | hy
      · exact (hout y hkid).trans (Tally.get_set_self _ _ _)
      · exact (hin y hy).trans (by rw [hsame y hy])
    · rw [List.mem_cons, not_or] at hy
      exact (hout y hy.2).trans (Tally.get_set_ne _ _ hy.1)
    · have hfilter : (kids.filter fun k => (indeg.set kid (indeg.get kid - 1)).get k - 1 = 0)
          = kids.filter fun k => indeg.get k - 1 = 0 :=
        List.filter_congr fun y hy => by rw [hsame y hy]
      rw [release, List.filter_cons]
      simp only [hnewly, hfilter, decide_eq_true_eq]

/-- Each vertex of the batch once, behind those of `parents` that are in it. -/
structure Ordered (parents : TxHash → List TxHash)
    (unique : AList fun _ : TxHash => DagTransaction) (ordered : List DagTransaction) : Prop where
  mem : ∀ tx, tx ∈ ordered ↔ unique.lookup tx.id = some tx
  nodup : (ordered.map DagTransaction.id).Nodup
  behind : ∀ {pre tx post}, ordered = pre ++ tx :: post →
    ∀ p ∈ parents tx.id, p ∈ unique.keys → p ∈ pre.map DagTransaction.id

/-- A vertex that waits for none of the batch in front of the others in order. -/
theorem Ordered.cons {parents : TxHash → List TxHash} {tx : DagTransaction}
    {ordered : List DagTransaction} (hl : unique.lookup tx.id = some tx)
    (hfree : ∀ p ∈ parents tx.id, p ∉ unique.keys)
    (h : Ordered parents (unique.erase tx.id) ordered) :
    Ordered parents unique (tx :: ordered) := by
  have hmem : ∀ y ∈ ordered, y.id ≠ tx.id ∧ unique.lookup y.id = some y :=
    fun y hy => Assoc.lookup_erase_eq_some.1 ((h.mem y).1 hy)
  refine ⟨fun y => ?_, ?_, fun {pre y post} he p hp hkey => ?_⟩
  · rw [List.mem_cons]
    constructor
    · rintro (rfl | hy)
      · exact hl
      · exact (hmem y hy).2
    · intro hy
      by_cases hid : y.id = tx.id
      · rw [hid, hl] at hy
        exact .inl (Option.some.inj hy).symm
      · exact .inr ((h.mem y).2 (Assoc.lookup_erase_eq_some.2 ⟨hid, hy⟩))
  · rw [List.map_cons, List.nodup_cons]
    refine ⟨fun hm => ?_, h.nodup⟩
    obtain ⟨y, hy, hid⟩ := List.mem_map.1 hm
    exact (hmem y hy).1 hid
  · rcases pre with _ | ⟨z, pre⟩
    · obtain ⟨rfl, -⟩ := List.cons.inj he
      exact absurd hkey (hfree p hp)
    · obtain ⟨rfl, he'⟩ := List.cons.inj he
      rw [List.map_cons, List.mem_cons]
      by_cases hpx : p = tx.id
      · exact .inl hpx
      · refine .inr (h.behind he' p hp ?_)
        rw [AList.keys_erase]
        exact (List.mem_erase_of_ne hpx).2 hkey

theorem Ordered.nil {parents : TxHash → List TxHash} (h : unique.keys = []) :
    Ordered parents unique [] := by
  refine ⟨fun tx => ⟨fun hm => absurd hm List.not_mem_nil, fun hl => ?_⟩, List.nodup_nil,
    fun {pre tx post} he => absurd he.symm (by simp)⟩
  have hm : tx.id ∈ unique.keys := AList.mem_keys.2 (AList.lookup_isSome.1 (by rw [hl]; rfl))
  rw [h] at hm
  cases hm

/-- One round: of those that waited for the first of the queue, the ones that now wait for none are
queued behind the rest. -/
theorem ready_release {parents : TxHash → List TxHash} (hparents : ∀ y, (parents y).Nodup)
    {keys queue kids : List TxHash} {id : TxHash} {indeg : Tally TxHash}
    (h : Kahn.Ready parents keys (id :: queue) indeg.get) (hnd : kids.Nodup)
    (hmem : ∀ y, y ∈ kids ↔ id ∈ parents y) :
    Kahn.Ready parents (keys.erase id)
      (queue ++ (release indeg kids).2.insertionSort (· ≤ ·)) (release indeg kids).1.get := by
  obtain ⟨hin, hout, hnewly⟩ := release_spec kids indeg hnd
  have hget : ∀ y, (release indeg kids).1.get y
      = if id ∈ parents y then indeg.get y - 1 else indeg.get y := by
    intro y
    split_ifs with hy
    · exact hin y ((hmem y).2 hy)
    · exact hout y fun h => hy ((hmem y).1 h)
  refine h.pop (fun y _ => hparents y) hget ?_ fun y => ?_
  · rw [(List.perm_insertionSort _ _).nodup_iff, hnewly]
    exact hnd.filter _
  · rw [List.mem_insertionSort, hnewly, List.mem_filter, hmem, decide_eq_true_eq, hget]
    refine and_congr_right fun hy => ?_
    rw [if_pos hy]

/-- The loop orders what is left, or it runs out of vertices that wait for none of those left. -/
theorem topoLoop_cases {dependents : AList fun _ : TxHash => List TxHash}
    {parents : TxHash → List TxHash} (hparents : ∀ y, (parents y).Nodup)
    (hkids : ∀ x, ((dependents.lookup x).getD []).Nodup
      ∧ ∀ y, y ∈ (dependents.lookup x).getD [] ↔ x ∈ parents y) :
    ∀ (fuel : ℕ) (queue : List TxHash) (unique : AList fun _ : TxHash => DagTransaction)
      (indeg : Tally TxHash), Kahn.Ready parents unique.keys queue indeg.get →
      unique.keys.length < fuel → (∀ {id tx}, unique.lookup id = some tx → tx.id = id) →
      (∃ ordered, topoLoop dependents fuel queue unique indeg = .ok ordered
        ∧ Ordered parents unique ordered) ∨
      topoLoop dependents fuel queue unique indeg = .error (.err .cyclicBatch)
        ∧ ∃ left indeg', left ⊆ unique.keys ∧ left ≠ [] ∧ Kahn.Ready parents left [] indeg'
  | 0, _, _, _, _, hf, _ => absurd hf (Nat.not_lt_zero _)
  | fuel + 1, [], unique, indeg, h, _, _ => by
    by_cases hentries : unique.entries = []
    · refine .inl ⟨[], ?_, .nil (List.map_eq_nil_iff.2 hentries)⟩
      rw [topoLoop, if_neg (not_not.2 hentries)]
    · refine .inr ⟨by rw [topoLoop, if_pos hentries], unique.keys, indeg.get, fun _ h => h, ?_, h⟩
      exact fun hkeys => hentries (List.map_eq_nil_iff.1 hkeys)
  | fuel + 1, id :: queue, unique, indeg, h, hf, hids => by
    obtain ⟨hid, hid0⟩ := (h.mem_queue id).1 List.mem_cons_self
    obtain ⟨tx, hl⟩ := Option.isSome_iff_exists.1 (AList.lookup_isSome.2 (AList.mem_keys.1 hid))
    obtain rfl := hids hl
    obtain ⟨hnd, hmem⟩ := hkids tx.id
    have hready := ready_release hparents h hnd hmem
    rw [← AList.keys_erase] at hready
    have hlen : (unique.erase tx.id).keys.length < fuel := by
      have hpos := List.length_pos_of_mem hid
      rw [AList.keys_erase, List.length_erase_of_mem hid]
      omega
    rcases topoLoop_cases hparents hkids fuel _ _ _ hready hlen
        (fun hl' => hids (Assoc.lookup_erase_eq_some.1 hl').2) with
      ⟨ordered, hloop, hord⟩ | ⟨hloop, left, indeg', hsub, hleft⟩
    · refine .inl ⟨tx :: ordered, ?_, hord.cons hl fun p hp => ?_⟩
      · rw [topoLoop, hl]
        simp only [hloop]
        rfl
      · rw [h.indeg_eq _ hid, Kahn.pending_eq_zero] at hid0
        exact hid0 p hp
    · refine .inr ⟨?_, left, indeg', fun x hx => ?_, hleft⟩
      · rw [topoLoop, hl]
        simp only [hloop]
        rfl
      · have hx' := hsub hx
        rw [AList.keys_erase] at hx'
        exact List.mem_of_mem_erase hx'

/-- It orders what is left, as long as no vertex waits for itself through others. -/
theorem topoLoop_ok {dependents : AList fun _ : TxHash => List TxHash}
    {parents : TxHash → List TxHash} (hparents : ∀ y, (parents y).Nodup)
    (hkids : ∀ x, ((dependents.lookup x).getD []).Nodup
      ∧ ∀ y, y ∈ (dependents.lookup x).getD [] ↔ x ∈ parents y)
    {rank : TxHash → ℕ} (hrank : ∀ y, ∀ p ∈ parents y, rank p < rank y) {fuel : ℕ}
    {queue : List TxHash} {unique : AList fun _ : TxHash => DagTransaction} {indeg : Tally TxHash}
    (h : Kahn.Ready parents unique.keys queue indeg.get) (hf : unique.keys.length < fuel)
    (hids : ∀ {id tx}, unique.lookup id = some tx → tx.id = id) :
    ∃ ordered, topoLoop dependents fuel queue unique indeg = .ok ordered
      ∧ Ordered parents unique ordered := by
  refine (topoLoop_cases hparents hkids fuel queue unique indeg h hf hids).resolve_right ?_
  rintro ⟨-, left, indeg', -, hne, hleft⟩
  exact hleft.queue_ne_nil (fun y _ p hp _ => hrank y p hp) hne rfl

end Loop

/-! ## What is counted before the loop -/

section Count

variable {g : Graph} {unique : AList fun _ : TxHash => DagTransaction}

/-- Who waits for `p`. -/
def Waiting.kids (w : Waiting) (p : TxHash) : List TxHash := (w.dependents.lookup p).getD []

/-- The parent is stored or in the batch. -/
def Known (g : Graph) (unique : AList fun _ : TxHash => DagTransaction) (p : TxHash) : Prop :=
  g.contains p = true ∨ (unique.lookup p).isSome = true

theorem countParent_ok (id : TxHash) (w : Waiting) {p : TxHash} (hp : Known g unique p) :
    ∃ w', countParent g unique id w p = .ok w'
      ∧ (∀ j, w'.indeg.get j = w.indeg.get j + if j = id ∧ g.contains p = false then 1 else 0)
      ∧ ∀ q, w'.kids q = w.kids q ++ if q = p ∧ g.contains p = false then [id] else [] := by
  unfold countParent
  rcases hc : g.contains p
  · have hbatch : (unique.lookup p).isSome = true := by
      rcases hp with hp | hp
      · rw [hc] at hp
        cases hp
      · exact hp
    simp only [hbatch, Bool.true_eq_false, and_false, if_false, and_self, if_true, and_true]
    refine ⟨_, rfl, fun j => ?_, fun q => ?_⟩
    · rw [Tally.get_set]
      split_ifs with hj
      · rw [hj]
      · rfl
    · refine (Assoc.getD_pushAt _ _ _ _).trans ?_
      split_ifs with hq
      · rw [hq]
        rfl
      · exact (List.append_nil _).symm
  · simp

theorem countParent_missing (id : TxHash) (w : Waiting) {p : TxHash} (hp : ¬ Known g unique p) :
    countParent g unique id w p = .error (.err (.missingParent p)) := by
  unfold Known at hp
  rw [not_or, Bool.not_eq_true, Bool.not_eq_true] at hp
  unfold countParent
  simp [hp]

theorem countParents_ok (id : TxHash) : ∀ (ps : List TxHash) (w : Waiting), ps.Nodup →
    (∀ p ∈ ps, Known g unique p) → ∃ w', ps.foldlM (countParent g unique id) w = .ok w'
      ∧ (∀ j, w'.indeg.get j
        = w.indeg.get j + if j = id then ps.countP (fun p => !g.contains p) else 0)
      ∧ ∀ q, w'.kids q
        = w.kids q ++ if ps.contains q && !g.contains q then [id] else []
  | [], w, _, _ => ⟨w, rfl, fun j => by simp, fun q => by simp⟩
  | p :: ps, w, hnd, hps => by
    obtain ⟨hp, hps⟩ := List.forall_mem_cons.1 hps
    obtain ⟨hmem, hnd⟩ := List.nodup_cons.1 hnd
    obtain ⟨w₁, h₁, hindeg₁, hkids₁⟩ := countParent_ok id w hp
    obtain ⟨w', h', hindeg, hkids⟩ := countParents_ok id ps w₁ hnd hps
    refine ⟨w', ?_, fun j => ?_, fun q => ?_⟩
    · rw [List.foldlM_cons, h₁, ok_bind, h']
    · rw [hindeg, hindeg₁, List.countP_cons]
      rcases hc : g.contains p <;> by_cases hj : j = id <;> simp [hj]
      omega
    · rw [hkids, hkids₁, List.append_assoc, List.contains_cons]
      by_cases hq : q = p
      · subst hq
        rcases hc : g.contains q <;> simp [hmem]
      · have hne : (q == p) = false := beq_eq_false_iff_ne.2 hq
        simp [hq, hne]

theorem countParents_missing (id : TxHash) : ∀ (ps : List TxHash) (w : Waiting),
    (∃ p ∈ ps, ¬ Known g unique p) →
      ∃ q, ps.foldlM (countParent g unique id) w = .error (.err (.missingParent q))
  | [], _, h => by simp at h
  | p :: ps, w, h => by
    rw [List.foldlM_cons]
    by_cases hp : Known g unique p
    · obtain ⟨w₁, h₁, -⟩ := countParent_ok id w hp
      rw [h₁, ok_bind]
      obtain ⟨q, hq, hno⟩ := h
      rcases List.mem_cons.1 hq with rfl | hq
      · exact absurd hp hno
      · exact countParents_missing id ps w₁ ⟨q, hq, hno⟩
    · rw [countParent_missing id w hp]
      exact ⟨p, rfl⟩

/-- The count of the whole batch. -/
theorem countEntries_ok : ∀ (es : List (Sigma fun _ : TxHash => DagTransaction)) (w : Waiting),
    es.NodupKeys → (∀ e ∈ es, ∀ p ∈ e.2.parents, Known g unique p) →
      ∃ w', es.foldlM (fun w e => e.2.parents.foldlM (countParent g unique e.1) w) w = .ok w'
        ∧ (∀ j, j ∉ es.keys → w'.indeg.get j = w.indeg.get j)
        ∧ (∀ e ∈ es, w'.indeg.get e.1
          = w.indeg.get e.1 + e.2.parents.countP fun p => !g.contains p)
        ∧ ∀ q, w'.kids q = w.kids q
          ++ (es.filter fun e => e.2.parents.contains q && !g.contains q).map Sigma.fst
  | [], w, _, _ => ⟨w, rfl, fun _ _ => rfl, fun _ h => absurd h List.not_mem_nil, fun q => by simp⟩
  | e :: es, w, hnd, hes => by
    obtain ⟨he, hes⟩ := List.forall_mem_cons.1 hes
    obtain ⟨hmem, hnd⟩ := List.nodupKeys_cons.1 hnd
    obtain ⟨w₁, h₁, hindeg₁, hkids₁⟩ := countParents_ok e.1 _ w e.2.nodup_parents he
    obtain ⟨w', h', hout, hin, hkids⟩ := countEntries_ok es w₁ hnd hes
    refine ⟨w', ?_, fun j hj => ?_, fun x hx => ?_, fun q => ?_⟩
    · rw [List.foldlM_cons, h₁, ok_bind, h']
    · rw [List.keys_cons, List.mem_cons, not_or] at hj
      rw [hout j hj.2, hindeg₁, if_neg hj.1, Nat.add_zero]
    · rcases List.mem_cons.1 hx with rfl | hx
      · rw [hout _ hmem, hindeg₁, if_pos rfl]
      · have hne : x.1 ≠ e.1 := fun h => hmem (h ▸ List.mem_keys_of_mem hx)
        rw [hin x hx, hindeg₁, if_neg hne, Nat.add_zero]
    · rw [hkids, hkids₁, List.append_assoc, List.filter_cons]
      split_ifs <;> simp

theorem countEntries_missing : ∀ (es : List (Sigma fun _ : TxHash => DagTransaction))
    (w : Waiting), (∃ e ∈ es, ∃ p ∈ e.2.parents, ¬ Known g unique p) →
      ∃ q, es.foldlM (fun w e => e.2.parents.foldlM (countParent g unique e.1) w) w
        = .error (.err (.missingParent q))
  | [], _, h => by simp at h
  | e :: es, w, h => by
    rw [List.foldlM_cons]
    by_cases hbad : ∃ p ∈ e.2.parents, ¬ Known g unique p
    · obtain ⟨q, hq⟩ := countParents_missing e.1 _ w hbad
      rw [hq]
      exact ⟨q, rfl⟩
    · have hgood : ∀ p ∈ e.2.parents, Known g unique p := by
        intro p hp
        by_contra hno
        exact hbad ⟨p, hp, hno⟩
      obtain ⟨w₁, h₁, -⟩ := countParents_ok e.1 _ w e.2.nodup_parents hgood
      rw [h₁, ok_bind]
      obtain ⟨x, hx, hno⟩ := h
      rcases List.mem_cons.1 hx with rfl | hx
      · exact absurd hno hbad
      · exact countEntries_missing es w₁ ⟨x, hx, hno⟩

end Count

/-! ## The order -/

section Order

variable {g : Graph} {txs : List DagTransaction}

theorem lookup_foldl_unique (id : TxHash) : ∀ (txs : List DagTransaction)
    (u : AList fun _ : TxHash => DagTransaction),
    (txs.foldl (fun u tx => if (u.lookup tx.id).isSome then u else u.insert tx.id tx) u).lookup id
      = (u.lookup id).or (txs.find? fun tx => tx.id == id)
  | [], u => (Option.or_none).symm
  | tx :: txs, u => by
    rw [List.foldl_cons, lookup_foldl_unique id txs, List.find?_cons]
    by_cases hid : tx.id = id
    · subst hid
      rcases hl : u.lookup tx.id with _ | y
      · simp
      · simp [hl]
    · have hne : (tx.id == id) = false := beq_eq_false_iff_ne.2 hid
      rw [hne]
      split_ifs
      · rfl
      · rw [AList.lookup_insert_ne (Ne.symm hid)]

/-- A batch in which no id comes twice is kept whole. -/
theorem lookup_uniqueOf (hnd : (txs.map DagTransaction.id).Nodup) {id : TxHash}
    {tx : DagTransaction} : (uniqueOf txs).lookup id = some tx ↔ tx ∈ txs ∧ tx.id = id := by
  unfold uniqueOf
  rw [lookup_foldl_unique, AList.lookup_empty, Option.none_or]
  constructor
  · intro h
    exact ⟨List.mem_of_find?_eq_some h, by simpa using List.find?_some h⟩
  · rintro ⟨hmem, rfl⟩
    rcases h : txs.find? fun y => y.id == tx.id with _ | y
    · exact absurd (beq_self_eq_true tx.id) (List.find?_eq_none.1 h tx hmem)
    · have hid : y.id = tx.id := by simpa using List.find?_some h
      rw [h, List.inj_on_of_nodup_map hnd (List.mem_of_find?_eq_some h) hmem hid]

theorem get_foldl_zero (id : TxHash) : ∀ (es : List (Sigma fun _ : TxHash => DagTransaction))
    (t : Tally TxHash), t.get id = 0 → (es.foldl (fun t e => t.set e.1 0) t).get id = 0
  | [], _, h => h
  | e :: es, t, h => by
    refine get_foldl_zero id es _ ?_
    rw [Tally.get_set, h]
    split_ifs <;> rfl

theorem known_uniqueOf (hnd : (txs.map DagTransaction.id).Nodup) {p : TxHash} :
    Known g (uniqueOf txs) p ↔ g.contains p = true ∨ ∃ y ∈ txs, y.id = p := by
  unfold Known
  rw [Option.isSome_iff_exists]
  simp only [lookup_uniqueOf hnd]

/-- What is counted of a batch, in whatever order its vertices come: how many of its parents each
vertex has in it, and who waits for whom. -/
theorem count_ok {unique : AList fun _ : TxHash => DagTransaction}
    {es : List (Sigma fun _ : TxHash => DagTransaction)} (hes : es.Perm unique.entries)
    {start : Tally TxHash} (hstart : ∀ id, start.get id = 0)
    (hknown : ∀ e ∈ unique.entries, ∀ p ∈ e.2.parents, Known g unique p) :
    ∃ w, es.foldlM (fun w e => e.2.parents.foldlM (countParent g unique e.1) w) ⟨start, ∅⟩ = .ok w
      ∧ (∀ j, w.indeg.get j = (batchParents g unique j).length)
      ∧ ∀ x, (w.kids x).Nodup ∧ ∀ y, y ∈ w.kids x ↔ x ∈ batchParents g unique y := by
  have hnd : es.NodupKeys := (List.perm_nodupKeys hes).2 unique.nodupKeys
  obtain ⟨w, hw, hout, hindeg, hkids⟩ := countEntries_ok es ⟨start, ∅⟩ hnd
    fun e he => hknown e (hes.subset he)
  refine ⟨w, hw, fun j => ?_, fun x => ?_⟩
  · unfold batchParents
    rcases hl : unique.lookup j with _ | tx
    · refine (hout j fun hj => ?_).trans (hstart j)
      rw [AList.lookup_eq_none] at hl
      exact hl ((hes.map Sigma.fst).subset hj)
    · have he : (⟨j, tx⟩ : Sigma fun _ : TxHash => DagTransaction) ∈ es :=
        hes.symm.subset (AList.mem_lookup_iff.1 hl)
      rw [hindeg _ he]
      simp only [hstart, Nat.zero_add, List.countP_eq_length_filter]
  · have hnil : Waiting.kids ⟨start, ∅⟩ x = [] := rfl
    rw [hkids, hnil, List.nil_append]
    refine ⟨(List.filter_sublist.map _).nodup hnd, fun y => ?_⟩
    rw [mem_batchParents, List.mem_map]
    constructor
    · rintro ⟨e, he, rfl⟩
      obtain ⟨he, hx⟩ := List.mem_filter.1 he
      simp only [Bool.and_eq_true, List.contains_iff_mem, Bool.not_eq_true'] at hx
      exact ⟨e.2, AList.mem_lookup_iff.2 (hes.subset he), hx⟩
    · rintro ⟨tx, hl, hx⟩
      refine ⟨⟨y, tx⟩, List.mem_filter.2 ⟨hes.symm.subset (AList.mem_lookup_iff.1 hl), ?_⟩, rfl⟩
      simpa using hx

/-- The loop starts with every vertex queued that waits for nothing in the batch. -/
theorem ready_of_count {unique : AList fun _ : TxHash => DagTransaction} {indeg : Tally TxHash}
    {ids : List TxHash} (hids : ids.Perm unique.keys)
    (hknown : ∀ e ∈ unique.entries, ∀ p ∈ e.2.parents, Known g unique p)
    (hindeg : ∀ j, indeg.get j = (batchParents g unique j).length) :
    Kahn.Ready (batchParents g unique) unique.keys
      ((ids.filter fun id => indeg.get id = 0).insertionSort (· ≤ ·)) indeg.get := by
  refine ⟨unique.keys_nodup, ?_, fun x hx => ?_, fun x => ?_, fun x hx p hp => ?_⟩
  · rw [(List.perm_insertionSort _ _).nodup_iff]
    exact (hids.nodup_iff.2 unique.keys_nodup).filter _
  · obtain ⟨e, he, rfl⟩ := List.mem_map.1 hx
    have hl : unique.lookup e.1 = some e.2 := AList.mem_lookup_iff.2 he
    rw [hindeg, Kahn.pending, eq_comm, List.countP_eq_length]
    intro p hp
    obtain ⟨tx, hl', hpar, hc⟩ := mem_batchParents.1 hp
    obtain rfl := Option.some.inj (hl.symm.trans hl')
    have hk := hknown e he p hpar
    unfold Known at hk
    rw [hc, or_iff_right Bool.false_ne_true] at hk
    exact List.contains_iff_mem.2 (AList.mem_keys.2 (AList.lookup_isSome.1 hk))
  · rw [List.mem_insertionSort, List.mem_filter, decide_eq_true_eq, hids.mem_iff]
  · obtain ⟨tx, hl, -⟩ := mem_batchParents.1 hp
    exact absurd (AList.mem_keys.2 (AList.lookup_isSome.1 (by rw [hl]; rfl))) hx

/-- A batch whose parents are stored or in it, and in which no vertex waits for itself through
others, is ordered with parents first. -/
theorem topoOrderIncoming_ok (hnd : (txs.map DagTransaction.id).Nodup)
    (hpar : ∀ tx ∈ txs, ∀ p ∈ tx.parents, g.contains p = true ∨ ∃ y ∈ txs, y.id = p)
    {rank : TxHash → ℕ}
    (hrank : ∀ tx ∈ txs, ∀ p ∈ tx.parents, g.contains p = false → rank p < rank tx.id) :
    ∃ ordered, topoOrderIncoming g txs = .ok ordered ∧ ordered.Perm txs
      ∧ ∀ {pre tx post}, ordered = pre ++ tx :: post →
        ∀ p ∈ tx.parents, g.contains p = true ∨ p ∈ pre.map DagTransaction.id := by
  have hentry : ∀ e ∈ (uniqueOf txs).entries, e.2 ∈ txs ∧ e.2.id = e.1 := fun e he =>
    (lookup_uniqueOf hnd).1 (AList.mem_lookup_iff.2 he)
  have hknown : ∀ e ∈ (uniqueOf txs).entries, ∀ p ∈ e.2.parents, Known g (uniqueOf txs) p :=
    fun e he p hp => (known_uniqueOf hnd).2 (hpar _ (hentry e he).1 p hp)
  obtain ⟨w, hw, hindeg, hmemkids⟩ := count_ok (.refl _)
    (fun id => get_foldl_zero id (uniqueOf txs).entries ∅ rfl) hknown
  have hready := ready_of_count (.refl _) hknown hindeg
  have hrank' : ∀ y, ∀ p ∈ batchParents g (uniqueOf txs) y, rank p < rank y := by
    intro y p hp
    obtain ⟨tx, hl, hpar', hc⟩ := mem_batchParents.1 hp
    obtain ⟨hmem, rfl⟩ := (lookup_uniqueOf hnd).1 hl
    exact hrank tx hmem p hpar' hc
  have hfuel : (uniqueOf txs).keys.length < (uniqueOf txs).entries.length + 1 := by
    rw [AList.keys, List.keys, List.length_map]
    omega
  obtain ⟨ordered, hloop, hord⟩ := topoLoop_ok (fun y => nodup_batchParents y) hmemkids hrank'
    hready hfuel fun {id tx} hl => ((lookup_uniqueOf hnd).1 hl).2
  refine ⟨ordered, ?_, ?_, fun {pre tx post} he p hp => ?_⟩
  · unfold topoOrderIncoming
    simp only [hw, ok_bind]
    exact hloop
  · refine (List.perm_ext_iff_of_nodup (List.Nodup.of_map _ hord.nodup)
      (List.Nodup.of_map _ hnd)).2 fun tx => ?_
    rw [hord.mem, lookup_uniqueOf hnd, and_iff_left rfl]
  · rcases hc : g.contains p
    · have hmem : tx ∈ ordered := by
        rw [he]
        exact List.mem_append_right _ List.mem_cons_self
      have hl := (hord.mem tx).1 hmem
      refine .inr (hord.behind he p (mem_batchParents.2 ⟨tx, hl, hp, hc⟩) ?_)
      have hk := hknown ⟨tx.id, tx⟩ (AList.mem_lookup_iff.1 hl) p hp
      unfold Known at hk
      rw [hc, or_iff_right Bool.false_ne_true] at hk
      exact AList.mem_keys.2 (AList.lookup_isSome.1 hk)
    · exact .inl rfl

/-- A parent that is neither stored nor in the batch ends the sort. -/
theorem topoOrderIncoming_missing (hnd : (txs.map DagTransaction.id).Nodup) {tx : DagTransaction}
    (htx : tx ∈ txs) {p : TxHash} (hp : p ∈ tx.parents) (hlocal : g.contains p = false)
    (hbatch : ∀ y ∈ txs, y.id ≠ p) :
    ∃ q, topoOrderIncoming g txs = .error (.err (.missingParent q)) := by
  have hno : ¬ Known g (uniqueOf txs) p := by
    rw [known_uniqueOf hnd, hlocal]
    rintro (h | ⟨y, hy, he⟩)
    · cases h
    · exact hbatch y hy he
  have hentry : (⟨tx.id, tx⟩ : Sigma fun _ : TxHash => DagTransaction) ∈ (uniqueOf txs).entries :=
    AList.mem_lookup_iff.1 ((lookup_uniqueOf hnd).2 ⟨htx, rfl⟩)
  obtain ⟨q, hq⟩ := countEntries_missing (g := g) (uniqueOf txs).entries
    ⟨(uniqueOf txs).entries.foldl (fun indeg e => indeg.set e.1 0) ∅, ∅⟩
    ⟨_, hentry, p, hp, hno⟩
  unfold topoOrderIncoming
  simp only [hq]
  exact ⟨q, rfl⟩

end Order

end KronMesh
