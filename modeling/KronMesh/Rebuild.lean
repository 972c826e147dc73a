import KronMesh.Lib.Replay
import KronMesh.WellFormed
import KronMesh.Book

/-!
# What a rebuild computes

Of the stored vertices of one sender and nonce the one of the greatest rank is replayed
(`winnerOf_isSome`). A rebuild that succeeds leaves the book of the greedy replay of those, in
attach order and from the faucet, and what the replay kept is what is not a conflict afterwards
(`resolve_ok`).
-/

namespace KronMesh

open Word Outcome

namespace Graph

variable {g : Graph}

theorem RankLE.refl (a : TxHash) : g.RankLE a a := .inr ⟨rfl, BitVec.le_refl a⟩

theorem RankLE.total (a b : TxHash) : g.RankLE a b ∨ g.RankLE b a := by
  unfold RankLE
  rcases lt_trichotomy (g.cumulativeWeight a) (g.cumulativeWeight b) with h | h | h
  · exact .inl (.inl h)
  · rcases BitVec.le_total a b with h' | h'
    · exact .inl (.inr ⟨h, h'⟩)
    · exact .inr (.inr ⟨h.symm, h'⟩)
  · exact .inr (.inl h)

theorem RankLE.trans {a b c : TxHash} (h : g.RankLE a b) (h' : g.RankLE b c) : g.RankLE a c := by
  unfold RankLE at *
  rcases h with h | ⟨h, hl⟩
  · rcases h' with h' | ⟨h', -⟩
    · exact .inl (h.trans h')
    · exact .inl (h' ▸ h)
  · rcases h' with h' | ⟨h', hl'⟩
    · exact .inl (h ▸ h')
    · exact .inr ⟨h.trans h', BitVec.le_trans hl hl'⟩

theorem RankLE.antisymm {a b : TxHash} (h : g.RankLE a b) (h' : g.RankLE b a) : a = b := by
  unfold RankLE at *
  rcases h with h | ⟨h, hl⟩
  · rcases h' with h' | ⟨h', -⟩
    · exact absurd h (lt_asymm h')
    · exact absurd h (h' ▸ lt_irrefl _)
  · rcases h' with h' | ⟨-, hl'⟩
    · exact absurd h' (h ▸ lt_irrefl _)
    · exact BitVec.le_antisymm hl hl'

instance : Std.Total g.RankLE := ⟨RankLE.total⟩

instance : IsTrans TxHash g.RankLE := ⟨fun _ _ _ => RankLE.trans⟩

/-! ## The losers of a nonce -/

/-- A stored vertex that is no genesis and spends this nonce of this sender. -/
def Spends (g : Graph) (id : TxHash) (key : Address × UInt64) : Prop :=
  ∃ tx, g.vertices.lookup id = some tx ∧ tx.isGenesis = false ∧ (tx.sender, tx.nonce) = key

/-- A stored vertex of the greatest rank of its sender and nonce. -/
def Top (g : Graph) (id : TxHash) : Prop :=
  ∃ key, g.Spends id key ∧ ∀ id', g.Spends id' key → g.RankLE id' id

theorem Spends.key_eq {id : TxHash} {key key' : Address × UInt64} (h : g.Spends id key)
    (h' : g.Spends id key') : key = key' := by
  obtain ⟨tx, hl, -, rfl⟩ := h
  obtain ⟨tx', hl', -, rfl⟩ := h'
  rw [hl] at hl'
  cases hl'
  rfl

/-- The vertices grouped under a key are those that spend it. -/
theorem mem_byNonce (hg : g.WF) (key : Address × UInt64) (id : TxHash) :
    id ∈ (g.byNonce.lookup key).getD [] ↔ g.Spends id key := by
  obtain ⟨gid, hgid, -, hgen⟩ := hg.genesis
  have hskip : ∀ {id tx}, g.vertices.lookup id = some tx →
      (¬ (id = g.genesisIdOr ∨ tx.isGenesis = true) ↔ tx.isGenesis = false) := by
    intro id tx hl
    have h1 : g.genesisIdOr = gid := by
      unfold genesisIdOr
      rw [hgid]
      rfl
    rw [h1, ← hgen hl, or_self, Bool.not_eq_true]
  unfold byNonce
  rw [Assoc.getD_foldl_pushAt]
  simp only [AList.lookup_empty, Option.getD_none, List.nil_append, List.mem_map, List.mem_filter,
    decide_eq_true_eq]
  constructor
  · rintro ⟨e, ⟨hmem, hns, hkey⟩, rfl⟩
    have hl : g.vertices.lookup e.1 = some e.2 := AList.mem_lookup_iff.2 hmem
    exact ⟨e.2, hl, (hskip hl).1 hns, hkey⟩
  · rintro ⟨tx, hl, hng, hkey⟩
    exact ⟨⟨id, tx⟩, ⟨AList.mem_lookup_iff.1 hl, (hskip hl).2 hng, hkey⟩, rfl⟩

/-- The losers of a group with its greatest. -/
theorem mem_groupLosers {group : List TxHash} {a b : TxHash} :
    (a, b) ∈ g.groupLosers group ↔
      a ∈ group ∧ b ∈ group ∧ a ≠ b ∧ ∀ c ∈ group, g.RankLE c b := by
  have hmax : ∀ {w}, (group.insertionSort g.RankLE).getLast? = some w →
      w ∈ group ∧ ∀ c ∈ group, g.RankLE c w := by
    intro w hw
    obtain ⟨h1, h2⟩ := Assoc.getLast?_insertionSort hw
    refine ⟨h1, fun c hc => ?_⟩
    rcases h2 c hc with rfl | h
    · exact RankLE.refl c
    · exact h
  unfold groupLosers
  split_ifs with hlen
  · constructor
    · intro h
      cases h
    · rintro ⟨ha, hb, hne, -⟩
      rcases group with _ | ⟨x, _ | ⟨y, l⟩⟩
      · cases ha
      · rw [List.mem_singleton] at ha hb
        exact absurd (ha.trans hb.symm) hne
      · simp at hlen
  · rcases hw : (group.insertionSort g.RankLE).getLast? with _ | w
    · constructor
      · intro h
        cases h
      · rintro ⟨ha, -⟩
        rw [List.getLast?_eq_none_iff] at hw
        have := (List.perm_insertionSort g.RankLE group).symm.subset ha
        rw [hw] at this
        cases this
    · obtain ⟨hwm, hwt⟩ := hmax hw
      simp only [List.mem_map, List.mem_filter, decide_eq_true_eq, Prod.mk.injEq]
      constructor
      · rintro ⟨c, ⟨hc, hne⟩, rfl, rfl⟩
        exact ⟨hc, hwm, hne, hwt⟩
      · rintro ⟨ha, hb, hne, hbt⟩
        have hbw : w = b := RankLE.antisymm (hbt w hwm) (hwt b hb)
        exact ⟨a, ⟨ha, hbw ▸ hne⟩, rfl, hbw⟩

/-- A loser is recorded with the vertex that outranks all of its nonce. -/
theorem lookup_winnerOf (hg : g.WF) (a b : TxHash) :
    g.winnerOf.lookup a = some b ↔
      ∃ key, g.Spends a key ∧ g.Spends b key ∧ a ≠ b ∧ ∀ c, g.Spends c key → g.RankLE c b := by
  have hmem : ∀ a b, (a, b) ∈ g.byNonce.entries.flatMap (fun e => g.groupLosers e.2) ↔
      ∃ key, g.Spends a key ∧ g.Spends b key ∧ a ≠ b ∧ ∀ c, g.Spends c key → g.RankLE c b := by
    intro a b
    rw [List.mem_flatMap]
    constructor
    · rintro ⟨e, he, hab⟩
      have hl : g.byNonce.lookup e.1 = some e.2 := AList.mem_lookup_iff.2 he
      have hgroup : ∀ id, id ∈ e.2 ↔ g.Spends id e.1 := by
        intro id
        rw [← mem_byNonce hg, hl, Option.getD_some]
      obtain ⟨ha, hb, hne, ht⟩ := mem_groupLosers.1 hab
      exact ⟨e.1, (hgroup a).1 ha, (hgroup b).1 hb, hne, fun c hc => ht c ((hgroup c).2 hc)⟩
    · rintro ⟨key, ha, hb, hne, ht⟩
      rw [← mem_byNonce hg] at ha hb
      rcases hl : g.byNonce.lookup key with _ | group
      · rw [hl] at ha
        cases ha
      · rw [hl, Option.getD_some] at ha hb
        refine ⟨⟨key, group⟩, AList.mem_lookup_iff.1 hl, mem_groupLosers.2 ⟨ha, hb, hne, ?_⟩⟩
        intro c hc
        refine ht c ?_
        rw [← mem_byNonce hg, hl, Option.getD_some]
        exact hc
  unfold winnerOf
  rw [Assoc.lookup_ofPairs, hmem]
  intro a b b' h h'
  rw [hmem] at h h'
  obtain ⟨key, ha, hb, -, ht⟩ := h
  obtain ⟨key', ha', hb', -, ht'⟩ := h'
  cases ha.key_eq ha'
  exact RankLE.antisymm (ht' b hb) (ht b' hb')

/-- Every nonce that is spent has a vertex that outranks the others. -/
theorem exists_top (hg : g.WF) {id : TxHash} {key : Address × UInt64} (h : g.Spends id key) :
    ∃ w, g.Spends w key ∧ ∀ c, g.Spends c key → g.RankLE c w := by
  have hmem := (mem_byNonce hg key id).2 h
  set group := (g.byNonce.lookup key).getD [] with hgroup
  rcases hw : (group.insertionSort g.RankLE).getLast? with _ | w
  · rw [List.getLast?_eq_none_iff] at hw
    have := (List.perm_insertionSort g.RankLE group).symm.subset hmem
    rw [hw] at this
    cases this
  · obtain ⟨h1, h2⟩ := Assoc.getLast?_insertionSort hw
    refine ⟨w, (mem_byNonce hg key w).1 h1, fun c hc => ?_⟩
    rcases h2 c ((mem_byNonce hg key c).2 hc) with rfl | h
    · exact RankLE.refl c
    · exact h

/-- The losers are the stored vertices that are outranked. -/
theorem winnerOf_isSome (hg : g.WF) (id : TxHash) :
    (g.winnerOf.lookup id).isSome ↔ (∃ key, g.Spends id key) ∧ ¬ g.Top id := by
  rw [Option.isSome_iff_exists]
  constructor
  · rintro ⟨b, hb⟩
    obtain ⟨key, ha, hb, hne, ht⟩ := (lookup_winnerOf hg id b).1 hb
    refine ⟨⟨key, ha⟩, ?_⟩
    rintro ⟨key', ha', ht'⟩
    cases ha.key_eq ha'
    exact hne (RankLE.antisymm (ht id ha) (ht' b hb))
  · rintro ⟨⟨key, ha⟩, hnt⟩
    obtain ⟨w, hw, ht⟩ := exists_top hg ha
    refine ⟨w, (lookup_winnerOf hg id w).2 ⟨key, ha, hw, ?_, ht⟩⟩
    rintro rfl
    exact hnt ⟨key, ha, ht⟩

/-! ## The replay -/

/-- The vertex a replay of `id` looks at: none for a loser and for the genesis vertex. -/
def replayedAt (g : Graph) (id : TxHash) : Option DagTransaction :=
  if (g.winnerOf.lookup id).isSome then none
  else (g.vertices.lookup id).filter fun tx => !tx.isGenesis

/-- The vertices a rebuild replays, in attach order. -/
def replayed (g : Graph) : List DagTransaction := g.attachOrder.filterMap g.replayedAt

theorem replayedAt_eq_some {id : TxHash} {tx : DagTransaction} :
    g.replayedAt id = some tx ↔
      g.winnerOf.lookup id = none ∧ g.vertices.lookup id = some tx ∧ tx.isGenesis = false := by
  unfold replayedAt
  split_ifs with h
  · rw [Option.isSome_iff_ne_none] at h
    simp [h]
  · rw [Option.not_isSome_iff_eq_none] at h
    rw [Option.filter_eq_some_iff]
    simp [h]

end Graph

section Loop

variable {P : Primitives} {g : Graph} {id : TxHash} {tx : DagTransaction}

/-- Everything applying a vertex can do: take it, refuse it and leave the ledger, or overflow. -/
theorem applyLedgerEffects_cases (P : Primitives) (l : Ledger) (tx : DagTransaction) :
    (∃ l', l.applyLedgerEffects P tx = (l', .ok ())) ∨
    (∃ e, l.applyLedgerEffects P tx = (l, .error e)
      ∧ ((∃ n, e = .doubleSpend n) ∨ e = .insufficientBalance) ∧ l.book.apply P tx = none) ∨
    (∃ l', l.applyLedgerEffects P tx = (l', .error .overflow)) := by
  rcases h : l.applyLedgerEffects P tx with ⟨l', e | ⟨⟨⟩⟩⟩
  · by_cases he : e = .overflow
    · exact .inr (.inr ⟨l', by rw [he]⟩)
    · obtain ⟨rfl, hb⟩ := Ledger.book_refused h he
      refine .inr (.inl ⟨e, rfl, ?_, hb⟩)
      unfold Ledger.applyLedgerEffects at h
      rcases hs : l'.checkSpend tx with e' | new
      · rw [hs] at h
        cases h
        rcases checkSpend_error hs with h | h | h
        · exact .inl h
        · exact .inr h
        · exact absurd h he
      · rw [hs] at h
        simp only [] at h
        rcases hm : (l'.moveSpend tx new).mintConfirmedTx tx.fee.toNat tx.sender
          (tx.provenRelayNodes P) with ⟨l₁, ⟨⟩ | ⟨⟨⟩⟩⟩
        · rw [hm] at h
          cases h
          exact absurd rfl he
        · rw [hm] at h
          cases h
  · exact .inl ⟨l', rfl⟩

/-- The replay passes over what `replayedAt` leaves out. -/
theorem replayLoop_none (l : Ledger) (extra order : List TxHash) (h : g.replayedAt id = none) :
    replayLoop P g.vertices g.winnerOf l extra (id :: order)
      = replayLoop P g.vertices g.winnerOf l extra order := by
  refine replayLoop_skip ?_ l extra order
  unfold Graph.replayedAt at h
  split_ifs at h with hlose
  · exact .inl hlose
  · refine .inr fun tx hl => ?_
    by_contra hgen
    rw [hl] at h
    simp [Option.filter, hgen] at h

/-- Everything the replay does at a vertex it looks at. -/
theorem replayLoop_some (l : Ledger) (extra order : List TxHash)
    (h : g.replayedAt id = some tx) :
    (∃ l₁, l.applyLedgerEffects P tx = (l₁, .ok ())
      ∧ replayLoop P g.vertices g.winnerOf l extra (id :: order)
        = replayLoop P g.vertices g.winnerOf l₁ extra order) ∨
    (∃ e, l.applyLedgerEffects P tx = (l, .error e) ∧ e ≠ .overflow ∧ l.book.apply P tx = none
      ∧ replayLoop P g.vertices g.winnerOf l extra (id :: order)
        = replayLoop P g.vertices g.winnerOf l (extra ++ [id]) order) ∨
    (∃ l₁, l.applyLedgerEffects P tx = (l₁, .error .overflow)
      ∧ replayLoop P g.vertices g.winnerOf l extra (id :: order) = (l₁, .error .overflow)) := by
  obtain ⟨hw, hl, hgen⟩ := Graph.replayedAt_eq_some.1 h
  rw [replayLoop_cons hw hl hgen]
  rcases applyLedgerEffects_cases P l tx with ⟨l', ha⟩ | ⟨e, ha, he, hb⟩ | ⟨l', ha⟩
  · exact .inl ⟨l', ha, by rw [ha]⟩
  · refine .inr (.inl ⟨e, ha, ?_, hb, ?_⟩)
    · rcases he with ⟨n, rfl⟩ | rfl <;> simp
    · rw [ha]
      rcases he with ⟨n, rfl⟩ | rfl <;> rfl
  · exact .inr (.inr ⟨l', ha, by rw [ha]⟩)

/-- What each part of a replay keeps, the replay keeps, also one that ends in an error. The
invariant may depend on how many places of the order lie behind. -/
theorem replayLoop_invariant (Inv : ℕ → Ledger → Prop)
    (hpass : ∀ k l, Inv k l → Inv (k + 1) l)
    (happly : ∀ k id tx l, g.replayedAt id = some tx → Inv k l →
      Inv (k + 1) (l.applyLedgerEffects P tx).1) :
    ∀ (order : List TxHash) (k : ℕ) (l : Ledger) (extra : List TxHash), Inv k l →
      Inv (k + order.length) (replayLoop P g.vertices g.winnerOf l extra order).1
  | [], _, _, _, h => h
  | id :: order, k, l, extra, h => by
    rw [List.length_cons, Nat.add_comm order.length, ← Nat.add_assoc]
    have hleft : ∀ n l, Inv (k + 1) l → Inv (k + 1 + n) l := by
      intro n l hl
      induction n with
      | zero => exact hl
      | succ n ih => exact hpass _ _ ih
    rcases hr : g.replayedAt id with _ | tx
    · rw [replayLoop_none l extra order hr]
      exact replayLoop_invariant Inv hpass happly order _ l extra (hpass _ _ h)
    · have hstep := happly k id tx l hr h
      rcases replayLoop_some (P := P) l extra order hr with ⟨l₁, ha, he⟩ |
        ⟨-, -, -, -, he⟩ | ⟨l₁, ha, he⟩
      · rw [he]
        rw [ha] at hstep
        exact replayLoop_invariant Inv hpass happly order _ l₁ extra hstep
      · rw [he]
        exact replayLoop_invariant Inv hpass happly order _ l _ (hpass _ _ h)
      · rw [he]
        rw [ha] at hstep
        exact hleft _ _ hstep

/-- A replay that goes through skips what the book refuses, and collects it. -/
theorem replayLoop_ok (hg : g.WF) :
    ∀ (order : List TxHash) {l l' : Ledger} {extra extra' : List TxHash},
      replayLoop P g.vertices g.winnerOf l extra order = (l', .ok extra') →
        l'.book = Replay.greedy (Book.apply P) l.book (order.filterMap g.replayedAt)
          ∧ extra' = extra ++ (Replay.skipped (Book.apply P) l.book
            (order.filterMap g.replayedAt)).map DagTransaction.id
  | [], l, l', extra, extra', h => by
    cases h
    exact ⟨rfl, (List.append_nil _).symm⟩
  | id :: order, l, l', extra, extra', h => by
    rcases hr : g.replayedAt id with _ | tx
    · rw [replayLoop_none l extra order hr] at h
      rw [List.filterMap_cons, hr]
      exact replayLoop_ok hg order h
    · rw [List.filterMap_cons, hr]
      simp only []
      rcases replayLoop_some (P := P) l extra order hr with ⟨l₁, ha, he⟩ |
        ⟨-, -, -, hb, he⟩ | ⟨l₁, -, he⟩
      · rw [he] at h
        have hb := Ledger.book_applyLedgerEffects ha
        rw [Replay.greedy_cons, Replay.step_some hb, Replay.skipped_cons_some hb]
        exact replayLoop_ok hg order h
      · rw [he] at h
        obtain ⟨h1, h2⟩ := replayLoop_ok hg order h
        have hid : tx.id = id := hg.id_eq (Graph.replayedAt_eq_some.1 hr).2.1
        rw [Replay.greedy_cons, Replay.step_none hb, Replay.skipped_cons_none hb, List.map_cons,
          hid]
        exact ⟨h1, by rw [h2, List.append_assoc]; rfl⟩
      · rw [he] at h
        cases h

/-- What every vertex that is taken keeps, a replay that goes through keeps. -/
theorem replayLoop_ok_invariant (Inv : Ledger → Prop)
    (happly : ∀ tx l l', l.applyLedgerEffects P tx = (l', .ok ()) → Inv l → Inv l') :
    ∀ (order : List TxHash) {l l' : Ledger} {extra extra' : List TxHash},
      replayLoop P g.vertices g.winnerOf l extra order = (l', .ok extra') → Inv l → Inv l'
  | [], l, l', extra, extra', h, hl => by
    cases h
    exact hl
  | id :: order, l, l', extra, extra', h, hl => by
    rcases hr : g.replayedAt id with _ | tx
    · rw [replayLoop_none l extra order hr] at h
      exact replayLoop_ok_invariant Inv happly order h hl
    · rcases replayLoop_some (P := P) l extra order hr with ⟨l₁, ha, he⟩ |
        ⟨-, -, -, -, he⟩ | ⟨l₁, -, he⟩
      · rw [he] at h
        exact replayLoop_ok_invariant Inv happly order h (happly tx l l₁ ha hl)
      · rw [he] at h
        exact replayLoop_ok_invariant Inv happly order h hl
      · rw [he] at h
        cases h

/-- A replay ends early in an overflow only. -/
theorem replayLoop_error : ∀ (order : List TxHash) {l l' : Ledger} {extra : List TxHash}
    {e : DagError}, replayLoop P g.vertices g.winnerOf l extra order = (l', .error e) →
      e = .overflow
  | [], _, _, _, _, h => by cases h
  | id :: order, l, l', extra, e, h => by
    rcases hr : g.replayedAt id with _ | tx
    · rw [replayLoop_none l extra order hr] at h
      exact replayLoop_error order h
    · rcases replayLoop_some (P := P) l extra order hr with ⟨l₁, -, he⟩ |
        ⟨-, -, -, -, he⟩ | ⟨l₁, -, he⟩
      · rw [he] at h
        exact replayLoop_error order h
      · rw [he] at h
        exact replayLoop_error order h
      · rw [he] at h
        cases h
        rfl

end Loop

/-! ## The rebuild -/

namespace KronDAG

variable {P : Primitives} {d d' : KronDAG}

/-- The vertex at `id`, if it is applied: stored, no genesis and no conflict. -/
def appliedAt (d : KronDAG) (id : TxHash) : Option DagTransaction :=
  if d.isConflict id then none else (d.vertices.lookup id).filter fun tx => !tx.isGenesis

/-- The applied vertices, in attach order. -/
def applied (d : KronDAG) : List DagTransaction := d.attachOrder.filterMap d.appliedAt

theorem appliedAt_eq_some {id : TxHash} {tx : DagTransaction} :
    d.appliedAt id = some tx ↔
      d.isConflict id = false ∧ d.vertices.lookup id = some tx ∧ tx.isGenesis = false := by
  unfold appliedAt
  split_ifs with h
  · simp [h]
  · rw [Bool.not_eq_true] at h
    rw [Option.filter_eq_some_iff]
    simp [h]

theorem isConflict_of_appliedAt_eq_none {id : TxHash} {tx : DagTransaction}
    (hl : d.vertices.lookup id = some tx) (hgen : tx.isGenesis = false)
    (h : d.appliedAt id = none) : d.isConflict id = true := by
  by_contra hconf
  rw [Bool.not_eq_true] at hconf
  rw [appliedAt_eq_some.2 ⟨hconf, hl, hgen⟩] at h
  cases h

theorem mem_applied (hd : d.toGraph.WF) {tx : DagTransaction} :
    tx ∈ d.applied ↔
      d.isConflict tx.id = false ∧ d.vertices.lookup tx.id = some tx ∧ tx.isGenesis = false := by
  unfold applied
  rw [List.mem_filterMap]
  constructor
  · rintro ⟨id, -, h⟩
    have hid := hd.id_eq (appliedAt_eq_some.1 h).2.1
    rw [← hid] at h
    exact appliedAt_eq_some.1 h
  · intro h
    exact ⟨tx.id, hd.mem_attachOrder h.2.1, appliedAt_eq_some.2 h⟩

end KronDAG

/-- The losers found in the replay are added to those of the nonces. -/
theorem lookup_noteExtraLosers (winnerOf : AList fun _ : TxHash => TxHash) (id : TxHash) :
    ∀ extra : List TxHash, (noteExtraLosers winnerOf extra).lookup id
      = if (winnerOf.lookup id).isSome then winnerOf.lookup id
        else if id ∈ extra then some nullParent else none := by
  intro extra
  induction extra using List.reverseRecOn with
  | nil =>
    rcases h : winnerOf.lookup id with _ | w <;> simp [noteExtraLosers, h]
  | append_singleton extra a ih =>
    have hstep : noteExtraLosers winnerOf (extra ++ [a])
        = if ((noteExtraLosers winnerOf extra).lookup a).isSome then noteExtraLosers winnerOf extra
          else (noteExtraLosers winnerOf extra).insert a nullParent := by
      unfold noteExtraLosers
      rw [List.foldl_append]
      rfl
    rw [hstep]
    by_cases hid : id = a
    · subst hid
      rcases h : winnerOf.lookup id with _ | w
      · rw [h] at ih
        by_cases hm : id ∈ extra <;> simp [hm] at ih <;> simp [ih]
      · rw [h] at ih
        simp at ih
        simp [ih]
    · simp only [List.mem_append, List.mem_singleton, hid, or_false]
      rw [← ih]
      split_ifs
      · rfl
      · rw [AList.lookup_insert_ne hid]

namespace Graph.WF

variable {g : Graph}

/-- The replayed vertices are pairwise different. -/
theorem nodup_filterMap (hg : g.WF) {f : TxHash → Option DagTransaction}
    (hf : ∀ id tx, f id = some tx → g.vertices.lookup id = some tx) :
    (g.attachOrder.filterMap f).Nodup := by
  refine hg.nodup.filterMap ?_
  intro a a' tx ha ha'
  have h1 := hg.id_eq (hf a tx ha)
  have h2 := hg.id_eq (hf a' tx ha')
  exact h1.symm.trans h2

theorem nodup_replayed (hg : g.WF) : g.replayed.Nodup :=
  hg.nodup_filterMap fun _ _ h => (Graph.replayedAt_eq_some.1 h).2.1

theorem replayedAt_eq_some_iff (hg : g.WF) {id : TxHash} {tx : DagTransaction} :
    g.replayedAt id = some tx ↔ g.Top id ∧ g.vertices.lookup id = some tx := by
  rw [Graph.replayedAt_eq_some, ← Option.not_isSome_iff_eq_none, Graph.winnerOf_isSome hg, not_and,
    not_not]
  refine ⟨fun ⟨hw, hl, hgen⟩ => ⟨hw ⟨_, tx, hl, hgen, rfl⟩, hl⟩, fun ⟨ht, hl⟩ => ?_⟩
  refine ⟨fun _ => ht, hl, ?_⟩
  obtain ⟨key, ⟨tx', hl', hgen, -⟩, -⟩ := ht
  rw [hl] at hl'
  cases hl'
  exact hgen

theorem mem_replayed (hg : g.WF) {tx : DagTransaction} :
    tx ∈ g.replayed ↔ g.Top tx.id ∧ g.vertices.lookup tx.id = some tx := by
  unfold Graph.replayed
  rw [List.mem_filterMap]
  constructor
  · rintro ⟨id, -, h⟩
    have h' := hg.replayedAt_eq_some_iff.1 h
    rwa [← hg.id_eq h'.2] at h'
  · intro h
    exact ⟨tx.id, hg.mem_attachOrder h.2, hg.replayedAt_eq_some_iff.2 h⟩

end Graph.WF

namespace KronDAG

variable {P : Primitives} {d d' : KronDAG}

/-- What the rebuild of `d` starts from, as a book. -/
def baseBook (d : KronDAG) : Book := d.baseline.book

/-- A rebuild whose replay goes through. -/
theorem resolve_of_replayLoop {l : Ledger} {extra : List TxHash}
    (h : replayLoop P d.vertices d.winnerOf d.baseline [] d.attachOrder = (l, .ok extra)) :
    d.resolveConflictsAndRebuildLedger P = ({ d with
      toLedger := l
      conflicts := noteExtraLosers d.winnerOf extra }, .ok ()) := by
  unfold resolveConflictsAndRebuildLedger
  simp only [h]

/-- What a rebuild that goes through has replayed. -/
theorem replayLoop_of_resolve (h : d.resolveConflictsAndRebuildLedger P = (d', .ok ())) :
    ∃ l extra, replayLoop P d.vertices d.winnerOf d.baseline [] d.attachOrder = (l, .ok extra)
      ∧ { d with toLedger := l, conflicts := noteExtraLosers d.winnerOf extra } = d' := by
  unfold resolveConflictsAndRebuildLedger at h
  simp only [] at h
  rcases hr : replayLoop P d.vertices d.winnerOf d.baseline [] d.attachOrder with ⟨l, e | extra⟩
  · rw [hr] at h
    cases h
  · rw [hr] at h
    cases h
    exact ⟨l, extra, rfl, rfl⟩

/-- A rebuild fails in an overflow only, and then leaves the conflicts alone. -/
theorem resolve_error {e : DagError}
    (h : d.resolveConflictsAndRebuildLedger P = (d', .error e)) :
    e = .overflow ∧ d'.conflicts = d.conflicts := by
  unfold resolveConflictsAndRebuildLedger at h
  simp only [] at h
  rcases hr : replayLoop P d.vertices d.winnerOf d.baseline [] d.attachOrder with ⟨l, e' | extra⟩
  · rw [hr] at h
    cases h
    exact ⟨replayLoop_error _ hr, rfl⟩
  · rw [hr] at h
    cases h

/-- A rebuild goes through, or overflows. -/
theorem resolve_snd (d : KronDAG) :
    (d.resolveConflictsAndRebuildLedger P).2 = .ok ()
      ∨ (d.resolveConflictsAndRebuildLedger P).2 = .error .overflow := by
  rcases hr : d.resolveConflictsAndRebuildLedger P with ⟨d₁, e | ⟨⟨⟩⟩⟩
  · rw [(resolve_error hr).1]
    exact .inr rfl
  · exact .inl rfl

/-- The places of an order at which what is replayed in `g` and what is applied meet. -/
theorem kept_eq_applied_iff (hd : d.toGraph.WF) {g : Graph} (hg : g.WF)
    (hlook : ∀ {id tx}, d.vertices.lookup id = some tx → g.vertices.lookup id = some tx)
    {b : Book} (order : List TxHash) (hnd : order.Nodup)
    (hall : Replay.all (Book.apply P) d.baseBook (order.filterMap d.appliedAt) = some b) :
    Replay.kept (Book.apply P) d.baseBook (order.filterMap g.replayedAt)
        = order.filterMap d.appliedAt ↔
      ∀ pre id post, order = pre ++ id :: post →
        (∀ tx, d.appliedAt id = some tx → g.replayedAt id = some tx) ∧
        ∀ tx b', g.replayedAt id = some tx → d.appliedAt id = none →
          Replay.all (Book.apply P) d.baseBook (pre.filterMap d.appliedAt) = some b' →
            b'.apply P tx = none :=
  Replay.kept_filterMap_iff DagTransaction.id
    (fun _ _ h => hg.id_eq (Graph.replayedAt_eq_some.1 h).2.1)
    (fun _ _ h => hd.id_eq (appliedAt_eq_some.1 h).2.1)
    (fun _ x y hx hy => by
      have hl := hlook (appliedAt_eq_some.1 hy).2.1
      rw [(Graph.replayedAt_eq_some.1 hx).2.1] at hl
      exact Option.some.inj hl)
    order hnd hall

/-- A rebuild that goes through: the book is that of the greedy replay, the applied vertices are
those it keeps, and the conflicts are the outranked and the skipped. -/
theorem resolve_ok (hd : d.toGraph.WF)
    (h : d.resolveConflictsAndRebuildLedger P = (d', .ok ())) :
    d'.book = Replay.greedy (Book.apply P) d.baseBook d.replayed
      ∧ d'.applied = Replay.kept (Book.apply P) d.baseBook d.replayed
      ∧ d'.conflicts = noteExtraLosers d.winnerOf
        ((Replay.skipped (Book.apply P) d.baseBook d.replayed).map DagTransaction.id) := by
  obtain ⟨l, extra, hr, rfl⟩ := replayLoop_of_resolve h
  obtain ⟨hbook, hextra⟩ := replayLoop_ok hd _ hr
  rw [List.nil_append] at hextra
  refine ⟨hbook, ?_, by rw [hextra]; rfl⟩
  have hconf : ∀ id, ((noteExtraLosers d.winnerOf extra).lookup id).isSome
      = ((d.winnerOf.lookup id).isSome || extra.contains id) := by
    intro id
    rw [lookup_noteExtraLosers]
    rcases d.winnerOf.lookup id with _ | w
    · by_cases hm : id ∈ extra <;> simp [hm]
    · simp
  have hnd := hd.nodup_replayed
  -- a vertex that is replayed is skipped exactly when its id is collected
  have hskip : ∀ tx ∈ d.replayed, (!extra.contains tx.id) = true ↔
      tx ∉ Replay.skipped (Book.apply P) d.baseBook d.replayed := by
    intro tx htx
    rw [Bool.not_eq_true', ← Bool.not_eq_true, List.contains_iff_mem, not_iff_not, hextra,
      List.mem_map]
    constructor
    · rintro ⟨tx', htx', hid⟩
      have hl := (hd.mem_replayed.1 htx).2
      have hl' := (hd.mem_replayed.1 ((Replay.mem_skipped hnd).1 htx').1).2
      rw [hid, hl] at hl'
      cases hl'
      exact htx'
    · exact fun h => ⟨tx, h, rfl⟩
  rw [Replay.kept_eq_filter_not_skipped hnd _ hskip]
  unfold applied Graph.replayed
  rw [List.filter_filterMap]
  refine List.filterMap_congr fun id _ => ?_
  unfold appliedAt Graph.replayedAt isConflict
  simp only [hconf]
  rcases hw : d.winnerOf.lookup id with _ | w
  · rcases hl : d.vertices.lookup id with _ | tx
    · simp
    · have hid := hd.id_eq hl
      by_cases hm : id ∈ extra <;> by_cases hg : tx.isGenesis <;>
        simp [hm, hg, Option.filter, hid]
  · simp

/-- A rebuild records no conflict of a vertex that is not stored. -/
theorem WF_resolve (hd : d.toGraph.WF) (h : d.resolveConflictsAndRebuildLedger P = (d', .ok ())) :
    d'.WF := by
  obtain ⟨-, -, hconf⟩ := resolve_ok hd h
  have hg := (d.resolve_frame (P := P)).1
  rw [h] at hg
  refine ⟨hg ▸ hd, fun {id} hid => ?_⟩
  unfold isConflict at hid
  rw [hconf, lookup_noteExtraLosers] at hid
  rw [hg]
  split_ifs at hid with hw hm
  · obtain ⟨⟨key, tx, hl, -, -⟩, -⟩ := (Graph.winnerOf_isSome hd id).1 hw
    exact Graph.contains_iff.2 ⟨tx, hl⟩
  · obtain ⟨tx, hmem, rfl⟩ := List.mem_map.1 hm
    have hr := ((Replay.mem_skipped hd.nodup_replayed).1 hmem).1
    exact Graph.contains_iff.2 ⟨tx, (hd.mem_replayed.1 hr).2⟩
  · cases hid

end KronDAG

end KronMesh
