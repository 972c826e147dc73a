import KronMesh.Failure
import KronMesh.Indexes

/-!
# Replicas of the same vertices

Two nodes that store the same vertices over the same faucet rank them alike, and so replay the same
vertices, each in the order in which they came to it. That order is all they can differ by. In the
first era, where every vertex mints the same, they converge exactly when each replayed vertex is
covered at its place in both orders or in neither (`converged_iff_places`); and they do as soon as
the orders agree on the vertices that bear on each other (`converged_of_dependents`).
-/

namespace KronMesh

open Word Outcome

/-- A mint pays no relay that is not on its list. -/
theorem payout_splitPool {pool : ℕ} {nodes : List Address} {a : Address} (h : a ∉ nodes) :
    payout (splitPool pool nodes).2 a = 0 := by
  unfold payout
  rw [List.sum_eq_zero_iff]
  intro n hn
  obtain ⟨p, hp, rfl⟩ := List.mem_map.1 hn
  refine if_neg ?_
  rintro rfl
  exact h (mem_of_mem_splitPool hp)

namespace Book

variable {P : Primitives} {b b' : Book} {x y tx : DagTransaction} {R : Multiset DagTransaction}

/-! ## The first era -/

/-- The supply is on schedule, and so many vertices more are still within the first era. -/
structure InEra (b : Book) (n : ℕ) : Prop where
  schedule : b.supply = emitted b.count
  count : b.count + n ≤ txHalvingInterval

theorem InEra.subsidy_eq {n : ℕ} (h : b.InEra (n + 1)) : b.subsidy = initialTxSubsidy := by
  unfold subsidy
  rw [h.schedule]
  have := h.count
  exact subsidy_first_era (by omega)

theorem InEra.enter {n : ℕ} (h : b.InEra (n + 1)) : (b.enter P tx).InEra n := by
  have := h.count
  refine ⟨?_, ?_⟩
  · rw [enter_supply, enter_count, subsidy, h.schedule]
    exact subsidy_emitted _
  · rw [enter_count]
    omega

/-- What a vertex of the first era mints for `a`. -/
def eraGain (P : Primitives) (tx : DagTransaction) (a : Address) : ℕ :=
  (if a = tx.sender
    then (splitPool (initialTxSubsidy + tx.fee.toNat) (tx.provenRelayNodes P)).1 else 0)
  + payout (splitPool (initialTxSubsidy + tx.fee.toNat) (tx.provenRelayNodes P)).2 a

/-- And credits `a` as a relay. -/
def eraCredit (P : Primitives) (tx : DagTransaction) (a : Address) : ℕ :=
  payout (splitPool (initialTxSubsidy + tx.fee.toNat) (tx.provenRelayNodes P)).2 a

theorem InEra.split_eq {n : ℕ} (h : b.InEra (n + 1)) :
    b.split P tx = splitPool (initialTxSubsidy + tx.fee.toNat) (tx.provenRelayNodes P) := by
  unfold split
  rw [h.subsidy_eq]

/-- The vertex pays `a`. -/
def Pays (P : Primitives) (tx : DagTransaction) (a : Address) : Prop :=
  tx.recipient = a ∨ a ∈ tx.provenRelayNodes P

/-- A vertex leaves alone the balance of an account that neither spends in it nor is paid. -/
theorem balance_enter_of_not_pays {a : Address} (hs : a ≠ tx.sender) (hp : ¬ Pays P tx a) :
    (b.enter P tx).balance a = b.balance a := by
  unfold Pays at hp
  rw [not_or] at hp
  rw [enter_balance, gain, split, if_neg hs, if_neg (Ne.symm hp.1), if_neg hs,
    payout_splitPool hp.2]
  rfl

/-- Vertices of different senders, both covered, may be entered in either order. -/
theorem enter_comm {n : ℕ} (h : b.InEra (n + 2)) (hne : x.sender ≠ y.sender) (hx : b.Covers x)
    (hy : b.Covers y) : (b.enter P y).enter P x = (b.enter P x).enter P y := by
  have hera : ∀ {z}, (b.enter P z).InEra (n + 1) := h.enter
  have hcx := hx.2
  have hcy := hy.2
  refine Book.ext (funext fun a => ?_) (funext fun a => ?_) (funext fun a => ?_) ?_ rfl
  · have hgx : (b.enter P y).gain P x a = b.gain P x a := by
      unfold gain
      rw [hera.split_eq, h.split_eq]
    have hgy : (b.enter P x).gain P y a = b.gain P y a := by
      unfold gain
      rw [hera.split_eq, h.split_eq]
    simp only [enter_balance, hgx, hgy]
    by_cases hax : a = x.sender
    · have hay : a ≠ y.sender := hax ▸ hne
      rw [hax] at hay ⊢
      simp only [if_true, if_neg hay]
      omega
    · by_cases hay : a = y.sender
      · rw [hay] at hax ⊢
        simp only [if_true, if_neg hax]
        omega
      · simp only [if_neg hax, if_neg hay]
        omega
  · simp only [enter_nonce]
    split_ifs <;> rfl
  · simp only [enter_relayCredit, hera.split_eq, h.split_eq]
    omega
  · simp only [enter_supply, hera.subsidy_eq]

/-! ## What a list of vertices moves -/

/-- Vertices that are all taken move the balances, nonces and credits by sums over them. -/
theorem all_sums : ∀ (txs : List DagTransaction) {b b' : Book}, b.InEra txs.length →
    (∀ a, b.nonce a ≤ b.count) → Replay.all (Book.apply P) b txs = some b' →
      (∀ a, b'.balance a + (txs.map fun tx => if a = tx.sender then tx.cost else 0).sum
        = b.balance a + (txs.map fun tx => (if a = tx.recipient then tx.amount.toNat else 0)
          + eraGain P tx a).sum)
      ∧ (∀ a, b'.nonce a = b.nonce a + (txs.map fun tx => if a = tx.sender then 1 else 0).sum)
      ∧ (∀ a, b'.relayCredit a = b.relayCredit a + (txs.map fun tx => eraCredit P tx a).sum)
      ∧ b'.supply = b.supply + initialTxSubsidy * txs.length ∧ b'.count = b.count + txs.length
  | [], b, b', _, _, h => by
    cases h
    simp
  | tx :: txs, b, b', hera, hnonce, h => by
    rw [List.length_cons] at hera
    obtain ⟨b₁, h₁, h⟩ := Option.bind_eq_some_iff.1 h
    obtain ⟨hcov, rfl⟩ := apply_eq_some.1 h₁
    have hn : ∀ a, saturatingAdd (b.nonce a) 1 = b.nonce a + 1 := by
      intro a
      apply saturatingAdd_of_le
      have h1 := hnonce a
      have h2 := hera.count
      unfold txHalvingInterval at h2
      unfold u64Max
      omega
    have hnonce₁ : ∀ a, (b.enter P tx).nonce a ≤ (b.enter P tx).count := by
      intro a
      have := hnonce a
      unfold enter
      simp only [hn]
      split_ifs <;> omega
    obtain ⟨hb, hno, hr, hs, hc⟩ := all_sums txs hera.enter hnonce₁ h
    have hsplit : b.split P tx = _ := hera.split_eq
    refine ⟨fun a => ?_, fun a => ?_, fun a => ?_, ?_, ?_⟩
    · have hba := hb a
      have hcost := hcov.2
      have hgain : b.gain P tx a = eraGain P tx a := by
        unfold gain eraGain
        rw [hsplit]
      rw [List.map_cons, List.map_cons, List.sum_cons, List.sum_cons]
      rw [enter_balance, hgain] at hba
      by_cases ha : a = tx.sender
      · rw [if_pos ha] at hba ⊢
        rw [ha] at hba ⊢
        omega
      · rw [if_neg ha] at hba ⊢
        omega
    · rw [hno a, enter_nonce, hn, List.map_cons, List.sum_cons]
      split_ifs <;> omega
    · rw [hr a, enter_relayCredit, hsplit, List.map_cons, List.sum_cons, eraCredit]
      omega
    · rw [hs, enter_supply, hera.subsidy_eq, List.length_cons, Nat.mul_succ]
      omega
    · rw [hc, enter_count, List.length_cons]
      omega

/-- Two orders of the same vertices, all of them taken in both, end in the same book. -/
theorem all_perm {l₁ l₂ : List DagTransaction} {b₁ b₂ : Book} (hp : l₁.Perm l₂)
    (hera : b.InEra l₁.length) (hnonce : ∀ a, b.nonce a ≤ b.count)
    (h₁ : Replay.all (Book.apply P) b l₁ = some b₁)
    (h₂ : Replay.all (Book.apply P) b l₂ = some b₂) : b₁ = b₂ := by
  obtain ⟨hb₁, hn₁, hr₁, hs₁, hc₁⟩ := all_sums l₁ hera hnonce h₁
  obtain ⟨hb₂, hn₂, hr₂, hs₂, hc₂⟩ := all_sums l₂ (hp.length_eq ▸ hera) hnonce h₂
  have hsum : ∀ f : DagTransaction → ℕ, (l₁.map f).sum = (l₂.map f).sum := fun f =>
    (hp.map f).sum_eq
  refine Book.ext (funext fun a => ?_) (funext fun a => ?_) (funext fun a => ?_) ?_ ?_
  · have e₁ := hb₁ a
    have e₂ := hb₂ a
    rw [hsum, hsum] at e₁
    omega
  · rw [hn₁, hn₂, hsum]
  · rw [hr₁, hr₂, hsum]
  · rw [hs₁, hs₂, hp.length_eq]
  · rw [hc₁, hc₂, hp.length_eq]

/-! ## Vertices that do not bear on each other -/

/-- The cost of all spends of `a` among the vertices. -/
def owed (R : Multiset DagTransaction) (a : Address) : ℕ :=
  (R.map fun tx => if a = tx.sender then tx.cost else 0).sum

theorem owed_cons (a : Address) :
    owed (x ::ₘ R) a = (if a = x.sender then x.cost else 0) + owed R a := by
  rw [owed, Multiset.map_cons, Multiset.sum_cons, owed]

/-- The vertices still to come are within the first era, and the rich cover all they owe. -/
structure Funded (rich : Address → Prop) (R : Multiset DagTransaction) (b : Book) : Prop where
  era : b.InEra R.card
  rich : ∀ a, rich a → owed R a ≤ b.balance a

variable {rich : Address → Prop}

theorem Funded.step (h : Funded rich (x ::ₘ R) b) :
    Funded rich R (Replay.step (Book.apply P) b x) := by
  obtain ⟨hera, hrich⟩ := h
  rw [Multiset.card_cons] at hera
  by_cases hc : b.Covers x
  · rw [Replay.step_some (apply_eq_some.2 ⟨hc, rfl⟩)]
    refine ⟨hera.enter, fun a ha => ?_⟩
    have hle := hrich a ha
    rw [owed_cons] at hle
    rw [enter_balance]
    omega
  · rw [Replay.step_none (if_neg hc)]
    refine ⟨⟨hera.schedule, (Nat.le_succ _).trans hera.count⟩, fun a ha => ?_⟩
    have hle := hrich a ha
    rw [owed_cons] at hle
    omega

theorem Funded.covered (h : Funded rich (x ::ₘ R) b) (hx : rich x.sender) :
    x.cost ≤ b.balance x.sender := by
  have hle := h.rich _ hx
  rw [owed_cons, if_pos rfl] at hle
  omega

/-- A vertex of another sender, which pays this one's sender nothing it needs, does not bear on
it. -/
theorem covers_step (h : Funded rich (x ::ₘ y ::ₘ R) b) (hne : x.sender ≠ y.sender)
    (hp : Pays P y x.sender → rich x.sender) :
    (Replay.step (Book.apply P) b y).Covers x ↔ b.Covers x := by
  by_cases hc : b.Covers y
  · have hstep : Replay.step (Book.apply P) b y = b.enter P y :=
      Replay.step_some (apply_eq_some.2 ⟨hc, rfl⟩)
    have hnonce : (b.enter P y).nonce x.sender = b.nonce x.sender := by
      rw [enter_nonce, if_neg hne]
    have hbal : x.cost ≤ (b.enter P y).balance x.sender ↔ x.cost ≤ b.balance x.sender := by
      by_cases hpays : Pays P y x.sender
      · have h' := h
        rw [Multiset.cons_swap] at h'
        have hleft := (h'.step (P := P)).covered (hp hpays)
        rw [hstep] at hleft
        exact iff_of_true hleft (h.covered (hp hpays))
      · rw [balance_enter_of_not_pays hne hpays]
    rw [hstep]
    unfold Covers
    rw [hnonce, hbal]
  · rw [Replay.step_none (if_neg hc)]

/-- Two vertices that do not bear on each other may be replayed in either order. -/
theorem step_comm (h : Funded rich (x ::ₘ y ::ₘ R) b) (hne : x.sender ≠ y.sender)
    (hx : Pays P y x.sender → rich x.sender) (hy : Pays P x y.sender → rich y.sender) :
    Replay.step (Book.apply P) (Replay.step (Book.apply P) b y) x
      = Replay.step (Book.apply P) (Replay.step (Book.apply P) b x) y := by
  have h' := h
  rw [Multiset.cons_swap] at h'
  have hcx := covers_step (P := P) h hne hx
  have hcy := covers_step (P := P) h' (Ne.symm hne) hy
  have hsome : ∀ {c : Book} {z}, c.Covers z → Replay.step (Book.apply P) c z = c.enter P z :=
    fun hc => Replay.step_some (apply_eq_some.2 ⟨hc, rfl⟩)
  have hnone : ∀ {c : Book} {z}, ¬ c.Covers z → Replay.step (Book.apply P) c z = c :=
    fun hc => Replay.step_none (if_neg hc)
  by_cases hbx : b.Covers x
  · rw [hsome (hcx.2 hbx), hsome hbx]
    by_cases hby : b.Covers y
    · have hera := h.era
      rw [Multiset.card_cons, Multiset.card_cons] at hera
      rw [hsome hby, hsome (by rw [← hsome hbx]; exact hcy.2 hby)]
      exact enter_comm hera hne hbx hby
    · rw [hnone hby, hnone (by rw [← hsome hbx]; exact mt hcy.1 hby)]
  · rw [hnone (mt hcx.1 hbx), hnone hbx]

end Book

namespace KronDAG

variable {P : Primitives} {d₁ d₂ d₁' d₂' : KronDAG}

/-! ## Two replicas -/

/-- The nodes agree on every account, on supply and count, and on the conflicts. -/
structure Converged (d₁ d₂ : KronDAG) : Prop where
  balance : ∀ a, d₁.balance a = d₂.balance a
  nonce : ∀ a, d₁.nextNonce.get a = d₂.nextNonce.get a
  relayCredit : ∀ a, d₁.relayCredits.get a = d₂.relayCredits.get a
  supply : d₁.currentSupply = d₂.currentSupply
  count : d₁.dagTxCount = d₂.dagTxCount
  conflicts : ∀ id, d₁.conflicts.lookup id = d₂.conflicts.lookup id

/-- The same vertices, weighed by what is stored, over the same faucet. -/
structure Twins (d₁ d₂ : KronDAG) : Prop where
  left : d₁.toGraph.WF
  right : d₂.toGraph.WF
  leftWeighed : d₁.toGraph.Weighed
  rightWeighed : d₂.toGraph.Weighed
  vertices : ∀ id, d₁.vertices.lookup id = d₂.vertices.lookup id
  faucet : ∀ a, d₁.faucet.get a = d₂.faucet.get a

/-- Every replayed vertex is due and covered at its place in both attach orders, or in neither. -/
def PlacesAgree (P : Primitives) (d₁ d₂ : KronDAG) : Prop :=
  ∀ tx pre₁ post₁ pre₂ post₂, tx ∈ d₁.replayed → d₁.attachOrder = pre₁ ++ tx.id :: post₁ →
    d₂.attachOrder = pre₂ ++ tx.id :: post₂ →
      ((d₁.bookBefore P pre₁).Covers tx ↔ (d₂.bookBefore P pre₂).Covers tx)

/-- `y` pays the sender of `x`, whose faucet alone does not cover all its replayed spends. -/
def Feeds (P : Primitives) (d : KronDAG) (y x : DagTransaction) : Prop :=
  Book.Pays P y x.sender ∧ d.faucet.get x.sender < Book.owed ↑d.replayed x.sender

/-- Which of two replayed vertices comes first may matter to the other. -/
def Depends (P : Primitives) (d : KronDAG) (x y : DagTransaction) : Prop :=
  x.sender = y.sender ∨ Feeds P d y x ∨ Feeds P d x y

/-- The attach orders agree on any two replayed vertices that depend on each other. -/
def DependentsAgree (P : Primitives) (d₁ d₂ : KronDAG) : Prop :=
  ∀ x y, [x, y].Sublist d₁.replayed → [y, x].Sublist d₂.replayed → ¬ Depends P d₁ x y

theorem length_replayed_le (hd : d₁.toGraph.WF) : d₁.replayed.length ≤ d₁.vertexCount :=
  (List.length_filterMap_le _ _).trans hd.length.le

theorem Twins.baseBook_eq (h : Twins d₁ d₂) : d₂.baseBook = d₁.baseBook :=
  Book.ext (funext fun a => (h.faucet a).symm) rfl rfl rfl rfl

theorem Twins.perm (h : Twins d₁ d₂) : d₁.replayed.Perm d₂.replayed :=
  Graph.replayed_perm h.left h.right h.leftWeighed h.rightWeighed fun id => (h.vertices id).symm

theorem Twins.symm (h : Twins d₁ d₂) : Twins d₂ d₁ :=
  ⟨h.right, h.left, h.rightWeighed, h.leftWeighed, fun id => (h.vertices id).symm,
    fun a => (h.faucet a).symm⟩

theorem Twins.winnerOf_eq (h : Twins d₁ d₂) (id : TxHash) :
    d₁.winnerOf.lookup id = d₂.winnerOf.lookup id :=
  Graph.winnerOf_congr h.right h.left h.rightWeighed h.leftWeighed h.vertices id

/-- What one twin has skipped, and noted, the other has skipped if it has noted the same. -/
theorem Twins.skipped_of_conflicts (h : Twins d₁ d₂)
    (hc : ∀ id, (noteExtraLosers d₁.winnerOf
        ((Replay.skipped (Book.apply P) d₁.baseBook d₁.replayed).map DagTransaction.id)).lookup id
      = (noteExtraLosers d₂.winnerOf
        ((Replay.skipped (Book.apply P) d₁.baseBook d₂.replayed).map DagTransaction.id)).lookup id)
    {tx : DagTransaction} (htx : tx ∈ Replay.skipped (Book.apply P) d₁.baseBook d₁.replayed) :
    tx ∈ Replay.skipped (Book.apply P) d₁.baseBook d₂.replayed := by
  have hrep := ((Replay.mem_skipped h.left.nodup_replayed).1 htx).1
  obtain ⟨htop, hl⟩ := h.left.mem_replayed.1 hrep
  have hw := (Graph.replayedAt_eq_some.1 (h.left.replayedAt_eq_some_iff.2 ⟨htop, hl⟩)).1
  have hid := hc tx.id
  rw [lookup_noteExtraLosers, lookup_noteExtraLosers, ← h.winnerOf_eq, hw,
    if_pos (List.mem_map_of_mem htx)] at hid
  simp only [Option.isSome_none, Bool.false_eq_true, if_false] at hid
  split_ifs at hid with hm
  obtain ⟨tx', htx', he⟩ := List.mem_map.1 hm
  have hrep' := ((Replay.mem_skipped h.right.nodup_replayed).1 htx').1
  have hl' := (h.right.mem_replayed.1 hrep').2
  rw [he, ← h.vertices, hl] at hl'
  cases hl'
  exact htx'

/-- Twins converge exactly when their replays lead to one book and skip the same vertices. -/
theorem converged_iff (h : Twins d₁ d₂)
    (h₁ : d₁.resolveConflictsAndRebuildLedger P = (d₁', .ok ()))
    (h₂ : d₂.resolveConflictsAndRebuildLedger P = (d₂', .ok ())) :
    Converged d₁' d₂' ↔
      Replay.greedy (Book.apply P) d₁.baseBook d₁.replayed
          = Replay.greedy (Book.apply P) d₁.baseBook d₂.replayed
        ∧ ∀ tx, tx ∈ Replay.skipped (Book.apply P) d₁.baseBook d₁.replayed
          ↔ tx ∈ Replay.skipped (Book.apply P) d₁.baseBook d₂.replayed := by
  obtain ⟨hb₁, -, hc₁⟩ := resolve_ok h.left h₁
  obtain ⟨hb₂, -, hc₂⟩ := resolve_ok h.right h₂
  rw [h.baseBook_eq] at hb₂ hc₂
  rw [← hb₁, ← hb₂]
  constructor
  · rintro ⟨hbal, hnonce, hrelay, hsupply, hcount, hconf⟩
    refine ⟨Book.ext (funext hbal) (funext hnonce) (funext hrelay) hsupply hcount, fun tx => ?_⟩
    rw [hc₁, hc₂] at hconf
    refine ⟨h.skipped_of_conflicts hconf, fun htx => ?_⟩
    rw [← h.baseBook_eq] at hconf htx ⊢
    exact h.symm.skipped_of_conflicts (fun id => (hconf id).symm) htx
  · rintro ⟨hbook, hskip⟩
    refine ⟨fun a => congrFun (congrArg Book.balance hbook) a,
      fun a => congrFun (congrArg Book.nonce hbook) a,
      fun a => congrFun (congrArg Book.relayCredit hbook) a, congrArg Book.supply hbook,
      congrArg Book.count hbook, fun id => ?_⟩
    have hids : id ∈ (Replay.skipped (Book.apply P) d₁.baseBook d₁.replayed).map DagTransaction.id
        ↔ id ∈ (Replay.skipped (Book.apply P) d₁.baseBook d₂.replayed).map DagTransaction.id := by
      simp only [List.mem_map, hskip]
    rw [hc₁, hc₂, lookup_noteExtraLosers, lookup_noteExtraLosers, h.winnerOf_eq]
    simp only [hids]

/-- The same are skipped exactly when the same are kept. -/
theorem Twins.skipped_iff_kept (h : Twins d₁ d₂) :
    (∀ tx, tx ∈ Replay.skipped (Book.apply P) d₁.baseBook d₁.replayed
        ↔ tx ∈ Replay.skipped (Book.apply P) d₁.baseBook d₂.replayed)
      ↔ ∀ tx ∈ d₁.replayed, (tx ∈ Replay.kept (Book.apply P) d₁.baseBook d₁.replayed
        ↔ tx ∈ Replay.kept (Book.apply P) d₁.baseBook d₂.replayed) := by
  refine forall_congr' fun tx => ?_
  rw [Replay.mem_skipped h.left.nodup_replayed, Replay.mem_skipped h.right.nodup_replayed,
    ← h.perm.mem_iff, and_congr_right_iff, not_iff_not]

/-- A vertex is kept where it is due and covered at its place. -/
theorem Twins.placesAgree_iff (h : Twins d₁ d₂) : PlacesAgree P d₁ d₂
    ↔ ∀ tx ∈ d₁.replayed, (tx ∈ Replay.kept (Book.apply P) d₁.baseBook d₁.replayed
        ↔ tx ∈ Replay.kept (Book.apply P) d₁.baseBook d₂.replayed) := by
  have hkept : ∀ tx pre₁ post₁ pre₂ post₂, tx ∈ d₁.replayed →
      d₁.attachOrder = pre₁ ++ tx.id :: post₁ → d₂.attachOrder = pre₂ ++ tx.id :: post₂ →
      (tx ∈ Replay.kept (Book.apply P) d₁.baseBook d₁.replayed
          ↔ (d₁.bookBefore P pre₁).Covers tx)
        ∧ (tx ∈ Replay.kept (Book.apply P) d₁.baseBook d₂.replayed
          ↔ (d₂.bookBefore P pre₂).Covers tx) := by
    intro tx pre₁ post₁ pre₂ post₂ htx ho₁ ho₂
    have hr₁ := h.left.replayedAt_eq_some_iff.2 (h.left.mem_replayed.1 htx)
    have hr₂ := h.right.replayedAt_eq_some_iff.2 (h.right.mem_replayed.1 (h.perm.subset htx))
    have hk₂ := mem_kept_replayed (P := P) h.right ho₂ hr₂
    rw [h.baseBook_eq] at hk₂
    exact ⟨mem_kept_replayed h.left ho₁ hr₁, hk₂⟩
  constructor
  · intro hp tx htx
    have hl₁ := (h.left.mem_replayed.1 htx).2
    have hl₂ : d₂.vertices.lookup tx.id = some tx := by rw [← h.vertices, hl₁]
    obtain ⟨pre₁, post₁, ho₁⟩ := h.left.split_order hl₁
    obtain ⟨pre₂, post₂, ho₂⟩ := h.right.split_order hl₂
    obtain ⟨hk₁, hk₂⟩ := hkept tx pre₁ post₁ pre₂ post₂ htx ho₁ ho₂
    rw [hk₁, hk₂]
    exact hp tx pre₁ post₁ pre₂ post₂ htx ho₁ ho₂
  · intro hsame tx pre₁ post₁ pre₂ post₂ htx ho₁ ho₂
    obtain ⟨hk₁, hk₂⟩ := hkept tx pre₁ post₁ pre₂ post₂ htx ho₁ ho₂
    rw [← hk₁, ← hk₂]
    exact hsame tx htx

theorem Twins.kept_perm (h : Twins d₁ d₂)
    (hsame : ∀ tx ∈ d₁.replayed, (tx ∈ Replay.kept (Book.apply P) d₁.baseBook d₁.replayed
      ↔ tx ∈ Replay.kept (Book.apply P) d₁.baseBook d₂.replayed)) :
    (Replay.kept (Book.apply P) d₁.baseBook d₁.replayed).Perm
      (Replay.kept (Book.apply P) d₁.baseBook d₂.replayed) := by
  have hsub : ∀ (l : List DagTransaction), Replay.kept (Book.apply P) d₁.baseBook l ⊆ l :=
    fun l => (Replay.kept_sublist _ l).subset
  rw [List.perm_ext_iff_of_nodup (h.left.nodup_replayed.sublist (Replay.kept_sublist _ _))
    (h.right.nodup_replayed.sublist (Replay.kept_sublist _ _))]
  refine fun tx => ⟨fun hm => (hsame tx (hsub _ hm)).1 hm, fun hm => ?_⟩
  exact (hsame tx (h.perm.mem_iff.2 (hsub _ hm))).2 hm

/-- In the first era twins converge exactly when each replayed vertex is due and covered at its
place in both orders or in neither. -/
theorem converged_iff_places (h : Twins d₁ d₂) (hera : d₁.vertexCount ≤ txHalvingInterval)
    (h₁ : d₁.resolveConflictsAndRebuildLedger P = (d₁', .ok ()))
    (h₂ : d₂.resolveConflictsAndRebuildLedger P = (d₂', .ok ())) :
    Converged d₁' d₂' ↔ PlacesAgree P d₁ d₂ := by
  rw [converged_iff h h₁ h₂, h.skipped_iff_kept, h.placesAgree_iff, and_iff_right_iff_imp]
  intro hsame
  refine Book.all_perm (h.kept_perm hsame) ⟨emitted_zero.symm, ?_⟩ (fun _ => Nat.le_refl _)
    (Replay.all_kept _ _) (Replay.all_kept _ _)
  have hlen : (Replay.kept (Book.apply P) d₁.baseBook d₁.replayed).length
      ≤ d₁.replayed.length := (Replay.kept_sublist _ _).length_le
  have hrep := length_replayed_le h.left
  change 0 + _ ≤ _
  omega

/-- In the first era twins converge as soon as their orders agree on the vertices that depend on
each other. -/
theorem converged_of_dependents (h : Twins d₁ d₂) (hera : d₁.vertexCount ≤ txHalvingInterval)
    (h₁ : d₁.resolveConflictsAndRebuildLedger P = (d₁', .ok ()))
    (h₂ : d₂.resolveConflictsAndRebuildLedger P = (d₂', .ok ()))
    (hdep : DependentsAgree P d₁ d₂) : Converged d₁' d₂' := by
  have hrep := length_replayed_le h.left
  set rich : Address → Prop := fun a => Book.owed ↑d₁.replayed a ≤ d₁.faucet.get a with hrich
  have hstart : Book.Funded rich ↑d₁.replayed d₁.baseBook := by
    refine ⟨⟨emitted_zero.symm, ?_⟩, fun a ha => ha⟩
    rw [Multiset.coe_card]
    change 0 + _ ≤ _
    omega
  rw [converged_iff h h₁ h₂]
  refine Replay.greedy_perm_of_indep (fun x y => ¬ Depends P d₁ x y) (Book.Funded rich)
    (fun R b x hb => hb.step) (fun R b x y hb hxy => ?_)
    (fun R b x y hb hxy => ?_) hstart h.perm hdep
  all_goals
    unfold Depends Feeds at hxy
    simp only [not_or, not_and, not_lt] at hxy
    obtain ⟨hne, hx, hy⟩ := hxy
  · have hb' := hb
    rw [Multiset.cons_swap] at hb'
    simp only [Book.isSome_apply]
    exact ⟨Book.covers_step hb hne hx, Book.covers_step hb' (Ne.symm hne) hy⟩
  · exact Book.step_comm hb hne hx hy

/-- Twins that replay in the same order converge in any era. -/
theorem converged_of_replayed_eq (h : Twins d₁ d₂) (he : d₁.replayed = d₂.replayed)
    (h₁ : d₁.resolveConflictsAndRebuildLedger P = (d₁', .ok ()))
    (h₂ : d₂.resolveConflictsAndRebuildLedger P = (d₂', .ok ())) : Converged d₁' d₂' := by
  rw [converged_iff h h₁ h₂, he]
  exact ⟨rfl, fun _ => Iff.rfl⟩

end KronDAG

section Runs

variable {P : Primitives} {d d₁' d₂' : KronDAG}

theorem twins_run (h : KronDAG.withGenesis P = some d) (ops₁ ops₂ : List Op)
    (hfaucet : ∀ a, (run P d ops₁).faucet.get a = (run P d ops₂).faucet.get a)
    (hvertices : ∀ id, (run P d ops₁).vertices.lookup id = (run P d ops₂).vertices.lookup id) :
    KronDAG.Twins (run P d ops₁) (run P d ops₂) :=
  ⟨(wf_run h ops₁).graph, (wf_run h ops₂).graph, weighed_run h ops₁, weighed_run h ops₂, hvertices,
    hfaucet⟩

/-- Two runs that store the same vertices over the same faucet converge when they replay in the same
order. In the first era they converge exactly when each replayed vertex is due and covered at its
place in both orders or in neither, and so whenever the orders agree on the vertices that depend on
each other. -/
theorem convergence_run_iff (h : KronDAG.withGenesis P = some d) (ops₁ ops₂ : List Op)
    (hfaucet : ∀ a, (run P d ops₁).faucet.get a = (run P d ops₂).faucet.get a)
    (hvertices : ∀ id, (run P d ops₁).vertices.lookup id = (run P d ops₂).vertices.lookup id)
    (h₁ : (run P d ops₁).resolveConflictsAndRebuildLedger P = (d₁', .ok ()))
    (h₂ : (run P d ops₂).resolveConflictsAndRebuildLedger P = (d₂', .ok ())) :
    ((run P d ops₁).replayed = (run P d ops₂).replayed → KronDAG.Converged d₁' d₂') ∧
      ((run P d ops₁).vertexCount ≤ txHalvingInterval →
        (KronDAG.Converged d₁' d₂' ↔ KronDAG.PlacesAgree P (run P d ops₁) (run P d ops₂)) ∧
          (KronDAG.DependentsAgree P (run P d ops₁) (run P d ops₂) →
            KronDAG.Converged d₁' d₂')) := by
  have htwins := twins_run h ops₁ ops₂ hfaucet hvertices
  exact ⟨fun he => KronDAG.converged_of_replayed_eq htwins he h₁ h₂, fun hera =>
    ⟨KronDAG.converged_iff_places htwins hera h₁ h₂,
      KronDAG.converged_of_dependents htwins hera h₁ h₂⟩⟩

namespace StandIn

/-- Either wallet can pay for what it spends out of its faucet. -/
def bothFunded : KronDAG := (fundedDag 1 2000).creditAccount (address 2) 1000000

def fundedPayFirst : List Op :=
  [.credit (address 1) 2000, .credit (address 2) 1000000, .accept payTransfer,
    .accept firstTransfer]

def fundedPayLast : List Op :=
  [.credit (address 1) 2000, .credit (address 2) 1000000, .accept firstTransfer,
    .accept payTransfer]

theorem run_bothFunded {txs : List DagTransaction} (ht : ∀ tx ∈ txs, IsTransfer tx)
    (h : acceptable bothFunded txs = true) :
    run primitives genesisDag
        (.credit (address 1) 2000 :: .credit (address 2) 1000000 :: txs.map .accept)
      = acceptAll bothFunded txs := by
  rw [run_cons, exec_credit, run_cons, exec_credit]
  exact (run_transfers txs ht h).1

theorem run_fundedPayFirst : run primitives genesisDag fundedPayFirst
    = acceptAll bothFunded [payTransfer, firstTransfer] := by
  have h := run_bothFunded isTransfer_pay (by decide)
  exact h

theorem run_fundedPayLast : run primitives genesisDag fundedPayLast
    = acceptAll bothFunded [firstTransfer, payTransfer] := by
  have h := run_bothFunded (fun tx htx => isTransfer_pay tx
    ((List.Perm.swap payTransfer firstTransfer []).mem_iff.1 htx)) (by decide)
  exact h

/-- No spend needs the other. -/
theorem dependentsAgree_bothFunded : KronDAG.DependentsAgree primitives
    (run primitives genesisDag fundedPayFirst) (run primitives genesisDag fundedPayLast) := by
  rw [run_fundedPayFirst]
  intro x y hxy _
  have hsenders : ((acceptAll bothFunded [payTransfer, firstTransfer]).replayed.map
      DagTransaction.sender).Nodup := by
    decide
  have hpaid : ∀ z ∈ (acceptAll bothFunded [payTransfer, firstTransfer]).replayed,
      ¬ (acceptAll bothFunded [payTransfer, firstTransfer]).faucet.get z.sender
        < Book.owed ↑(acceptAll bothFunded [payTransfer, firstTransfer]).replayed z.sender := by
    decide
  have hne : x.sender ≠ y.sender := by
    simpa using hsenders.sublist (hxy.map DagTransaction.sender)
  rintro (heq | ⟨-, hlt⟩ | ⟨-, hlt⟩)
  · exact hne heq
  · exact hpaid x (hxy.subset (by simp)) hlt
  · exact hpaid y (hxy.subset (by simp)) hlt

end StandIn

open StandIn in
/-- Two spends that need no payment converge in either order. -/
theorem convergence_run_iff_bothFunded : ∃ d₁' d₂',
    (run primitives genesisDag fundedPayFirst).resolveConflictsAndRebuildLedger primitives
        = (d₁', .ok ())
      ∧ (run primitives genesisDag fundedPayLast).resolveConflictsAndRebuildLedger primitives
        = (d₂', .ok ())
      ∧ (run primitives genesisDag fundedPayFirst).attachOrder
        ≠ (run primitives genesisDag fundedPayLast).attachOrder
      ∧ KronDAG.Converged d₁' d₂' := by
  have hfaucet : (acceptAll bothFunded [payTransfer, firstTransfer]).faucet
      = (acceptAll bothFunded [firstTransfer, payTransfer]).faucet := by
    apply AList.ext
    decide
  have hvertices : ∀ id, (run primitives genesisDag fundedPayFirst).vertices.lookup id
      = (run primitives genesisDag fundedPayLast).vertices.lookup id := by
    intro id
    rw [run_fundedPayFirst, run_fundedPayLast]
    exact lookup_acceptPair_swap (by decide) isTransfer_pay (by decide) (by decide) id
  have hok : ((acceptAll bothFunded [payTransfer, firstTransfer]).resolveConflictsAndRebuildLedger
      primitives).2 = .ok () := by
    decide
  have hok' : ((acceptAll bothFunded [firstTransfer, payTransfer]).resolveConflictsAndRebuildLedger
      primitives).2 = .ok () := by
    decide
  rw [← run_fundedPayFirst] at hok
  rw [← run_fundedPayLast] at hok'
  obtain ⟨d₁', h₁⟩ := Outcome.of_snd_ok hok
  obtain ⟨d₂', h₂⟩ := Outcome.of_snd_ok hok'
  refine ⟨d₁', d₂', h₁, h₂, ?_, ?_⟩
  · rw [run_fundedPayFirst, run_fundedPayLast]
    decide
  · refine ((convergence_run_iff withGenesis_genesisDag fundedPayFirst fundedPayLast (fun a => ?_)
      hvertices h₁ h₂).2 ?_).2 dependentsAgree_bothFunded
    · rw [run_fundedPayFirst, run_fundedPayLast, hfaucet]
    · rw [run_fundedPayFirst]
      decide

open StandIn in
/-- A spend that needs a payment is applied where it comes behind the payment and is a conflict
where it comes before. -/
theorem orders_diverge :
    KronDAG.withGenesis primitives = some genesisDag
      ∧ (∀ a, (run primitives genesisDag payFirstOps).faucet.get a
        = (run primitives genesisDag payLastOps).faucet.get a)
      ∧ (∀ id, (run primitives genesisDag payFirstOps).vertices.lookup id
        = (run primitives genesisDag payLastOps).vertices.lookup id)
      ∧ (((run primitives genesisDag payFirstOps).resolveConflictsAndRebuildLedger primitives).2
          = .ok ()
        ∧ ((run primitives genesisDag payFirstOps).resolveConflictsAndRebuildLedger
          primitives).1.balance (address 1) = 199000)
      ∧ (((run primitives genesisDag payLastOps).resolveConflictsAndRebuildLedger primitives).2
          = .ok ()
        ∧ ((run primitives genesisDag payLastOps).resolveConflictsAndRebuildLedger
          primitives).1.balance (address 1) = 100000) := by
  have hfaucet : payFirstDag.faucet = payLastDag.faucet := by
    apply AList.ext
    decide
  have hvertices := lookup_payOps
  rw [run_payFirstOps, run_payLastOps] at hvertices ⊢
  refine ⟨withGenesis_genesisDag, fun a => by rw [hfaucet], hvertices, ⟨?_, ?_⟩, ?_, ?_⟩
  all_goals decide

end Runs

end KronMesh
