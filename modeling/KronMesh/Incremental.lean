import KronMesh.Explained

/-!
# The fast path and the rebuild

A vertex whose spend is due is attached to the ledger as it stands; a rebuild ranks and replays
everything anew. After faucet credits and any number of accepted vertices the ledger is a replay of
the applied vertices in attach order, from the faucet (`Incremental`). A rebuild on top leaves it
alone exactly when it applies the same vertices: none of them is outranked by now, each conflict
that ranks first is still refused at its place, and the protocol key has spent nothing from the
nonce that only the genesis vertex gave it (`rebuild_agrees_iff`).
-/

namespace KronMesh

open Word Outcome

/-! ## Ledgers that differ in one nonce -/

namespace Ledger

variable {P : Primitives} {l l' m : Ledger} {tx : DagTransaction} {key : Address}

theorem creditChecked_eqOff (h : l.book.EqOff key m.book) {a : Address} {n : ℕ}
    (hl : l.creditChecked a n = (l', .ok ())) :
    ∃ m', m.creditChecked a n = (m', .ok ()) ∧ l'.book.EqOff key m'.book := by
  have hbal : ∀ x, l.balance x = m.balance x := fun x => congrFun h.balance x
  have hm : ∃ m', m.creditChecked a n = (m', .ok ()) := by
    simp only [creditChecked_ok, hbal] at hl ⊢
    rcases hl with ⟨rfl, -⟩ | ⟨hn, hle, -⟩
    · exact ⟨m, .inl ⟨rfl, rfl⟩⟩
    · exact ⟨_, .inr ⟨hn, hle, rfl⟩⟩
  obtain ⟨m', hm⟩ := hm
  refine ⟨m', hm, ?_⟩
  rw [book_creditChecked hl, book_creditChecked hm]
  exact ⟨funext fun x => by simp only [hbal], h.nonce, h.relayCredit, h.supply, h.count⟩

theorem creditRelay_eqOff (h : l.book.EqOff key m.book) {a : Address} {n : ℕ}
    (hl : l.creditRelay a n = (l', .ok ())) :
    ∃ m', m.creditRelay a n = (m', .ok ()) ∧ l'.book.EqOff key m'.book := by
  have hrel : ∀ x, l.relayCredits.get x = m.relayCredits.get x := fun x => congrFun h.relayCredit x
  have hm : ∃ m', m.creditRelay a n = (m', .ok ()) := by
    simp only [creditRelay_ok, hrel] at hl ⊢
    exact ⟨_, hl.1, rfl⟩
  obtain ⟨m', hm⟩ := hm
  refine ⟨m', hm, ?_⟩
  rw [book_creditRelay hl, book_creditRelay hm]
  exact ⟨h.balance, h.nonce, funext fun x => by simp only [hrel], h.supply, h.count⟩

theorem payRelays_eqOff : ∀ (payouts : List (Address × ℕ)) {l l' m : Ledger},
    l.book.EqOff key m.book → l.payRelays payouts = (l', .ok ()) →
      ∃ m', m.payRelays payouts = (m', .ok ()) ∧ l'.book.EqOff key m'.book
  | [], l, l', m, h, hl => by
    cases hl
    exact ⟨m, rfl, h⟩
  | p :: payouts, l, l', m, h, hl => by
    obtain ⟨l₁, hl₁, hl⟩ := andThen_eq_ok.1 hl
    obtain ⟨l₂, hl₂, hl⟩ := andThen_eq_ok.1 hl
    obtain ⟨m₁, hm₁, h₁⟩ := creditChecked_eqOff h hl₁
    obtain ⟨m₂, hm₂, h₂⟩ := creditRelay_eqOff h₁ hl₂
    obtain ⟨m', hm, h'⟩ := payRelays_eqOff payouts h₂ hl
    exact ⟨m', andThen_eq_ok.2 ⟨m₁, hm₁, andThen_eq_ok.2 ⟨m₂, hm₂, hm⟩⟩, h'⟩

theorem mintConfirmedTx_eqOff (h : l.book.EqOff key m.book) {fee : ℕ} {miner : Address}
    {relays : List Address} (hl : l.mintConfirmedTx fee miner relays = (l', .ok ())) :
    ∃ m', m.mintConfirmedTx fee miner relays = (m', .ok ()) := by
  have hsub : l.book.subsidy = m.book.subsidy := by
    unfold Book.subsidy
    rw [h.count, h.supply]
  obtain ⟨hle, l₁, l₂, hl₁, hl₂, hs, hc, -⟩ := mintConfirmedTx_eq_ok.1 hl
  rw [hsub] at hle hl₁ hl₂ hs
  obtain ⟨m₁, hm₁, h₁⟩ := creditChecked_eqOff h hl₁
  obtain ⟨m₂, hm₂, h₂⟩ := payRelays_eqOff _ h₁ hl₂
  have hsupply : l₂.currentSupply = m₂.currentSupply := h₂.supply
  have hcount : l₂.dagTxCount = m₂.dagTxCount := h₂.count
  exact ⟨_, mintConfirmedTx_eq_ok.2 ⟨hle, m₁, m₂, hm₁, hm₂, hsupply ▸ hs, hcount ▸ hc, rfl⟩⟩

/-- What one ledger takes of another sender than `key`, the other takes. -/
theorem applyLedgerEffects_eqOff (h : l.book.EqOff key m.book) (hs : tx.sender ≠ key)
    (hl : l.applyLedgerEffects P tx = (l', .ok ())) :
    ∃ m', m.applyLedgerEffects P tx = (m', .ok ()) ∧ l'.book.EqOff key m'.book := by
  have hbal : l.balance = m.balance := h.balance
  have hnonce : l.nextNonce.get tx.sender = m.nextNonce.get tx.sender := h.nonce _ hs
  have hspend : m.checkSpend tx = l.checkSpend tx := by
    unfold checkSpend
    rw [hbal, hnonce]
  have hm : ∃ m', m.applyLedgerEffects P tx = (m', .ok ()) := by
    unfold applyLedgerEffects at hl ⊢
    rw [hspend]
    rcases hc : l.checkSpend tx with e | new
    · rw [hc] at hl
      cases hl
    · rw [hc] at hl
      have hmove : (l.moveSpend tx new).book.EqOff key (m.moveSpend tx new).book := by
        refine ⟨funext fun a => ?_, fun a ha => ?_, h.relayCredit, h.supply, h.count⟩
        · have h₁ := balance_moveSpend hc a
          have h₂ := balance_moveSpend (hspend.trans hc) a
          rw [hbal, ← h₂] at h₁
          exact h₁
        · have hset : ∀ k : Ledger, (k.moveSpend tx new).nextNonce.get a
              = if a = tx.sender then saturatingAdd (k.nextNonce.get tx.sender) 1
                else k.nextNonce.get a := fun k => Tally.get_set _ _ _ _
          have ha : l.nextNonce.get a = m.nextNonce.get a := h.nonce a ha
          change (l.moveSpend tx new).nextNonce.get a = (m.moveSpend tx new).nextNonce.get a
          rw [hset, hset, hnonce, ha]
      obtain ⟨m', hm⟩ := mintConfirmedTx_eqOff hmove (mapErr_eq_ok.1 hl)
      exact ⟨m', mapErr_eq_ok.2 hm⟩
  obtain ⟨m', hm⟩ := hm
  obtain ⟨c, hc, heq⟩ := h.apply hs (book_applyLedgerEffects hl)
  rw [book_applyLedgerEffects hm] at hc
  cases hc
  exact ⟨m', hm, heq⟩

theorem applyAll_eqOff : ∀ (txs : List DagTransaction) {l l' m : Ledger},
    l.book.EqOff key m.book → (∀ tx ∈ txs, tx.sender ≠ key) → l.applyAll P txs = (l', .ok ()) →
      ∃ m', m.applyAll P txs = (m', .ok ()) ∧ l'.book.EqOff key m'.book
  | [], l, l', m, h, _, hl => by
    cases hl
    exact ⟨m, rfl, h⟩
  | tx :: txs, l, l', m, h, hs, hl => by
    obtain ⟨hs, hrest⟩ := List.forall_mem_cons.1 hs
    obtain ⟨l₁, hl₁, hl⟩ := andThen_eq_ok.1 hl
    obtain ⟨m₁, hm₁, h₁⟩ := applyLedgerEffects_eqOff h hs hl₁
    obtain ⟨m', hm, h'⟩ := applyAll_eqOff txs h₁ hrest hl
    exact ⟨m', andThen_eq_ok.2 ⟨m₁, hm₁, hm⟩, h'⟩

theorem applyAll_concat (txs : List DagTransaction) {l l₁ l' : Ledger}
    (h₁ : l.applyAll P txs = (l₁, .ok ())) (h : l₁.applyLedgerEffects P tx = (l', .ok ())) :
    l.applyAll P (txs ++ [tx]) = (l', .ok ()) := by
  induction txs generalizing l with
  | nil =>
    cases h₁
    exact andThen_eq_ok.2 ⟨l', h, rfl⟩
  | cons y txs ih =>
    obtain ⟨l₂, hy, h₁⟩ := andThen_eq_ok.1 h₁
    exact andThen_eq_ok.2 ⟨l₂, hy, ih h₁⟩

/-- A ledger that takes vertices books them. -/
theorem book_applyAll : ∀ (txs : List DagTransaction) {l l' : Ledger},
    l.applyAll P txs = (l', .ok ()) → Replay.all (Book.apply P) l.book txs = some l'.book
  | [], l, l', h => by
    cases h
    rfl
  | tx :: txs, l, l', h => by
    obtain ⟨l₁, h₁, h⟩ := andThen_eq_ok.1 h
    rw [Replay.all, book_applyLedgerEffects h₁, Option.bind_some]
    exact book_applyAll txs h

end Ledger

namespace Book

variable {P : Primitives} {tx : DagTransaction} {key : Address}

/-- Once a nonce of `key` is used, none of its vertices that are taken spends nonce zero. -/
theorem nonce_ne_zero_of_all : ∀ (txs : List DagTransaction) {b b' : Book}, 0 < b.nonce key →
    Replay.all (Book.apply P) b txs = some b' →
      0 < b'.nonce key ∧ ∀ tx ∈ txs, tx.sender = key → tx.nonce ≠ 0
  | [], b, b', hpos, h => by
    cases h
    exact ⟨hpos, fun tx hm => absurd hm List.not_mem_nil⟩
  | tx :: txs, b, b', hpos, h => by
    obtain ⟨b₁, h₁, h⟩ := Option.bind_eq_some_iff.1 h
    obtain ⟨hcov, rfl⟩ := apply_eq_some.1 h₁
    have hpos₁ : 0 < (b.enter P tx).nonce key := by
      rw [enter_nonce]
      split_ifs
      · exact lt_min (Nat.succ_pos _) (by decide)
      · exact hpos
    obtain ⟨hlast, hrest⟩ := nonce_ne_zero_of_all txs hpos₁ h
    refine ⟨hlast, List.forall_mem_cons.2 ⟨fun hkey hzero => ?_, hrest⟩⟩
    have hdue := hcov.1
    rw [hkey, hzero] at hdue
    exact absurd hdue.symm (Nat.pos_iff_ne_zero.1 hpos)

/-- From the start the first vertex of `key` that is taken spends nonce zero. -/
theorem exists_nonce_zero_of_all : ∀ (txs : List DagTransaction) {b b' : Book}, b.nonce key = 0 →
    Replay.all (Book.apply P) b txs = some b' → (∃ tx ∈ txs, tx.sender = key) →
      ∃ tx ∈ txs, tx.sender = key ∧ tx.nonce = 0
  | [], _, _, _, _, ⟨tx, hm, _⟩ => absurd hm List.not_mem_nil
  | tx :: txs, b, b', hzero, h, hex => by
    obtain ⟨b₁, h₁, h⟩ := Option.bind_eq_some_iff.1 h
    obtain ⟨hcov, rfl⟩ := apply_eq_some.1 h₁
    by_cases hkey : tx.sender = key
    · refine ⟨tx, List.mem_cons_self, hkey, ?_⟩
      have hdue := hcov.1
      rw [hkey, hzero] at hdue
      exact UInt64.toNat_inj.1 hdue
    · have hzero₁ : (b.enter P tx).nonce key = 0 := by
        rw [enter_nonce, if_neg (Ne.symm hkey)]
        exact hzero
      obtain ⟨y, hy, hys⟩ := hex
      rcases List.mem_cons.1 hy with rfl | hy
      · exact absurd hys hkey
      obtain ⟨z, hz, hzk⟩ := exists_nonce_zero_of_all txs hzero₁ h ⟨y, hy, hys⟩
      exact ⟨z, List.mem_cons_of_mem _ hz, hzk⟩

end Book

/-! ## The replay of a rebuild, on the ledger -/

section Loop

variable {P : Primitives} {g : Graph}

/-- A replay that goes through takes what it keeps. -/
theorem replayLoop_applyAll : ∀ (order : List TxHash) {l l' : Ledger} {extra extra' : List TxHash},
    replayLoop P g.vertices g.winnerOf l extra order = (l', .ok extra') →
      l.applyAll P (Replay.kept (Book.apply P) l.book (order.filterMap g.replayedAt)) = (l', .ok ())
  | [], l, l', extra, extra', h => by
    cases h
    rfl
  | id :: order, l, l', extra, extra', h => by
    rcases hr : g.replayedAt id with _ | tx
    · rw [replayLoop_none l extra order hr] at h
      rw [List.filterMap_cons_none hr]
      exact replayLoop_applyAll order h
    · rw [List.filterMap_cons_some hr]
      rcases replayLoop_some (P := P) l extra order hr with ⟨l₁, ha, he⟩ |
        ⟨-, -, -, hb, he⟩ | ⟨l₁, -, he⟩
      · rw [he] at h
        rw [Replay.kept_cons_some (Ledger.book_applyLedgerEffects ha)]
        exact andThen_eq_ok.2 ⟨l₁, ha, replayLoop_applyAll order h⟩
      · rw [he] at h
        rw [Replay.kept_cons_none hb]
        exact replayLoop_applyAll order h
      · rw [he] at h
        cases h

/-- A replay that goes through meets no vertex that is due and exceeds a word. -/
theorem replayLoop_due : ∀ (order : List TxHash) {l l' : Ledger} {extra extra' : List TxHash},
    replayLoop P g.vertices g.winnerOf l extra order = (l', .ok extra') →
      ∀ pre id post, order = pre ++ id :: post → ∀ tx, g.replayedAt id = some tx →
        u64Max < tx.cost → tx.nonce.toNat
          ≠ (Replay.greedy (Book.apply P) l.book (pre.filterMap g.replayedAt)).nonce tx.sender
  | [], _, _, _, _, _ => by simp
  | id :: order, l, l', extra, extra', h => by
    rw [Replay.forall_places_cons]
    rcases hr : g.replayedAt id with _ | tx
    · rw [replayLoop_none l extra order hr] at h
      refine ⟨fun tx hnone => (by cases hnone), fun pre j post ho => ?_⟩
      rw [List.filterMap_cons_none hr]
      exact replayLoop_due order h pre j post ho
    · have hdue : ∀ l₁ r, l.applyLedgerEffects P tx = (l₁, r) → r ≠ .error .overflow →
          u64Max < tx.cost → tx.nonce.toNat ≠ l.book.nonce tx.sender := by
        intro l₁ r ha hne hcost hn
        refine hne ?_
        rcases Ledger.checkSpend_cases l tx with ⟨h', -⟩ | ⟨-, -, h'⟩ | ⟨-, hc, -⟩ | ⟨-, hc, -⟩ |
          ⟨-, hc, -⟩
        · exact absurd hn h'
        · unfold Ledger.applyLedgerEffects at ha
          rw [h'] at ha
          exact (Prod.ext_iff.1 ha).2.symm
        all_goals exact absurd hcost (not_lt.2 hc)
      rcases replayLoop_some (P := P) l extra order hr with ⟨l₁, ha, he⟩ |
        ⟨e, ha, hne, hb, he⟩ | ⟨l₁, -, he⟩
      · rw [he] at h
        refine ⟨fun y hy => ?_, fun pre j post ho => ?_⟩
        · cases hy
          exact hdue _ _ ha (by simp)
        · rw [List.filterMap_cons_some hr, Replay.greedy_cons,
            Replay.step_some (Ledger.book_applyLedgerEffects ha)]
          exact replayLoop_due order h pre j post ho
      · rw [he] at h
        refine ⟨fun y hy => ?_, fun pre j post ho => ?_⟩
        · cases hy
          exact hdue _ _ ha (by simpa using hne)
        · rw [List.filterMap_cons_some hr, Replay.greedy_cons, Replay.step_none hb]
          exact replayLoop_due order h pre j post ho
      · rw [he] at h
        cases h

end Loop

/-- The book refuses the vertex for its nonce or for want of funds, and does not overflow at it. -/
def Book.Refuses (b : Book) (tx : DagTransaction) : Prop :=
  tx.nonce.toNat ≠ b.nonce tx.sender ∨ tx.cost ≤ u64Max ∧ b.balance tx.sender < tx.cost

theorem Book.apply_of_refuses {P : Primitives} {b : Book} {tx : DagTransaction}
    (h : b.Refuses tx) : b.apply P tx = none := by
  refine if_neg fun hcov => ?_
  rcases h with h | ⟨-, h⟩
  · exact h hcov.1
  · exact absurd hcov.2 (not_le.2 h)

theorem Ledger.applyLedgerEffects_of_refuses {P : Primitives} {l : Ledger} {tx : DagTransaction}
    (h : l.book.Refuses tx) :
    ∃ e, l.applyLedgerEffects P tx = (l, .error e) ∧ e ≠ .overflow := by
  have hspend : ∃ e, l.checkSpend tx = .error e ∧ e ≠ .overflow := by
    rcases checkSpend_cases l tx with ⟨-, hs⟩ | ⟨hn, hc, -⟩ | ⟨-, -, -, hs⟩ | ⟨hcov, -⟩ | ⟨hcov, -⟩
    · exact ⟨_, hs, by simp⟩
    · rcases h with h | ⟨h, -⟩
      · exact absurd hn h
      · exact absurd hc (not_lt.2 h)
    · exact ⟨_, hs, by simp⟩
    all_goals
      rcases h with h | ⟨-, h⟩
      · exact absurd hcov.1 h
      · exact absurd hcov.2 (not_le.2 h)
  obtain ⟨e, hs, he⟩ := hspend
  refine ⟨e, ?_, he⟩
  unfold applyLedgerEffects
  rw [hs]

namespace KronDAG

variable {P : Primitives} {d d' : KronDAG} {tx : DagTransaction}

/-- A replay applies the applied vertices again when each of them is replayed and every other vertex
it looks at is refused at its place among them. -/
theorem replayLoop_of_places : ∀ (order : List TxHash) {l l' : Ledger} (extra : List TxHash),
    l.applyAll P (order.filterMap d.appliedAt) = (l', .ok ()) →
    (∀ pre id post, order = pre ++ id :: post →
      (∀ tx, d.appliedAt id = some tx → d.replayedAt id = some tx) ∧
      ∀ tx b, d.replayedAt id = some tx → d.appliedAt id = none →
        Replay.all (Book.apply P) l.book (pre.filterMap d.appliedAt) = some b → b.Refuses tx) →
    ∃ extra', replayLoop P d.vertices d.winnerOf l extra order = (l', .ok extra')
  | [], l, l', extra, h, _ => by
    cases h
    exact ⟨extra, rfl⟩
  | id :: order, l, l', extra, h, hp => by
    rw [Replay.forall_places_cons] at hp
    obtain ⟨⟨hin, hout⟩, hp⟩ := hp
    rcases hai : d.appliedAt id with _ | tx
    · simp only [List.filterMap_cons_none hai] at h hp
      rcases hr : d.replayedAt id with _ | tx
      · rw [replayLoop_none l extra order hr]
        exact replayLoop_of_places order extra h hp
      · obtain ⟨e, ha, he⟩ := Ledger.applyLedgerEffects_of_refuses (P := P) (hout tx _ hr hai rfl)
        rcases replayLoop_some (P := P) l extra order hr with ⟨l₁, ha', -⟩ |
          ⟨-, -, -, -, hloop⟩ | ⟨l₁, ha', -⟩
        · rw [ha] at ha'
          cases ha'
        · rw [hloop]
          exact replayLoop_of_places order _ h hp
        · rw [ha] at ha'
          cases ha'
          exact absurd rfl he
    · rw [List.filterMap_cons_some hai] at h
      obtain ⟨l₁, ha, h⟩ := andThen_eq_ok.1 h
      rcases replayLoop_some (P := P) l extra order (hin tx hai) with ⟨l₂, ha', hloop⟩ |
        ⟨e, ha', -, -, -⟩ | ⟨l₂, ha', -⟩
      · rw [ha] at ha'
        cases ha'
        rw [hloop]
        refine replayLoop_of_places order extra h fun pre j post ho => ⟨(hp pre j post ho).1, ?_⟩
        intro y b hy hnone hb
        refine (hp pre j post ho).2 y b hy hnone ?_
        rw [List.filterMap_cons_some hai, Replay.all, Ledger.book_applyLedgerEffects ha,
          Option.bind_some]
        exact hb
      · rw [ha] at ha'
        cases ha'
      · rw [ha] at ha'
        cases ha'

/-! ## The rebuild of a state -/

/-- A rebuild that goes through takes the vertices it applies, one after the other. -/
theorem resolve_applyAll (hd : d.toGraph.WF)
    (h : d.resolveConflictsAndRebuildLedger P = (d', .ok ())) :
    d.baseline.applyAll P d'.applied = (d'.toLedger, .ok ()) := by
  obtain ⟨-, happ, -⟩ := resolve_ok hd h
  obtain ⟨l, extra, hr, rfl⟩ := replayLoop_of_resolve h
  rw [happ]
  exact replayLoop_applyAll _ hr

/-- The genesis vertex is never a conflict. -/
def GenesisSafe (d : KronDAG) : Prop :=
  ∀ id tx, d.isConflict id = true → d.vertices.lookup id = some tx → tx.isGenesis = false

theorem genesisSafe_resolve (hd : d.toGraph.WF)
    (h : d.resolveConflictsAndRebuildLedger P = (d', .ok ())) : d'.GenesisSafe := by
  intro id tx hid hl
  obtain ⟨-, -, hconf⟩ := resolve_ok hd h
  have hg := (d.resolve_frame (P := P)).1
  rw [h] at hg
  rw [hg] at hl
  unfold isConflict at hid
  rw [hconf, lookup_noteExtraLosers] at hid
  split_ifs at hid with hw hm
  · obtain ⟨⟨key, tx', hl', hgen, -⟩, -⟩ := (Graph.winnerOf_isSome hd id).1 hw
    rw [hl] at hl'
    cases hl'
    exact hgen
  · obtain ⟨tx', hmem, rfl⟩ := List.mem_map.1 hm
    have hrep := ((Replay.mem_skipped hd.nodup_replayed).1 hmem).1
    have hr := hd.replayedAt_eq_some_iff.2 (hd.mem_replayed.1 hrep)
    obtain ⟨-, hl', hgen⟩ := Graph.replayedAt_eq_some.1 hr
    rw [hl] at hl'
    cases hl'
    exact hgen
  · cases hid

/-- Two states of one graph that apply the same vertices have the same conflicts. -/
theorem isConflict_eq_of_applied (hd : d.WF) (hd' : d'.WF) (hg : d'.toGraph = d.toGraph)
    (hs : d.GenesisSafe) (hs' : d'.GenesisSafe) (happ : d'.applied = d.applied) (id : TxHash) :
    d'.isConflict id = d.isConflict id := by
  have hstored : ∀ {c : KronDAG}, c.WF → c.GenesisSafe → c.toGraph = d.toGraph → ∀ tx,
      d.vertices.lookup id = some tx →
        (c.isConflict id = true ↔ tx.isGenesis = false ∧ tx ∉ c.applied) := by
    intro c hc hcs hcg tx hl
    obtain rfl := hd.graph.id_eq hl
    have hl' : c.vertices.lookup tx.id = some tx := by rw [hcg, hl]
    rw [mem_applied hc.graph]
    rcases hb : c.isConflict tx.id
    · simp [hl']
    · simp [hcs _ _ hb hl']
  rcases hl : d.vertices.lookup id with _ | tx
  · have hnone : ∀ {c : KronDAG}, c.WF → c.toGraph = d.toGraph → c.isConflict id = false :=
      fun hc hcg => hc.isConflict_of_not_contains (by rw [hcg, Graph.contains_eq_false, hl])
    rw [hnone hd rfl, hnone hd' hg]
  · rw [Bool.eq_iff_iff, hstored hd hs rfl tx hl, hstored hd' hs' hg tx hl, happ]

/-- What a rebuild of `d` is asked to leave alone. -/
structure Unchanged (d d' : KronDAG) : Prop where
  balance : ∀ a, d'.balance a = d.balance a
  supply : d'.currentSupply = d.currentSupply
  count : d'.dagTxCount = d.dagTxCount
  conflicts : ∀ id, d'.isConflict id = d.isConflict id

/-- What was applied still ranks first, what was refused and ranks first is still refused at its
place among the applied vertices, and a vertex of the protocol key is applied only behind one that
spends its nonce zero. -/
structure Settled (P : Primitives) (d : KronDAG) : Prop where
  ranked : ∀ tx ∈ d.applied, d.Top tx.id
  refused : ∀ pre id post tx b, d.attachOrder = pre ++ id :: post →
    d.vertices.lookup id = some tx → d.isConflict id = true → d.Top id →
    Replay.all (Book.apply P) d.baseBook (pre.filterMap d.appliedAt) = some b → b.Refuses tx
  key : ∀ tx ∈ d.applied, tx.sender = genesisKey P →
    ∃ tx' ∈ d.applied, tx'.sender = genesisKey P ∧ tx'.nonce = 0

/-- The ledger is what the applied vertices made of the faucet, one after the other, or of the
faucet with a nonce of the protocol key used. -/
structure Incremental (P : Primitives) (d : KronDAG) : Prop extends d.WF where
  genesisSafe : d.GenesisSafe
  replay : ∃ l, l.applyAll P d.applied = (d.toLedger, .ok ()) ∧
    (l = d.baseline ∨ l.book.EqOff (genesisKey P) d.baseBook ∧ 0 < l.nextNonce.get (genesisKey P))

/-- Behind the applied vertices the ledger comes out as it is, but for a nonce of the protocol key,
unless that key has spent from the nonce of the genesis vertex. -/
theorem Incremental.applyAll_baseline (h : d.Incremental P)
    (hkey : ∀ tx ∈ d.applied, tx.sender = genesisKey P →
      ∃ tx' ∈ d.applied, tx'.sender = genesisKey P ∧ tx'.nonce = 0) :
    ∃ l, d.baseline.applyAll P d.applied = (l, .ok ()) ∧ d.book.EqOff (genesisKey P) l.book := by
  obtain ⟨l, hall, rfl | ⟨heq, hpos⟩⟩ := h.replay
  · exact ⟨_, hall, rfl, fun _ _ => rfl, rfl, rfl, rfl⟩
  · have hnz := (Book.nonce_ne_zero_of_all d.applied hpos (Ledger.book_applyAll _ hall)).2
    refine Ledger.applyAll_eqOff d.applied heq (fun tx htx hs => ?_) hall
    obtain ⟨tx', htx', hs', hzero⟩ := hkey tx htx hs
    exact hnz tx' htx' hs' hzero

/-- In a rebuild that goes through, what is due at its place is of a cost in a word. -/
theorem cost_le_of_resolve (hres : d.resolveConflictsAndRebuildLedger P = (d', .ok ()))
    {pre post : List TxHash} {id : TxHash} {tx : DagTransaction}
    (ho : d.attachOrder = pre ++ id :: post) (hrep : d.replayedAt id = some tx)
    (hn : tx.nonce.toNat = (Replay.greedy (Book.apply P) d.baseBook
      (pre.filterMap d.replayedAt)).nonce tx.sender) : tx.cost ≤ u64Max := by
  by_contra hcost
  obtain ⟨l, extra, hr, -⟩ := replayLoop_of_resolve hres
  exact replayLoop_due _ hr pre id post ho tx hrep (not_le.1 hcost) hn

/-- A rebuild that leaves the node alone finds it settled. -/
theorem settled_of_unchanged (hd : d.toGraph.WF)
    (hres : d.resolveConflictsAndRebuildLedger P = (d', .ok ())) (hun : d.Unchanged d') :
    d.Settled P := by
  obtain ⟨hbook, happ, -⟩ := resolve_ok hd hres
  have hg := (d.resolve_frame (P := P)).1
  rw [hres] at hg
  have hsame : d'.applied = d.applied := by
    unfold applied appliedAt
    rw [hg]
    refine List.filterMap_congr fun id _ => ?_
    rw [hun.conflicts]
  rw [happ] at hsame
  have hall : Replay.all (Book.apply P) d.baseBook d.applied = some d'.book := by
    rw [← hsame, hbook]
    exact Replay.all_kept _ _
  have hp := (kept_eq_applied_iff hd hd (fun h => h) d.attachOrder hd.nodup hall).1 hsame
  refine ⟨fun tx htx => ?_, fun pre id post tx b ho hl hconf htop hb => ?_, fun tx htx hs => ?_⟩
  · have ha := appliedAt_eq_some.2 ((mem_applied hd).1 htx)
    obtain ⟨pre, post, ho⟩ := hd.split_order (appliedAt_eq_some.1 ha).2.1
    exact (hd.replayedAt_eq_some_iff.1 ((hp pre tx.id post ho).1 tx ha)).1
  · have hrep := hd.replayedAt_eq_some_iff.2 ⟨htop, hl⟩
    have hnone : d.appliedAt id = none := if_pos hconf
    have happly := (hp pre id post ho).2 tx b hrep hnone hb
    by_cases hn : tx.nonce.toNat = b.nonce tx.sender
    case neg => exact .inl hn
    refine .inr ⟨cost_le_of_resolve hres ho hrep ?_, ?_⟩
    · -- the replay of the places in front ends in `b`
      have hpre : pre.Nodup := by
        have hnd := hd.nodup
        rw [ho, List.nodup_append] at hnd
        exact hnd.1
      have hkpre := (kept_eq_applied_iff hd hd (fun h => h) pre hpre hb).2 fun pre' j post' ho' =>
        hp pre' j (post' ++ id :: post) (by rw [ho, ho', List.append_assoc]; rfl)
      have hgreedy : Replay.all (Book.apply P) d.baseBook
          (Replay.kept (Book.apply P) d.baseBook (pre.filterMap d.replayedAt)) = _ :=
        Replay.all_kept _ _
      rw [hkpre, hb] at hgreedy
      rw [← Option.some.inj hgreedy]
      exact hn
    · by_contra hbal
      rw [Book.apply, if_pos ⟨hn, not_lt.1 hbal⟩] at happly
      cases happly
  · exact Book.exists_nonce_zero_of_all d.applied rfl hall ⟨tx, htx, hs⟩

/-- At every place of a settled node, what is applied is replayed, and what else is replayed there
is refused. -/
theorem Settled.places (hset : d.Settled P) (hd : d.toGraph.WF) {pre post : List TxHash}
    {id : TxHash} (ho : d.attachOrder = pre ++ id :: post) :
    (∀ tx, d.appliedAt id = some tx → d.replayedAt id = some tx) ∧
      ∀ tx b, d.replayedAt id = some tx → d.appliedAt id = none →
        Replay.all (Book.apply P) d.baseBook (pre.filterMap d.appliedAt) = some b →
          b.Refuses tx := by
  refine ⟨fun tx ha => ?_, fun tx b hr hnone hb => ?_⟩
  · obtain ⟨hc, hlook, hgen⟩ := appliedAt_eq_some.1 ha
    obtain rfl := hd.id_eq hlook
    exact hd.replayedAt_eq_some_iff.2
      ⟨hset.ranked tx ((mem_applied hd).2 ⟨hc, hlook, hgen⟩), hlook⟩
  · obtain ⟨-, hlook, hgen⟩ := Graph.replayedAt_eq_some.1 hr
    exact hset.refused pre id post tx b ho hlook (isConflict_of_appliedAt_eq_none hlook hgen hnone)
      (hd.replayedAt_eq_some_iff.1 hr).1 hb

/-- A rebuild goes through and leaves the node alone exactly when the node is settled. -/
theorem rebuild_agrees_iff (h : d.Incremental P) :
    (∃ d', d.resolveConflictsAndRebuildLedger P = (d', .ok ()) ∧ d.Unchanged d') ↔
      d.Settled P := by
  have hd := h.graph
  refine ⟨fun ⟨d', hres, hun⟩ => settled_of_unchanged hd hres hun, fun hset => ?_⟩
  obtain ⟨l, hl, heq⟩ := h.applyAll_baseline hset.key
  obtain ⟨extra, hloop⟩ :=
    replayLoop_of_places d.attachOrder [] hl fun pre id post ho => hset.places hd ho
  have hres := resolve_of_replayLoop hloop
  refine ⟨_, hres, ?_⟩
  obtain ⟨-, happ, -⟩ := resolve_ok hd hres
  have hkept := (kept_eq_applied_iff hd hd (fun h => h) d.attachOrder hd.nodup
    (Ledger.book_applyAll _ hl)).2 fun pre id post ho =>
      ⟨(hset.places hd ho).1, fun tx b hr hnone hb =>
        Book.apply_of_refuses ((hset.places hd ho).2 tx b hr hnone hb)⟩
  refine ⟨fun a => (congrFun heq.balance a).symm, heq.supply.symm, heq.count.symm, fun id => ?_⟩
  exact isConflict_eq_of_applied h.toWF (WF_resolve hd hres) rfl h.genesisSafe
    (genesisSafe_resolve hd hres) (happ.trans hkept) id

/-! ## Credits and accepted vertices -/

/-- What a node is before the first vertex: nothing is applied, and the ledger is the faucet, with
the nonce of the genesis vertex used. -/
structure Fresh (P : Primitives) (d : KronDAG) : Prop extends d.WF where
  genesisSafe : d.GenesisSafe
  applied : d.applied = []
  book : d.book.EqOff (genesisKey P) d.baseBook
  key : 0 < d.nextNonce.get (genesisKey P)

theorem fresh_withGenesis (h : withGenesis P = some d) : d.Fresh P := by
  have hexp := explained_withGenesis h
  have happ := applied_withGenesis h
  obtain ⟨b, hall, heq⟩ := hexp.replay
  rw [happ] at hall
  cases hall
  refine ⟨hexp.toWF, fun id tx hid => ?_, happ, heq, ?_⟩
  · obtain ⟨g, -, -, -, rfl⟩ := withGenesis_eq h
    cases hid
  · obtain ⟨g, hsig, -, -, rfl⟩ := withGenesis_eq h
    have hkey : g.sender = genesisKey P := (DagTransaction.assemble_fields hsig).2.2.1
    change 0 < Tally.get (Ledger.empty.nextNonce.set g.sender _) (genesisKey P)
    have hzero : Ledger.empty.nextNonce.get (genesisKey P) = 0 := rfl
    rw [hkey, Tally.get_set_self, hzero]
    decide

theorem Fresh.credit (h : d.Fresh P) (a : Address) (n : ℕ) : (d.creditAccount a n).Fresh P := by
  obtain ⟨hg, hc⟩ := d.creditAccount_frame a n
  have hconf : ∀ id, (d.creditAccount a n).isConflict id = d.isConflict id := by
    intro id
    unfold isConflict
    rw [hc]
  refine ⟨⟨hg ▸ h.graph, fun {id} hid => ?_⟩, fun id tx hid hl => ?_, ?_, ?_, ?_⟩
  · rw [hg]
    exact h.conflicts (hconf id ▸ hid)
  · rw [hg] at hl
    exact h.genesisSafe id tx (hconf id ▸ hid) hl
  · rw [applied_congr hg hc]
    exact h.applied
  · have hbal : ∀ x, d.balance x = d.faucet.get x := fun x => congrFun h.book.balance x
    unfold creditAccount
    split_ifs
    · exact h.book
    · refine ⟨funext fun x => ?_, h.book.nonce, h.book.relayCredit, h.book.supply, h.book.count⟩
      change Tally.get (d.balances.set a _) x = Tally.get (d.faucet.set a _) x
      rw [Tally.get_set, Tally.get_set, hbal]
      split_ifs
      · rfl
      · exact hbal x
  · unfold creditAccount
    split_ifs <;> exact h.key

theorem Fresh.incremental (h : d.Fresh P) : d.Incremental P :=
  ⟨h.toWF, h.genesisSafe, d.toLedger, by rw [h.applied]; rfl, .inr ⟨h.book, h.key⟩⟩

/-- A vertex that is accepted without an overflow keeps the ledger incremental. -/
theorem Incremental.accept (h : d.Incremental P) (hok : CallOk P d (.accept tx)) :
    (exec P d (.accept tx)).Incremental P := by
  have hwf : (exec P d (.accept tx)).WF := by
    rcases exec_cases (P := P) d (.accept tx) with ⟨a, n, he, -⟩ | ⟨-, hs⟩
    · cases he
    · generalize exec P d (.accept tx) = d' at hs
      induction hs with
      | refl => exact h.toWF
      | tail _ hs ih => exact wf_step hs ih
  rcases exec_cases_of_callOk h.graph hok with he | ⟨a, n, he, -⟩ | ⟨tx', new, hcheck, hs, he⟩ |
    ⟨d₁, hd₁, hf, he⟩
  · rwa [he]
  · cases he
  · obtain ⟨hg, hf, hc⟩ := d.attached_frame tx' new (tx'.provenRelayNodes P)
    have happ := applied_attached h.toWF hcheck new (tx'.provenRelayNodes P)
    rw [he] at hg hf hc happ
    refine ⟨hwf, fun id y hid hl => ?_, ?_⟩
    · unfold isConflict at hid
      rw [hc] at hid
      rw [hg] at hl
      rcases Graph.lookup_insertVertex_cases hl with ⟨-, rfl⟩ | ⟨-, hl⟩
      · exact h.graph.not_isGenesis hcheck
      · exact h.genesisSafe id y hid hl
    · obtain ⟨l, hall, hl⟩ := h.replay
      have htake := applyLedgerEffects_of_attached (h.graph.not_isGenesis hcheck) hs he
      have hbase : (exec P d (.accept tx)).baseline = d.baseline := by
        unfold baseline
        rw [hf]
      refine ⟨l, by rw [happ]; exact Ledger.applyAll_concat d.applied hall htake, ?_⟩
      unfold baseBook at hl ⊢
      rwa [hbase]
  · have hf' := (d₁.resolve_frame (P := P)).2
    rw [he] at hf'
    have hbase : (exec P d (.accept tx)).baseline = d₁.baseline := by
      unfold baseline
      rw [hf']
    exact ⟨hwf, genesisSafe_resolve hd₁ he, _, resolve_applyAll hd₁ he, .inl hbase.symm⟩

end KronDAG

section Runs

variable {P : Primitives} {d : KronDAG}

/-- Faucet credits, and then vertices that are accepted. -/
def creditOps (credits : List (Address × UInt64)) : List Op :=
  credits.map fun c => .credit c.1 c.2

theorem fresh_creditOps (h : KronDAG.withGenesis P = some d) (credits : List (Address × UInt64)) :
    (run P d (creditOps credits)).Fresh P := by
  induction credits using List.reverseRecOn with
  | nil => exact KronDAG.fresh_withGenesis h
  | append_singleton credits c ih =>
    unfold creditOps at ih ⊢
    rw [List.map_append, List.map_singleton, run_concat]
    exact ih.credit c.1 c.2.toNat

theorem incremental_run (h : KronDAG.withGenesis P = some d) (credits : List (Address × UInt64))
    (txs : List DagTransaction)
    (hok : CallsOk P (run P d (creditOps credits)) (txs.map .accept)) :
    (run P d (creditOps credits ++ txs.map .accept)).Incremental P := by
  induction txs using List.reverseRecOn with
  | nil =>
    rw [List.map_nil, List.append_nil]
    exact (fresh_creditOps h credits).incremental
  | append_singleton txs tx ih =>
    rw [List.map_append, List.map_singleton, callsOk_concat] at hok
    rw [List.map_append, List.map_singleton, ← List.append_assoc, run_concat]
    refine (ih hok.1).accept ?_
    rw [run_append]
    exact hok.2

/-- After faucet credits and any number of vertices accepted without an overflow, a rebuild goes
through and changes no balance, neither supply nor count, and no conflict, exactly when the node is
settled. -/
theorem rebuild_agrees_run_iff (h : KronDAG.withGenesis P = some d)
    (credits : List (Address × UInt64)) (txs : List DagTransaction)
    (hok : CallsOk P (run P d (creditOps credits)) (txs.map .accept)) {s : KronDAG}
    (hs : run P d (creditOps credits ++ txs.map .accept) = s) :
    (∃ s', s.resolveConflictsAndRebuildLedger P = (s', .ok ()) ∧ s.Unchanged s') ↔
      s.Settled P := by
  subst hs
  exact KronDAG.rebuild_agrees_iff (incremental_run h credits txs hok)

namespace StandIn

theorem spends_forkDag : forkDag.Spends firstTransfer.id (address 1, 0)
    ∧ forkDag.Spends rivalTransfer.id (address 1, 0) := by
  have hlook := lookup_acceptPair isTransfer_fork (d := fundedDag 1 1000000) (by decide)
  exact ⟨⟨firstTransfer, hlook _, by decide, rfl⟩, rivalTransfer, hlook _, by decide, rfl⟩

/-- The applied one of the two rivals ranks first. -/
theorem settled_forkDag : forkDag.Settled primitives := by
  have happlied : ∀ tx ∈ forkDag.applied, tx.id = rivalTransfer.id
      ∧ tx.sender ≠ addressOf genesisSeed := by
    decide
  have hconflicts : forkDag.attachOrder.filter forkDag.isConflict = [firstTransfer.id] := by
    decide
  have hrank : forkDag.RankLE firstTransfer.id rivalTransfer.id
      ∧ ¬ forkDag.RankLE rivalTransfer.id firstTransfer.id := by
    decide
  refine ⟨fun tx htx => ?_, fun pre id post tx b ho hl hconf htop _ => ?_, fun tx htx hs => ?_⟩
  · rw [(happlied tx htx).1]
    refine ⟨(address 1, 0), spends_forkDag.2, fun id hid => ?_⟩
    obtain ⟨y, hl, hgen, -⟩ := hid
    rcases lookup_forkDag hl with ⟨-, rfl⟩ | ⟨-, rfl⟩ | ⟨rfl, -⟩
    · exact hrank.1
    · exact Graph.RankLE.refl _
    · cases hgen
  · have hmem : id ∈ forkDag.attachOrder.filter forkDag.isConflict :=
      List.mem_filter.2 ⟨ho ▸ List.mem_append_right _ List.mem_cons_self, hconf⟩
    rw [hconflicts, List.mem_singleton] at hmem
    subst hmem
    obtain ⟨key, hkey, htop⟩ := htop
    rw [hkey.key_eq spends_forkDag.1] at htop
    exact absurd (htop _ spends_forkDag.2) hrank.2
  · rw [genesisKey, address_fromSeed] at hs
    exact absurd hs (happlied tx htx).2

end StandIn

open StandIn in
/-- Where the rival that ranks first is the one that was applied, a rebuild changes nothing. -/
theorem rebuild_agrees_run_iff_forkDag :
    ∃ s', forkDag.resolveConflictsAndRebuildLedger primitives = (s', .ok ())
      ∧ forkDag.Unchanged s' := by
  obtain ⟨hrun, hok⟩ := @run_transfers _ (fundedDag 1 1000000) isTransfer_fork (by decide)
  refine (rebuild_agrees_run_iff withGenesis_genesisDag [(address 1, 1000000)]
    [rivalTransfer, firstTransfer] hok ?_).2 settled_forkDag
  rw [run_append]
  exact hrun

namespace StandIn

/-- Two wallets with a faucet. -/
def twoFunded : KronDAG :=
  (genesisDag.creditAccount (address 1) 1000000).creditAccount (address 5) 1000000

/-- The rival is applied, the first transfer is stored behind it, and wallet 5 approves the first
transfer. -/
def raisedDag : KronDAG := acceptAll twoFunded [rivalTransfer, firstTransfer, orphanTransfer]

theorem run_raisedDag :
    run primitives twoFunded ([rivalTransfer, firstTransfer, orphanTransfer].map .accept)
        = raisedDag
      ∧ CallsOk primitives twoFunded ([rivalTransfer, firstTransfer, orphanTransfer].map .accept) :=
  run_transfers _ (List.forall_mem_cons.2 ⟨isTransfer_transfer .., List.forall_mem_cons.2
    ⟨isTransfer_transfer .., List.forall_mem_singleton.2 (isTransfer_transfer ..)⟩⟩) (by decide)

end StandIn

open StandIn in
/-- An attached vertex makes a stored one outrank its rival, and the next rebuild moves the funds.
-/
theorem rebuild_moves_balances :
    KronDAG.withGenesis primitives = some genesisDag
      ∧ CallsOk primitives (run primitives genesisDag
          (creditOps [(address 1, 1000000), (address 5, 1000000)]))
        ([rivalTransfer, firstTransfer, orphanTransfer].map .accept)
      ∧ run primitives genesisDag (creditOps [(address 1, 1000000), (address 5, 1000000)]
        ++ [rivalTransfer, firstTransfer, orphanTransfer].map .accept) = raisedDag
      ∧ (raisedDag.resolveConflictsAndRebuildLedger primitives).2 = .ok ()
      ∧ (raisedDag.balance (address 3) = 1000
        ∧ (raisedDag.resolveConflictsAndRebuildLedger primitives).1.balance (address 3) = 0)
      ∧ (raisedDag.isConflict rivalTransfer.id = false
        ∧ (raisedDag.resolveConflictsAndRebuildLedger primitives).1.isConflict rivalTransfer.id
          = true) := by
  obtain ⟨hrun, hok⟩ := run_raisedDag
  refine ⟨withGenesis_genesisDag, hok, ?_, ?_⟩
  · rw [run_append]
    exact hrun
  · refine ⟨?_, ⟨?_, ?_⟩, ?_, ?_⟩ <;> decide

end Runs

/-! ## The nonce of the genesis vertex -/

namespace Ledger

variable {P : Primitives} {l : Ledger} {tx : DagTransaction} {key : Address}

/-- A mint uses no nonce, also one that fails. -/
theorem nextNonce_mintConfirmedTx (l : Ledger) (fee : ℕ) (miner : Address)
    (relays : List Address) : (l.mintConfirmedTx fee miner relays).1.nextNonce = l.nextNonce := by
  have hb : KeepsBalance fun k => k.nextNonce = l.nextNonce := fun _ _ _ h _ => h
  have hr : KeepsRelayCredit relays fun k => k.nextNonce = l.nextNonce := fun _ _ _ _ h _ => h
  exact hb.mintConfirmedTx hr (fun _ _ h _ => h) (fun _ h _ => h) rfl fee miner

/-- Applying a vertex moves the nonce of its sender only, and only when that nonce is due. -/
theorem nextNonce_applyLedgerEffects (h : tx.sender = key → tx.nonce.toNat ≠ l.nextNonce.get key) :
    (l.applyLedgerEffects P tx).1.nextNonce.get key = l.nextNonce.get key := by
  unfold applyLedgerEffects
  rcases hs : l.checkSpend tx with e | new
  · rfl
  · have hdue : tx.nonce.toNat = l.nextNonce.get tx.sender := (checkSpend_ok hs).1.1
    have hne : key ≠ tx.sender := by
      rintro rfl
      exact h rfl hdue
    simp only [mapErr_fst, nextNonce_mintConfirmedTx]
    exact Tally.get_set_ne _ _ hne

end Ledger

/-- The call credits an account, or attaches its vertex. -/
def Attaches (P : Primitives) (d : KronDAG) : Op → Prop
  | .credit _ _ => True
  | .attach host tx device => (d.attachAndVerifyFor P host tx device).2 = .ok ()
  | _ => False

/-- Every call of the run does. -/
def AllAttach (P : Primitives) : KronDAG → List Op → Prop
  | _, [] => True
  | d, op :: ops => Attaches P d op ∧ AllAttach P (exec P d op) ops

namespace KronDAG

variable {P : Primitives} {d d' : KronDAG} {tx : DagTransaction}

/-- The protocol key has used a nonce, and no vertex behind the genesis vertex spends its first. -/
structure KeyUsed (P : Primitives) (d : KronDAG) : Prop where
  graph : d.toGraph.WF
  nonce : 0 < d.nextNonce.get (genesisKey P)
  vertices : ∀ {id tx}, d.vertices.lookup id = some tx → tx.isGenesis = false →
    tx.sender = genesisKey P → tx.nonce ≠ 0

theorem KeyUsed.exec (h : d.KeyUsed P) : ∀ {op : Op}, Attaches P d op → (exec P d op).KeyUsed P
  | .credit a n, _ => by
    obtain ⟨hg, -⟩ := d.creditAccount_frame a n.toNat
    rw [exec_credit]
    refine ⟨hg ▸ h.graph, ?_, fun {id tx} hl => h.vertices (by rw [← hg]; exact hl)⟩
    unfold creditAccount
    split_ifs <;> exact h.nonce
  | .attach host tx device, hok => by
    simp only [Attaches, KronMesh.exec] at hok ⊢
    rcases attachFor_cases (P := P) d host tx device with ⟨e, he⟩ | ⟨new, hcheck, hs, he⟩
    · rw [he] at hok
      cases hok
    obtain ⟨hg, -, -⟩ := d.attached_frame tx new (tx.provenRelayNodes P)
    have hgen := h.graph.not_isGenesis hcheck
    have hdue : tx.nonce.toNat = d.nextNonce.get tx.sender := (Ledger.checkSpend_ok hs).1.1
    rw [he]
    refine ⟨hg ▸ h.graph.insertVertex hcheck, ?_, fun {id y} hl hy hkey => ?_⟩
    · have hnonce : (d.attached tx new (tx.provenRelayNodes P)).1.nextNonce
          = (d.toLedger.moveSpend tx new).nextNonce := by
        unfold attached onLedger
        simp only [hgen, if_true, mapErr_fst, Ledger.nextNonce_mintConfirmedTx]
      rw [hnonce]
      change 0 < Tally.get (d.nextNonce.set tx.sender _) (genesisKey P)
      rw [Tally.get_set]
      split_ifs
      · exact lt_min (Nat.succ_pos _) (by decide)
      · exact h.nonce
    · rw [hg] at hl
      rcases Graph.lookup_insertVertex_cases hl with ⟨-, rfl⟩ | ⟨-, hl⟩
      · intro hzero
        have hpos := h.nonce
        rw [← hkey, ← hdue, hzero] at hpos
        exact absurd hpos (lt_irrefl _)
      · exact h.vertices hl hy hkey
  | .accept _, hok => hok.elim
  | .merge _ _, hok => hok.elim
  | .rebuild, hok => hok.elim

theorem KeyUsed.run : ∀ {ops : List Op} {d : KronDAG}, d.KeyUsed P → AllAttach P d ops →
    (run P d ops).KeyUsed P
  | [], _, h, _ => h
  | op :: ops, d, h, hok => by
    rw [run_cons]
    exact KeyUsed.run (h.exec hok.1) hok.2

theorem keyUsed_withGenesis (h : withGenesis P = some d) : d.KeyUsed P := by
  refine ⟨Graph.WF_withGenesis h, (fresh_withGenesis h).key, fun {id tx} hl hgen => ?_⟩
  obtain ⟨g, -, hg, -, rfl⟩ := withGenesis_eq h
  obtain ⟨-, rfl⟩ := Graph.lookup_insertVertex_empty hl
  rw [hg] at hgen
  cases hgen

/-- A rebuild starts the nonces at zero and leaves out the genesis vertex, so it takes no vertex of
the protocol key, whether it goes through or not. -/
theorem KeyUsed.resolve (h : d.KeyUsed P) :
    (d.resolveConflictsAndRebuildLedger P).1.nextNonce.get (genesisKey P) = 0 := by
  rw [d.resolve_toLedger]
  refine replayLoop_invariant (P := P) (fun _ l => l.nextNonce.get (genesisKey P) = 0)
    (fun _ _ hl => hl) (fun k id tx l hr hl => ?_) d.attachOrder 0 d.baseline [] rfl
  obtain ⟨-, hlook, hgen⟩ := Graph.replayedAt_eq_some.1 hr
  rw [Ledger.nextNonce_applyLedgerEffects, hl]
  intro hkey hzero
  rw [hl] at hzero
  exact h.vertices hlook hgen hkey (UInt64.toNat_inj.1 hzero)

end KronDAG

/-- After any credits and attached vertices the protocol key has used a nonce, and a rebuild takes
it back. -/
theorem genesis_nonce_lost {P : Primitives} {d : KronDAG} (h : KronDAG.withGenesis P = some d)
    (ops : List Op) (hops : AllAttach P d ops) :
    0 < (run P d ops).nextNonce.get (genesisKey P)
      ∧ ((run P d ops).resolveConflictsAndRebuildLedger P).1.nextNonce.get (genesisKey P) = 0 := by
  have hused := (KronDAG.keyUsed_withGenesis h).run hops
  exact ⟨hused.nonce, hused.resolve⟩

open StandIn in
theorem genesis_nonce_lost_credit :
    ((run primitives genesisDag [.credit (address 1) 1000000]).resolveConflictsAndRebuildLedger
      primitives).1.nextNonce.get (genesisKey primitives) = 0 :=
  (genesis_nonce_lost withGenesis_genesisDag [.credit (address 1) 1000000] ⟨trivial, trivial⟩).2

open StandIn in
/-- The nonce of the protocol key right after genesis, and after a rebuild. -/
theorem genesis_nonce_one_then_zero :
    KronDAG.withGenesis primitives = some genesisDag
      ∧ genesisDag.nextNonce.get (genesisKey primitives) = 1
      ∧ (genesisDag.resolveConflictsAndRebuildLedger primitives).2 = .ok ()
      ∧ (genesisDag.resolveConflictsAndRebuildLedger primitives).1.nextNonce.get
        (genesisKey primitives) = 0 := by
  have hkey : genesisKey primitives = addressOf genesisSeed := address_fromSeed _
  rw [hkey]
  refine ⟨withGenesis_genesisDag, ?_, ?_, ?_⟩ <;> decide

end KronMesh
