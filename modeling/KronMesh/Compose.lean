import KronMesh.Admission
import KronMesh.Backing

/-!
# A vertex that is composed

The walks that pick the parents end on tips, whatever the generator draws, and are kept apart where
there are two of them. So a vertex that a wallet composes names a tip, which no stored vertex does,
and merges two tips into one when there are two. If the wallet can pay for it, it is attached
(`compose_run`).
-/

namespace KronMesh

open Word Outcome

/-! ## The choice of the parents -/

namespace Graph

variable {P : Primitives} {start g : Graph} {c : Chance} {tx : DagTransaction}

theorem choose_eq_some {l : List TxHash} (h : l ≠ []) (rng : Rng) :
    ∃ x ∈ l, (rng.choose l).1 = some x := by
  have hlt : rng.head % l.length < l.length := Nat.mod_lt _ (List.length_pos_of_ne_nil h)
  exact ⟨_, List.getElem_mem hlt, List.getElem?_eq_getElem hlt⟩

theorem mem_of_ticketHolder {h : TxHash} : ∀ {kids : List TxHash} {ticket : ℕ},
    g.ticketHolder ticket kids = some h → h ∈ kids
  | kid :: kids, ticket, hh => by
    unfold ticketHolder at hh
    split_ifs at hh
    · cases hh
      exact List.mem_cons_self
    · exact List.mem_cons_of_mem _ (mem_of_ticketHolder hh)

/-- A pick is one of the children, if there is any. -/
theorem pickWeightedChild_cases (c : Chance) (g : Graph) (parent : TxHash) (rng : Rng) :
    g.childrenOf parent = [] ∧ (g.pickWeightedChild c parent rng).1 = none ∨
      ∃ kid ∈ g.childrenOf parent, (g.pickWeightedChild c parent rng).1 = some kid := by
  unfold pickWeightedChild childrenOf
  rcases g.children.lookup parent with _ | kids
  · exact .inl ⟨rfl, rfl⟩
  simp only [Option.getD_some]
  rcases hkids : c.iter kids with _ | ⟨kid, rest⟩
  · have hperm := c.perm kids
    rw [hkids] at hperm
    exact .inl ⟨hperm.symm.eq_nil, rfl⟩
  · have hmem : ∀ {h}, h ∈ kid :: rest → h ∈ kids := fun hm =>
      (c.perm kids).mem_iff.1 (hkids ▸ hm)
    refine .inr ?_
    simp only [List.isEmpty_cons, Bool.false_eq_true, if_false, List.head?_cons]
    split_ifs
    · exact ⟨kid, hmem List.mem_cons_self, rfl⟩
    · rcases ht : g.ticketHolder (rng.genRange _).1 (kid :: rest) with _ | h
      · exact ⟨kid, hmem List.mem_cons_self, rfl⟩
      · exact ⟨h, hmem (mem_of_ticketHolder ht), rfl⟩

/-- A walk along the children ends where there are none, or on a tip that is drawn. -/
theorem Grown.walkFrom_mem_tips (hg : g.Grown P start) (c : Chance) :
    ∀ (steps : ℕ) {current : TxHash} (rng : Rng), g.contains current = true →
      (g.walkFrom c steps current rng).1 ∈ g.tips
  | 0, current, rng, _ => by
    have hne : c.iter g.tips ≠ [] := fun h =>
      hg.indexed.tips_ne_nil hg.wf ((h ▸ c.perm g.tips).symm.eq_nil)
    obtain ⟨tip, htip, he⟩ := choose_eq_some hne rng
    have hend : (g.walkFrom c 0 current rng).1 = tip := by
      unfold walkFrom
      simp only [he, Option.getD_some]
    rw [hend]
    exact (c.perm g.tips).mem_iff.1 htip
  | steps + 1, current, rng, hc => by
    unfold walkFrom
    rcases pickWeightedChild_cases c g current rng with ⟨hnil, hnone⟩ | ⟨kid, hkid, hsome⟩
    · rcases hp : g.pickWeightedChild c current rng with ⟨_ | kid, rng'⟩
      · exact (hg.indexed.tips current).2 ⟨hc, hnil⟩
      · rw [hp] at hnone
        cases hnone
    · rcases hp : g.pickWeightedChild c current rng with ⟨_ | kid', rng'⟩
      · rw [hp] at hsome
        cases hsome
      · rw [hp] at hsome
        cases hsome
        obtain ⟨tx, hl, -⟩ := (hg.indexed.children current kid).1 hkid
        exact hg.walkFrom_mem_tips c steps rng' (contains_iff.2 ⟨tx, hl⟩)

theorem Grown.walkToTip_mem_tips (hg : g.Grown P start) (c : Chance) (rng : Rng) :
    (g.walkToTip c rng).1 ∈ g.tips := by
  unfold walkToTip
  rw [if_pos hg.contains_genesis]
  exact hg.walkFrom_mem_tips c tipWalkBound rng hg.contains_genesis

/-- What the choice of the parents comes to: two distinct tips where there are two, else the tip
and the genesis vertex. -/
structure Parents (g : Graph) (p : TxHash × TxHash) : Prop where
  stored : g.contains p.1 = true ∧ g.contains p.2 = true
  first : p.1 ∈ g.tips
  distinct : 2 ≤ g.tips.length → p.2 ∈ g.tips ∧ p.1 ≠ p.2
  only : ∀ tip, g.tips = [tip] → p = (tip, g.genesisIdOr)

/-- Two distinct tips are such a choice. -/
theorem Grown.parents_of_tips (hg : g.Grown P start) {p : TxHash × TxHash} (h1 : p.1 ∈ g.tips)
    (h2 : p.2 ∈ g.tips) (hne : p.1 ≠ p.2) : g.Parents p :=
  ⟨⟨((hg.indexed.tips _).1 h1).1, ((hg.indexed.tips _).1 h2).1⟩, h1, fun _ => ⟨h2, hne⟩,
    fun tip htip => by
      rw [htip, List.mem_singleton] at h1 h2
      exact absurd (h1.trans h2.symm) hne⟩

/-- The only tip is one with the genesis vertex. -/
theorem Grown.parents_of_only (hg : g.Grown P start) {tip : TxHash} (htips : g.tips = [tip]) :
    g.Parents (tip, g.genesisIdOr) := by
  have hmem : tip ∈ g.tips := htips ▸ List.mem_cons_self
  refine ⟨⟨((hg.indexed.tips _).1 hmem).1, hg.contains_genesis⟩, hmem, fun h => ?_, fun t ht => ?_⟩
  · rw [htips] at h
    exact absurd h (by simp)
  · rw [htips] at ht
    cases ht
    rfl

theorem Grown.selectParents (hg : g.Grown P start) (c : Chance) :
    g.Parents (g.selectParents c) := by
  have hnd := hg.tips_nodup
  unfold Graph.selectParents
  rcases htips : g.tips with _ | ⟨tip, _ | ⟨tip', rest⟩⟩
  · exact absurd htips (hg.indexed.tips_ne_nil hg.wf)
  · have hpair : (if tip = g.genesisIdOr then (tip, tip) else (tip, g.genesisIdOr))
        = (tip, g.genesisIdOr) := by
      split_ifs with h
      · rw [h]
      · rfl
    simp only [hpair]
    exact hg.parents_of_only htips
  · simp only []
    have h1 := hg.walkToTip_mem_tips c c.rng
    have h2 := hg.walkToTip_mem_tips c (g.walkToTip c c.rng).2
    generalize (g.walkToTip c (g.walkToTip c c.rng).2).1 = p2 at h2 ⊢
    generalize (g.walkToTip c c.rng).1 = p1 at h1 ⊢
    split_ifs with heq
    · -- the walks met; of two tips one is another
      obtain ⟨t, ht, hne⟩ : ∃ t ∈ c.iter g.tips, t ≠ p1 := by
        rw [htips] at hnd
        have hdiff : tip ≠ tip' := fun h =>
          (List.nodup_cons.1 hnd).1 (h ▸ List.mem_cons_self)
        by_cases h : tip = p1
        · exact ⟨tip', (c.perm g.tips).mem_iff.2 (by simp [htips]), h ▸ hdiff.symm⟩
        · exact ⟨tip, (c.perm g.tips).mem_iff.2 (by simp [htips]), h⟩
      rcases hf : (c.iter g.tips).find? (· ≠ p1) with _ | other
      · rw [List.find?_eq_none] at hf
        exact absurd (decide_eq_true hne) (hf t ht)
      · have hother : other ≠ p1 := by simpa using List.find?_some hf
        rw [← htips, hf]
        exact hg.parents_of_tips h1 ((c.perm g.tips).mem_iff.1 (List.mem_of_find?_eq_some hf))
          hother.symm
    · exact hg.parents_of_tips h1 h2 heq

/-! ## What a composed vertex does to the tips -/

/-- A vertex that names two stored vertices takes their place among the tips. -/
theorem Grown.perm_tips_insertVertex (hg : g.Grown P start) (hcheck : g.checkVertex P tx = .ok ()) :
    (g.insertVertex tx).tips.Perm (tx.id :: (g.tips.erase tx.parent1).erase tx.parent2) := by
  obtain ⟨hsound, hself⟩ := hg.wf.sound hcheck
  have hparents : ∀ id, id ∈ tx.parents ↔ tx.parent1 = id ∨ tx.parent2 = id := by
    intro id
    rw [mem_parents]
    refine and_iff_right_of_imp ?_
    rintro (rfl | rfl)
    · exact hsound.parents.1
    · exact hsound.parents.2
  have hnew : tx.id ∉ g.tips := fun h => by
    have hc := ((hg.indexed.tips _).1 h).1
    rw [not_contains_of_checkVertex hcheck] at hc
    cases hc
  have hnd := hg.tips_nodup.erase tx.parent1
  refine (List.perm_ext_iff_of_nodup (nodup_tips_insertVertex hg.tips_nodup) ?_).2 fun id => ?_
  · refine List.nodup_cons.2 ⟨fun h => ?_, hnd.erase _⟩
    exact hnew (List.mem_of_mem_erase (List.mem_of_mem_erase h))
  · rw [mem_tips_insertVertex, List.mem_cons, hnd.mem_erase_iff, hg.tips_nodup.mem_erase_iff,
      hparents]
    rw [hparents] at hself
    grind

/-- Naming two tips merges them, and naming the only one replaces it. -/
theorem Parents.length_tips (hg : g.Grown P start) (hcheck : g.checkVertex P tx = .ok ())
    (h : g.Parents (tx.parent1, tx.parent2)) :
    (g.insertVertex tx).tips.length ≤ g.tips.length
      ∧ (2 ≤ g.tips.length → (g.insertVertex tx).tips.length + 1 = g.tips.length) := by
  have h1 := List.length_erase_of_mem h.first
  have hpos : 0 < g.tips.length := List.length_pos_of_mem h.first
  have h2 : ((g.tips.erase tx.parent1).erase tx.parent2).length
      ≤ (g.tips.erase tx.parent1).length := List.length_erase_le
  rw [(hg.perm_tips_insertVertex hcheck).length_eq, List.length_cons]
  refine ⟨by simp only [] at h1 h2; omega, fun htwo => ?_⟩
  obtain ⟨hmem, hne⟩ := h.distinct htwo
  have hmem' : tx.parent2 ∈ g.tips.erase tx.parent1 :=
    (hg.tips_nodup.mem_erase_iff).2 ⟨Ne.symm hne, hmem⟩
  rw [List.length_erase_of_mem hmem']
  simp only [] at h1
  omega

/-- Every vertex is stored under the hash of what it signs, and none under the dummy parent. -/
def Addressed (P : Primitives) (g : Graph) : Prop :=
  ∀ x v, g.vertices.lookup x = some v →
    x = DagTransaction.computeId P v.unsignedBytes ∧ x ≠ nullParent

/-- What is stored and signs something else than `tx` has another hash. -/
def NoCollision (P : Primitives) (g : Graph) (tx : DagTransaction) : Prop :=
  ∀ x v, g.vertices.lookup x = some v →
    DagTransaction.computeId P v.unsignedBytes = DagTransaction.computeId P tx.unsignedBytes →
      v.unsignedBytes = tx.unsignedBytes

theorem Addressed.ne_null (h : g.Addressed P) {x : TxHash} (hx : g.contains x = true) :
    x ≠ nullParent := by
  obtain ⟨v, hl⟩ := contains_iff.1 hx
  exact (h x v hl).2

theorem parent1_of_unsignedBytes {tx' : DagTransaction}
    (h : tx.unsignedBytes = tx'.unsignedBytes) : tx.parent1 = tx'.parent1 := by
  have htake : ∀ t : DagTransaction, t.unsignedBytes.take 32 = hashBytes t.parent1 := by
    intro t
    unfold DagTransaction.unsignedBytes
    simp only [List.append_assoc]
    exact List.take_left' (length_hashBytes _)
  rw [← hashOfBytes_hashBytes tx.parent1, ← htake, h, htake, hashOfBytes_hashBytes]

/-- No stored vertex signs what names a tip, so one that bears its hash is new. -/
theorem Grown.lookup_of_tip (hg : g.Grown P start) (haddr : g.Addressed P)
    (hnew : g.NoCollision P tx) (hid : tx.BearsHash P) (htip : tx.parent1 ∈ g.tips) :
    g.vertices.lookup tx.id = none := by
  rcases hl : g.vertices.lookup tx.id with _ | v
  · rfl
  have hparent : v.parent1 = tx.parent1 :=
    parent1_of_unsignedBytes (hnew _ v hl ((haddr _ v hl).1.symm.trans hid))
  obtain ⟨hc, hnil⟩ := (hg.indexed.tips _).1 htip
  have hkid : tx.id ∈ g.childrenOf tx.parent1 :=
    (hg.indexed.children _ _).2 ⟨v, hl, mem_parents.2 ⟨haddr.ne_null hc, .inl hparent⟩⟩
  rw [hnil] at hkid
  cases hkid

end Graph

/-! ## A vertex that is composed -/

namespace KronDAG

variable {P : Primitives} {start : Graph} {d : KronDAG} {c : Chance} {w : LatticeKeyPair}
  {recipient : Address} {amount nonce : UInt64} {p1 p2 : TxHash} {tx : DagTransaction}

/-- A wallet that signs makes a transfer of any parents. -/
theorem userTransfer_isOk (hw : w.Signs P) (p1 p2 : TxHash) (recipient : Address)
    (amount nonce : UInt64) :
    ∃ tx, DagTransaction.userTransfer P p1 p2 w recipient amount nonce = .ok tx := by
  unfold DagTransaction.userTransfer DagTransaction.assemble
  simp only []
  obtain ⟨sig, hsig⟩ := hw.signs (DagTransaction.refreshId P _).unsignedBytes
  rw [hsig]
  exact ⟨_, rfl⟩

/-- A transfer from two stored parents, the first a tip, is admitted. -/
theorem checkVertex_transfer (hg : d.toGraph.Grown P start) (haddr : d.Addressed P)
    (hw : w.Signs P) (hpar : d.Parents (p1, p2))
    (h : DagTransaction.userTransfer P p1 p2 w recipient amount nonce = .ok tx)
    (hnew : d.NoCollision P tx) : d.checkVertex P tx = .ok () := by
  obtain ⟨hp1, hp2, -, -, -, hfee, -⟩ := DagTransaction.assemble_fields h
  rw [← hp1, ← hp2] at hpar
  obtain ⟨⟨hc1, hc2⟩, htip, -, -⟩ := hpar
  have h1 := haddr.ne_null hc1
  have h2 := haddr.ne_null hc2
  have hgen : tx.isGenesis = false := by
    simp [DagTransaction.isGenesis, h1]
  obtain ⟨hsig, hrel⟩ := DagTransaction.assemble_verify h hw.verifies
  refine Graph.checkVertex_of (hg.lookup_of_tip haddr hnew (bearsHash_assemble h) htip) ?_ ?_ hsig
    hrel
  · unfold Graph.checkParents
    simp only [] at hc1 hc2
    simp [hgen, h1, h2, hc1, hc2]
  · rw [hfee, DagTransaction.requiredFee_of hgen]
    rfl

/-- A transfer of the next nonce is due, and covered by a balance of its amount and the fee. -/
theorem covers_transfer (hrange : d.toLedger.InRange)
    (h : DagTransaction.userTransfer P p1 p2 w recipient amount
      (UInt64.ofNat (d.nextNonce.get (w.pub.address P))) = .ok tx)
    (hbal : amount.toNat + fixedTransactionFee ≤ d.balance (w.pub.address P)) :
    d.toLedger.book.Covers tx := by
  obtain ⟨-, -, hsender, -, hamount, hfee, hnonce, -, -⟩ := DagTransaction.assemble_fields h
  have hn := hrange.nonce (w.pub.address P)
  constructor
  · rw [hnonce, hsender, UInt64.toNat_ofNat']
    exact Nat.mod_eq_of_lt (Nat.lt_of_le_of_lt hn (by decide))
  · rw [hsender, DagTransaction.cost, hamount, hfee]
    exact hbal

/-- A transfer that is admitted and that its wallet can pay for is attached. -/
theorem attached_transfer (hg : d.toGraph.Grown P start) (hback : d.Backed)
    (hF : d.faucetTotal + hardCap ≤ u64Max) (hrange : d.toLedger.InRange)
    (hn : d.dagTxCount + 1 ≤ u64Max) (hcheck : d.checkVertex P tx = .ok ())
    (h : DagTransaction.userTransfer P p1 p2 w recipient amount
      (UInt64.ofNat (d.nextNonce.get (w.pub.address P))) = .ok tx)
    (hbal : amount.toNat + fixedTransactionFee ≤ d.balance (w.pub.address P)) :
    ∃ new, d.checkSpend tx = .ok new ∧ (d.attached tx new []).2 = .ok ()
      ∧ d.attachVertexAndMaybeMint P tx true (tx.provenRelayNodes P) = d.attached tx new [] := by
  obtain ⟨new, hs⟩ := hback.ledger.checkSpend_isOk hF (covers_transfer hrange h hbal)
  obtain ⟨l', hmint⟩ := hback.ledger.mint_isOk hF hrange hn hs
  have hrel : tx.provenRelayNodes P = [] :=
    DagTransaction.provenRelayNodes_nil (DagTransaction.assemble_fields h).2.2.2.2.2.2.2.2
  refine ⟨new, hs, ?_, ?_⟩
  · unfold attached onLedger
    simp only [hg.wf.not_isGenesis hcheck, if_true, hmint, mapErr]
  · rw [hrel]
    rcases attach_cases (P := P) d tx [] with ⟨e, ha, -⟩ | ⟨e, -, hs', -⟩ | ⟨new', -, hs', he⟩
    · rw [hcheck] at ha
      cases ha
    · rw [hs] at hs'
      cases hs'
    · rw [hs] at hs'
      cases hs'
      exact he

/-- A composed vertex is a transfer from the parents that are picked. -/
theorem composeAndSign_of_selectParents (h : d.selectParents c = (p1, p2)) :
    d.composeAndSign P c w recipient amount = DagTransaction.userTransfer P p1 p2 w recipient amount
      (UInt64.ofNat (d.nextNonce.get (w.pub.address P))) := by
  unfold composeAndSign composeAndSignWithParents
  rw [h]

theorem composeAndSign_isOk (hw : w.Signs P) (c : Chance) (d : KronDAG) (recipient : Address)
    (amount : UInt64) : ∃ tx, d.composeAndSign P c w recipient amount = .ok tx :=
  userTransfer_isOk hw _ _ recipient amount _

theorem selectParents_composed (h : d.composeAndSign P c w recipient amount = .ok tx) :
    d.selectParents c = (tx.parent1, tx.parent2) := by
  obtain ⟨h1, h2, -⟩ := DagTransaction.assemble_fields h
  exact Prod.ext h1.symm h2.symm

/-- A composed vertex is admitted. -/
theorem checkVertex_composed (hg : d.toGraph.Grown P start) (haddr : d.Addressed P)
    (hw : w.Signs P) (h : d.composeAndSign P c w recipient amount = .ok tx)
    (hnew : d.NoCollision P tx) : d.checkVertex P tx = .ok () :=
  checkVertex_transfer hg haddr hw (hg.selectParents c) h hnew

/-- A composed vertex that its wallet can pay for is attached. -/
theorem attached_composed (hg : d.toGraph.Grown P start) (haddr : d.Addressed P)
    (hback : d.Backed) (hF : d.faucetTotal + hardCap ≤ u64Max) (hrange : d.toLedger.InRange)
    (hn : d.dagTxCount + 1 ≤ u64Max) (hw : w.Signs P)
    (h : d.composeAndSign P c w recipient amount = .ok tx) (hnew : d.NoCollision P tx)
    (hbal : amount.toNat + fixedTransactionFee ≤ d.balance (w.pub.address P)) :
    ∃ new, d.checkSpend tx = .ok new ∧ (d.attached tx new []).2 = .ok ()
      ∧ d.attachVertexAndMaybeMint P tx true (tx.provenRelayNodes P) = d.attached tx new [] :=
  attached_transfer hg hback hF hrange hn (checkVertex_composed hg haddr hw h hnew) h hbal

end KronDAG

section Run

variable {P : Primitives} {d : KronDAG}

open KronDAG

/-- In every state of a run the parents that are picked are stored; they are two distinct tips where
there are two, else the tip and the genesis vertex. And what a wallet composes and can pay for is
attached; it leaves no tip more, and one less where there were two. -/
theorem compose_run (h : withGenesis P = some d) (ops : List Op)
    (haddr : (run P d ops).Addressed P) (hF : (run P d ops).faucetTotal + hardCap ≤ u64Max)
    (hn : (run P d ops).vertexCount + 1 ≤ u64Max) {w : LatticeKeyPair} (hw : w.Signs P)
    (recipient : Address) {amount : UInt64}
    (hbal : amount.toNat + fixedTransactionFee ≤ (run P d ops).balance (w.pub.address P))
    (c : Chance) :
    (run P d ops).Parents ((run P d ops).selectParents c) ∧
      ∃ tx, (run P d ops).composeAndSign P c w recipient amount = .ok tx ∧
        ((run P d ops).NoCollision P tx →
          ∃ d', (run P d ops).attachAndVerifyTx P tx = (d', .ok ())
            ∧ d'.tips.length ≤ (run P d ops).tips.length
            ∧ (2 ≤ (run P d ops).tips.length →
              d'.tips.length + 1 = (run P d ops).tips.length)) := by
  have hg := grown_run h ops
  have hback := backed_run h ops hF
  have hpar := hg.selectParents c
  obtain ⟨tx, htx⟩ := composeAndSign_isOk hw c (run P d ops) recipient amount
  refine ⟨hpar, tx, htx, fun hnew => ?_⟩
  have hcount := hback.ledger.count
  obtain ⟨new, hs, hok, hatt⟩ := attached_composed hg haddr hback hF (inRange_run h ops).ledger
    (by omega) hw htx hnew hbal
  refine ⟨((run P d ops).attached tx new []).1, hatt.trans (Prod.ext rfl hok), ?_⟩
  rw [((run P d ops).attached_frame tx new []).1]
  rw [selectParents_composed htx] at hpar
  exact hpar.length_tips hg (checkVertex_composed hg haddr hw htx hnew)

section

open StandIn

theorem addressed_forkOps : (run primitives genesisDag forkOps).Addressed primitives := by
  intro x v hl
  rw [run_forkOps] at hl
  rcases lookup_forkDag hl with ⟨rfl, rfl⟩ | ⟨rfl, rfl⟩ | ⟨rfl, rfl⟩
  · exact ⟨id_firstTransfer, by decide⟩
  · exact ⟨id_rivalTransfer, by decide⟩
  · exact ⟨by decide, by decide⟩

/-- A vertex with a hash of its own collides with none of the three. -/
theorem noCollision_forkOps {tx : DagTransaction}
    (hid : DagTransaction.computeId primitives tx.unsignedBytes = tx.id)
    (hne : tx.id ≠ firstTransfer.id ∧ tx.id ≠ rivalTransfer.id ∧ tx.id ≠ genesisId) :
    (run primitives genesisDag forkOps).NoCollision primitives tx := by
  intro x v hl hcol
  rw [← (addressed_forkOps x v hl).1, hid] at hcol
  rw [run_forkOps] at hl
  rcases lookup_forkDag hl with ⟨-, rfl⟩ | ⟨-, rfl⟩ | ⟨-, rfl⟩
  · exact absurd hcol.symm hne.1
  · exact absurd hcol.symm hne.2.1
  · exact absurd hcol.symm hne.2.2

/-- The key of wallet 1. -/
def firstWallet : LatticeKeyPair := LatticeKeyPair.fromSeed primitives (BitVec.ofNat 256 1)

theorem address_firstWallet : firstWallet.pub.address primitives = address 1 := address_fromSeed _

/-- What wallet 1 composes on the fork: both tips are its parents. -/
def joinTransfer : DagTransaction :=
  transfer 7053320052611 1 12534660997154 12534542786466 (address 2) 1000 1

theorem id_joinTransfer :
    DagTransaction.computeId primitives joinTransfer.unsignedBytes = joinTransfer.id := by
  decide

theorem composeAndSign_forkOps : (run primitives genesisDag forkOps).composeAndSign primitives
    stillChance firstWallet (address 2) 1000 = .ok joinTransfer := by
  have hpar : forkDag.selectParents stillChance = (12534660997154, 12534542786466) := by
    decide
  have hnonce : UInt64.ofNat (forkDag.nextNonce.get (address 1)) = 1 := by
    decide
  rw [run_forkOps, KronDAG.composeAndSign_of_selectParents hpar, address_firstWallet, hnonce]
  exact userTransfer_eq 1 _ _ (address 2) 1000 1 id_joinTransfer

/-- On the two tips of a fork the wallet composes a vertex that leaves one. -/
theorem compose_run_forkOps : ∃ d',
    (run primitives genesisDag forkOps).attachAndVerifyTx primitives joinTransfer = (d', .ok ())
      ∧ d'.tips.length + 1 = 2 := by
  have hbal : (1000 : UInt64).toNat + fixedTransactionFee
      ≤ (run primitives genesisDag forkOps).balance (firstWallet.pub.address primitives) := by
    rw [run_forkOps, address_firstWallet]
    decide
  have hF : (run primitives genesisDag forkOps).faucetTotal + hardCap ≤ u64Max := by
    rw [run_forkOps]
    decide
  have hn : (run primitives genesisDag forkOps).vertexCount + 1 ≤ u64Max := by
    rw [run_forkOps]
    decide
  have htips : (run primitives genesisDag forkOps).tips.length = 2 := by
    rw [run_forkOps]
    decide
  have hw : firstWallet.Signs primitives := signs_fromSeed _
  obtain ⟨-, tx, htx, hatt⟩ := compose_run withGenesis_genesisDag forkOps addressed_forkOps hF hn hw
    (address 2) hbal stillChance
  obtain rfl : joinTransfer = tx := Except.ok.inj (composeAndSign_forkOps.symm.trans htx)
  obtain ⟨d', hd', -, hless⟩ := hatt (noCollision_forkOps id_joinTransfer (by decide))
  exact ⟨d', hd', htips ▸ hless htips.ge⟩

end

end Run

end KronMesh
