import KronMesh.Sync
import KronMesh.Book
import Mathlib.Logic.Relation

/-!
# Runs

The calls a node is driven by, and what one of them can do: whatever it is handed and whatever it
returns, a call is a faucet credit or a chain of the three steps of `Step` (`exec_cases`). Every
invariant of a run is a statement about one credit and about one step (`run_invariant`).
-/

namespace KronMesh

open Word Outcome

inductive Op
  | credit (address : Address) (amount : UInt64)
  | attach (host : Except ShieldError Unit) (tx : DagTransaction) (device : AttachingDevice)
  | accept (tx : DagTransaction)
  | merge (incomingTxs : List DagTransaction) (relayNodeId : Address)
  | rebuild

section

variable (P : Primitives)

/-- The state a call leaves, whatever it returns. -/
def exec (d : KronDAG) : Op → KronDAG
  | .credit address amount => d.creditAccount address amount.toNat
  | .attach host tx device => (d.attachAndVerifyFor P host tx device).1
  | .accept tx => (d.acceptWireVertex P tx).1
  | .merge incomingTxs relayNodeId => (d.mergeOfflineGraphs P incomingTxs relayNodeId).1
  | .rebuild => (d.resolveConflictsAndRebuildLedger P).1

def run (d : KronDAG) (ops : List Op) : KronDAG := ops.foldl (exec P) d

/-- What the calls credit in all. -/
def credited : List Op → ℕ
  | [] => 0
  | .credit _ amount :: ops => amount.toNat + credited ops
  | _ :: ops => credited ops

/-- What a vertex that is admitted and whose spend is checked makes of a node. -/
def KronDAG.attached (d : KronDAG) (tx : DagTransaction) (new : ℕ × ℕ) (relays : List Address) :
    Outcome KronDAG DagError :=
  let d' : KronDAG :=
    { d with toGraph := d.toGraph.insertVertex tx, toLedger := d.toLedger.moveSpend tx new }
  if tx.isGenesis = false then
    d'.onLedger (mapErr (d'.toLedger.mintConfirmedTx tx.fee.toNat tx.sender relays)
      Ledger.ofEconomic)
  else (d', .ok ())

/-- A vertex in the graph, with the ledger as it was. -/
abbrev KronDAG.stored (d : KronDAG) (tx : DagTransaction) : KronDAG :=
  { d with toGraph := d.toGraph.insertVertex tx }

/-- The three things that happen to a node, faucet credits apart. -/
inductive Step : KronDAG → KronDAG → Prop
  | attach (d : KronDAG) (tx : DagTransaction) (new : ℕ × ℕ) (hcheck : d.checkVertex P tx = .ok ())
      (hspend : d.checkSpend tx = .ok new) : Step d (d.attached tx new (tx.provenRelayNodes P)).1
  | store (d : KronDAG) (tx : DagTransaction) (relayOf : AList fun _ : TxHash => Address)
      (hcheck : d.checkVertex P tx = .ok ()) :
      Step d { d with toGraph := d.toGraph.insertVertex tx, relayOf := relayOf }
  | rebuild (d : KronDAG) : Step d (d.resolveConflictsAndRebuildLedger P).1

end

theorem run_nil (P : Primitives) (d : KronDAG) : run P d [] = d := rfl

theorem run_cons (P : Primitives) (d : KronDAG) (op : Op) (ops : List Op) :
    run P d (op :: ops) = run P (exec P d op) ops := rfl

theorem exec_credit (P : Primitives) (d : KronDAG) (a : Address) (n : UInt64) :
    exec P d (.credit a n) = d.creditAccount a n.toNat := rfl

theorem exec_accept (P : Primitives) (d : KronDAG) (tx : DagTransaction) :
    exec P d (.accept tx) = (d.acceptWireVertex P tx).1 := rfl

theorem exec_merge (P : Primitives) (d : KronDAG) (txs : List DagTransaction) (relay : Address) :
    exec P d (.merge txs relay) = (d.mergeOfflineGraphs P txs relay).1 := rfl

theorem run_append (P : Primitives) (d : KronDAG) (ops ops' : List Op) :
    run P d (ops ++ ops') = run P (run P d ops) ops' :=
  List.foldl_append

theorem run_concat (P : Primitives) (d : KronDAG) (ops : List Op) (op : Op) :
    run P d (ops ++ [op]) = exec P (run P d ops) op := by
  rw [run_append]
  rfl

theorem credited_append : ∀ ops ops', credited (ops ++ ops') = credited ops + credited ops'
  | [], ops' => (Nat.zero_add _).symm
  | .credit _ _ :: ops, ops' => by
    rw [List.cons_append, credited, credited, credited_append, Nat.add_assoc]
  | .attach .. :: ops, ops' => credited_append ops ops'
  | .accept _ :: ops, ops' => credited_append ops ops'
  | .merge .. :: ops, ops' => credited_append ops ops'
  | .rebuild :: ops, ops' => credited_append ops ops'

/-! ## Calls as steps -/

section Steps

variable {P : Primitives} {d d' : KronDAG} {tx : DagTransaction}

open Relation

/-- Everything attaching a vertex can do: refuse it, or put it in. -/
theorem attach_cases (d : KronDAG) (tx : DagTransaction) (relays : List Address) :
    (∃ e, d.checkVertex P tx = .error e
      ∧ d.attachVertexAndMaybeMint P tx true relays = (d, .error e)) ∨
    (∃ e, d.checkVertex P tx = .ok () ∧ d.checkSpend tx = .error e
      ∧ d.attachVertexAndMaybeMint P tx true relays = (d, .error e)) ∨
    (∃ new, d.checkVertex P tx = .ok () ∧ d.checkSpend tx = .ok new
      ∧ d.attachVertexAndMaybeMint P tx true relays = d.attached tx new relays) := by
  unfold KronDAG.attachVertexAndMaybeMint KronDAG.attached
  rcases ha : d.checkVertex P tx with e | ⟨⟨⟩⟩
  · exact .inl ⟨e, rfl, rfl⟩
  · rcases hs : d.checkSpend tx with e | new
    · exact .inr (.inl ⟨e, rfl, rfl, rfl⟩)
    · exact .inr (.inr ⟨new, rfl, rfl, by simp only [true_and]⟩)

/-- Everything attaching behind the check of the host can do. -/
theorem attachFor_cases (d : KronDAG) (host : Except ShieldError Unit) (tx : DagTransaction)
    (device : AttachingDevice) :
    (∃ e, d.attachAndVerifyFor P host tx device = (d, .error e)) ∨
    (∃ new, d.checkVertex P tx = .ok () ∧ d.checkSpend tx = .ok new
      ∧ d.attachAndVerifyFor P host tx device = d.attached tx new (tx.provenRelayNodes P)) := by
  unfold KronDAG.attachAndVerifyFor
  rcases device.admitHost host with e | ⟨⟨⟩⟩
  · exact .inl ⟨e, rfl⟩
  · rcases attach_cases (P := P) d tx (tx.provenRelayNodes P) with ⟨e, -, h⟩ | ⟨e, -, -, h⟩ | h
    · exact .inl ⟨e, h⟩
    · exact .inl ⟨e, h⟩
    · exact .inr h

theorem attach_steps (d : KronDAG) (tx : DagTransaction) :
    ReflTransGen (Step P) d (d.attachVertexAndMaybeMint P tx true (tx.provenRelayNodes P)).1 := by
  rcases attach_cases (P := P) d tx (tx.provenRelayNodes P) with ⟨e, -, h⟩ | ⟨e, -, -, h⟩ |
    ⟨new, ha, hs, h⟩
  · rw [h]
  · rw [h]
  · rw [h]
    exact ReflTransGen.single (.attach d tx new ha hs)

/-- Everything storing a vertex can do. -/
theorem insertGraphOnly_cases (d : KronDAG) (tx : DagTransaction) :
    (∃ e, d.checkVertex P tx = .error e ∧ d.insertGraphOnly P tx = (d, .error e)) ∨
    (d.checkVertex P tx = .ok ()
      ∧ d.insertGraphOnly P tx = ({ d with toGraph := d.toGraph.insertVertex tx }, .ok ())) := by
  unfold KronDAG.insertGraphOnly
  rcases ha : d.checkVertex P tx with e | ⟨⟨⟩⟩
  · exact .inl ⟨e, rfl, rfl⟩
  · exact .inr ⟨rfl, rfl⟩

theorem checkSpend_error {l : Ledger} {e : DagError} (h : l.checkSpend tx = .error e) :
    (∃ n, e = .doubleSpend n) ∨ e = .insufficientBalance ∨ e = .overflow := by
  rcases Ledger.checkSpend_cases l tx with ⟨-, h'⟩ | ⟨-, -, h'⟩ | ⟨-, -, -, h'⟩ |
    ⟨-, -, -, -, h'⟩ | ⟨-, -, new, h', -⟩
  case inr.inr.inr.inr =>
    rw [h'] at h
    cases h
  all_goals
    rw [h'] at h
    cases h
    simp

/-- An attached vertex fails in its mint only. -/
theorem attached_error {new : ℕ × ℕ} {relays : List Address} {e : DagError}
    (h : d.attached tx new relays = (d', .error e)) : e = .overflow := by
  unfold KronDAG.attached KronDAG.onLedger at h
  simp only [] at h
  split_ifs at h
  · rcases hm : (d.moveSpend tx new).mintConfirmedTx tx.fee.toNat tx.sender relays
      with ⟨l, ⟨⟩ | ⟨⟨⟩⟩⟩
    · rw [hm] at h
      cases h
      rfl
    · rw [hm] at h
      cases h
  · cases h

/-- A vertex is attached, or its mint overflows. -/
theorem attached_snd (new : ℕ × ℕ) (relays : List Address) :
    (d.attached tx new relays).2 = .ok () ∨ (d.attached tx new relays).2 = .error .overflow := by
  rcases hr : d.attached tx new relays with ⟨d₁, e | ⟨⟨⟩⟩⟩
  · rw [attached_error hr]
    exact .inr rfl
  · exact .inl rfl

/-- Everything accepting a vertex can do: nothing, attach it, or store it and rebuild. -/
theorem accept_cases (d : KronDAG) (tx : DagTransaction) :
    (d.contains tx.id = true ∧ d.acceptWireVertex P tx = (d, .ok false)) ∨
    (∃ e, (d.checkVertex P tx = .error e ∨ d.checkSpend tx = .error .overflow ∧ e = .overflow)
      ∧ d.acceptWireVertex P tx = (d, .error e)) ∨
    (∃ new, d.checkVertex P tx = .ok () ∧ d.checkSpend tx = .ok new
      ∧ d.acceptWireVertex P tx = ((d.attached tx new (tx.provenRelayNodes P)).1,
        (d.attached tx new (tx.provenRelayNodes P)).2.map fun _ => true)) ∨
    (∃ e, d.checkVertex P tx = .ok () ∧ d.checkSpend tx = .error e ∧ e ≠ .overflow
      ∧ d.acceptWireVertex P tx =
        let r := KronDAG.resolveConflictsAndRebuildLedger P
          { d with toGraph := d.toGraph.insertVertex tx }
        (r.1, r.2.map fun _ => true)) := by
  unfold KronDAG.acceptWireVertex
  rcases hc : d.contains tx.id
  case true => exact .inl ⟨rfl, rfl⟩
  refine .inr ?_
  have hdev : d.attachAndVerifyTx P tx
      = d.attachVertexAndMaybeMint P tx true (tx.provenRelayNodes P) := rfl
  rw [hdev]
  rcases attach_cases (P := P) d tx (tx.provenRelayNodes P) with ⟨e, ha, h⟩ | ⟨e, ha, hs, h⟩ |
    ⟨new, ha, hs, h⟩
  · obtain ⟨hd, hi, -, -⟩ := Graph.checkVertex_error ha
    rw [h]
    refine .inl ⟨e, .inl ha, ?_⟩
    cases e <;> first | rfl | exact absurd rfl (hd _) | exact absurd rfl hi
  · rw [h]
    have hins : d.insertGraphOnly P tx
        = ({ d with toGraph := d.toGraph.insertVertex tx }, .ok ()) := by
      unfold KronDAG.insertGraphOnly
      rw [ha]
    by_cases he : e = .overflow
    · subst he
      exact .inl ⟨.overflow, .inr ⟨hs, rfl⟩, rfl⟩
    · refine .inr (.inr ⟨e, ha, hs, he, ?_⟩)
      rcases checkSpend_error hs with ⟨n, rfl⟩ | rfl | rfl
      · simp only [Bool.false_eq_true, if_false, hins, andThen_ok]
      · simp only [Bool.false_eq_true, if_false, hins, andThen_ok]
      · exact absurd rfl he
  · rw [h]
    refine .inr (.inl ⟨new, ha, hs, ?_⟩)
    rcases hr : d.attached tx new (tx.provenRelayNodes P) with ⟨d', e | ⟨⟨⟩⟩⟩
    · rw [attached_error hr]
      rfl
    · rfl

/-- Accepting a vertex that is admitted, by what its spend comes to. -/
theorem accept_admitted (hcheck : d.checkVertex P tx = .ok ()) :
    d.acceptWireVertex P tx =
      match d.checkSpend tx with
      | .ok new => ((d.attached tx new (tx.provenRelayNodes P)).1,
          (d.attached tx new (tx.provenRelayNodes P)).2.map fun _ => true)
      | .error .overflow => (d, .error .overflow)
      | .error _ =>
        let r := KronDAG.resolveConflictsAndRebuildLedger P
          { d with toGraph := d.toGraph.insertVertex tx }
        (r.1, r.2.map fun _ => true) := by
  rcases accept_cases (P := P) d tx with ⟨hc, -⟩ | ⟨e, ha | ⟨hs, rfl⟩, he⟩ | ⟨new, -, hs, he⟩ |
    ⟨e, -, hs, hne, he⟩
  · rw [Graph.not_contains_of_checkVertex hcheck] at hc
    cases hc
  · rw [ha] at hcheck
    cases hcheck
  · rw [he, hs]
  · rw [he, hs]
  · rw [he, hs]
    cases e <;> first | rfl | exact absurd rfl hne

theorem accept_steps (d : KronDAG) (tx : DagTransaction) :
    ReflTransGen (Step P) d (d.acceptWireVertex P tx).1 := by
  rcases accept_cases (P := P) d tx with ⟨-, h⟩ | ⟨e, -, h⟩ | ⟨new, ha, hs, h⟩ | ⟨e, ha, -, -, h⟩
  · rw [h]
  · rw [h]
  · rw [h]
    exact ReflTransGen.single (.attach d tx new ha hs)
  · rw [h]
    exact (ReflTransGen.single (.store d tx d.relayOf ha)).tail (.rebuild _)

theorem mergeOne_steps (relay : Address) (d : KronDAG) (tx : DagTransaction) :
    ReflTransGen (Step P) d (KronDAG.mergeOne P relay d tx).1 := by
  unfold KronDAG.mergeOne
  by_cases hc : d.contains tx.id
  · rw [if_pos hc]
  rw [if_neg hc]
  rcases d.missingParent tx with _ | p
  · rcases insertGraphOnly_cases (P := P) d tx with ⟨e, -, h⟩ | ⟨ha, h⟩
    · rw [h]
      cases e <;> exact .refl
    · rw [h]
      simp only []
      split_ifs
      · exact ReflTransGen.single (.store d tx d.relayOf ha)
      · exact ReflTransGen.single (.store d tx (d.relayOf.insert tx.id relay) ha)
  · exact .refl

theorem mergeLoop_steps (relay : Address) : ∀ (txs : List DagTransaction) (d : KronDAG) (n : ℕ),
    ReflTransGen (Step P) d (KronDAG.mergeLoop P relay d n txs).1
  | [], _, _ => .refl
  | tx :: txs, d, n => by
    have h1 := mergeOne_steps (P := P) relay d tx
    unfold KronDAG.mergeLoop
    rcases hm : KronDAG.mergeOne P relay d tx with ⟨d', e | k⟩
    · rwa [hm] at h1
    · rw [hm] at h1
      exact h1.trans (mergeLoop_steps relay txs d' _)

theorem merge_steps (d : KronDAG) (txs : List DagTransaction) (relay : Address) :
    ReflTransGen (Step P) d (d.mergeOfflineGraphs P txs relay).1 := by
  unfold KronDAG.mergeOfflineGraphs
  rcases topoOrderIncoming d.toGraph txs with e | ordered
  · exact .refl
  · have h1 := mergeLoop_steps (P := P) relay ordered d 0
    simp only []
    rcases hm : KronDAG.mergeLoop P relay d 0 ordered with ⟨d', e | n⟩
    · rwa [hm] at h1
    · rw [hm] at h1
      have h2 := h1.tail (.rebuild d')
      simp only []
      split_ifs
      · rcases hr : d'.resolveConflictsAndRebuildLedger P with ⟨d'', e | ⟨⟨⟩⟩⟩
        · rwa [hr] at h2
        · rwa [hr] at h2
      · exact h1

/-- A call is a credit or a chain of steps. -/
theorem exec_cases (d : KronDAG) : ∀ op,
    (∃ a n, op = .credit a n ∧ exec P d op = d.creditAccount a n.toNat) ∨
    credited [op] = 0 ∧ ReflTransGen (Step P) d (exec P d op)
  | .credit a n => .inl ⟨a, n, rfl, rfl⟩
  | .attach host tx device => by
    refine .inr ⟨rfl, ?_⟩
    rw [exec, KronDAG.attachAndVerifyFor]
    rcases device.admitHost host with e | ⟨⟨⟩⟩
    · exact .refl
    · exact attach_steps d tx
  | .accept tx => .inr ⟨rfl, accept_steps d tx⟩
  | .merge txs relay => .inr ⟨rfl, merge_steps d txs relay⟩
  | .rebuild => .inr ⟨rfl, ReflTransGen.single (.rebuild d)⟩

/-- What every credit and every step keeps as long as `Ok` holds, every run keeps that ends in `Ok`,
provided that `Ok` is never regained. -/
theorem run_invariant_of (Inv Ok : KronDAG → Prop)
    (hokc : ∀ d a (n : UInt64), Ok (d.creditAccount a n.toNat) → Ok d)
    (hoks : ∀ d d', Step P d d' → Ok d' → Ok d)
    (hcredit : ∀ d a (n : UInt64), Ok (d.creditAccount a n.toNat) → Inv d →
      Inv (d.creditAccount a n.toNat))
    (hstep : ∀ d d', Step P d d' → Ok d' → Inv d → Inv d')
    (ops : List Op) (h : Inv d) (hok : Ok (run P d ops)) : Inv (run P d ops) := by
  induction ops using List.reverseRecOn with
  | nil => exact h
  | append_singleton ops op ih =>
    rw [run_concat] at hok ⊢
    rcases exec_cases (P := P) (run P d ops) op with ⟨a, n, -, he⟩ | ⟨-, hs⟩
    · rw [he] at hok ⊢
      exact hcredit _ a n hok (ih (hokc _ a n hok))
    · generalize exec P (run P d ops) op = d' at hok hs
      induction hs with
      | refl => exact ih hok
      | tail _ hs ih' => exact hstep _ _ hs hok (ih' (hoks _ _ hs hok))

/-- What every credit and every step keeps, every run keeps. -/
theorem run_invariant (Inv : KronDAG → Prop)
    (hcredit : ∀ d a (n : UInt64), Inv d → Inv (d.creditAccount a n.toNat))
    (hstep : ∀ d d', Step P d d' → Inv d → Inv d') (ops : List Op) (h : Inv d) :
    Inv (run P d ops) :=
  run_invariant_of (P := P) Inv (fun _ => True) (fun _ _ _ _ => trivial)
    (fun _ _ _ _ => trivial) (fun d a n _ => hcredit d a n) (fun d d' hs _ => hstep d d' hs) ops h
    trivial

end Steps

/-! ## The first state -/

section Genesis

variable {P : Primitives} {d : KronDAG}

theorem signedGenesisTx_ok {g : DagTransaction} (h : signedGenesisTx P = .ok g) :
    g.isGenesis = true ∧ g.sender = g.recipient ∧ g.amount = 0 ∧ g.fee = 0 ∧ g.nonce = 0 := by
  obtain ⟨h1, h2, h3, h4, h5, h6, h7, -, -⟩ := DagTransaction.assemble_fields h
  refine ⟨?_, h3.trans h4.symm, h5, h6, h7⟩
  rw [DagTransaction.isGenesis, h1, h2]
  rfl

theorem checkSpend_genesis {g : DagTransaction}
    (h : g.sender = g.recipient ∧ g.amount = 0 ∧ g.fee = 0 ∧ g.nonce = 0) :
    Ledger.empty.checkSpend g = .ok (0, 0) := by
  obtain ⟨h1, h2, h3, h4⟩ := h
  simp [Ledger.checkSpend, Ledger.balance, Ledger.empty, h1, h2, h3, h4, checkedAdd, checkedSub,
    u64Max]

/-- The genesis vertex leaves a graph of one vertex and a ledger of zeros, in which the protocol key
has used one nonce. -/
theorem withGenesis_eq (h : KronDAG.withGenesis P = some d) :
    ∃ g, signedGenesisTx P = .ok g ∧ g.isGenesis = true ∧ Graph.checkVertex P .empty g = .ok ()
      ∧ d = { KronDAG.new with
        toGraph := Graph.empty.insertVertex g
        toLedger := Ledger.empty.moveSpend g (0, 0) } := by
  obtain ⟨⟨d', b⟩, hens, rfl⟩ := Option.map_eq_some_iff.1 h
  unfold KronDAG.ensureGenesis at hens
  have hne : ¬ KronDAG.new.vertices.entries ≠ [] := not_not_intro rfl
  rw [if_neg hne] at hens
  rcases hg : signedGenesisTx P with e | g
  · rw [hg] at hens
    cases hens
  rw [hg] at hens
  have hgen := signedGenesisTx_ok hg
  refine ⟨g, rfl, hgen.1, ?_⟩
  simp only [] at hens
  have hdev : KronDAG.new.attachAndVerifyTx P g
      = KronDAG.new.attachVertexAndMaybeMint P g true (g.provenRelayNodes P) := rfl
  rw [hdev] at hens
  rcases attach_cases (P := P) .new g (g.provenRelayNodes P) with ⟨e, -, ha⟩ | ⟨e, -, -, ha⟩ |
    ⟨new, hcheck, hs, ha⟩
  · rw [ha] at hens
    cases hens
  · rw [ha] at hens
    cases hens
  · rw [ha] at hens
    refine ⟨hcheck, ?_⟩
    have hnew : new = (0, 0) := by
      have := checkSpend_genesis hgen.2
      exact Except.ok.inj (hs.symm.trans this)
    subst hnew
    unfold KronDAG.attached at hens
    simp only [hgen.1, Bool.true_eq_false, if_false] at hens
    cases hens
    rfl

/-- A protocol key that signs what it verifies gets the node started. -/
theorem withGenesis_of_signed {g : DagTransaction} (hg : signedGenesisTx P = .ok g)
    (hv : g.verifySignature P = true) :
    KronDAG.withGenesis P = some { KronDAG.new with
        toGraph := Graph.empty.insertVertex g
        toLedger := Ledger.empty.moveSpend g (0, 0) } := by
  have hgen := signedGenesisTx_ok hg
  have hside := (DagTransaction.assemble_fields hg).2.2.2.2.2.2.2
  have hcheck : Graph.checkVertex P Graph.empty g = .ok () := by
    refine Graph.checkVertex_of rfl ?_ ?_ hv ?_
    · unfold Graph.checkParents
      rw [if_pos hgen.1]
      rfl
    · rw [hgen.2.2.2.1, DagTransaction.requiredFee, if_pos hgen.1]
      rfl
    · rw [DagTransaction.verifyRelayProofs, hside.1, hside.2]
      rfl
  have hatt : KronDAG.new.attachAndVerifyTx P g
      = KronDAG.new.attachVertexAndMaybeMint P g true (g.provenRelayNodes P) := rfl
  have hne : ¬ KronDAG.new.vertices.entries ≠ [] := not_not_intro rfl
  unfold KronDAG.withGenesis KronDAG.ensureGenesis
  rw [if_neg hne, hg]
  simp only []
  rw [hatt]
  rcases attach_cases (P := P) .new g (g.provenRelayNodes P) with ⟨e, he, -⟩ | ⟨e, -, he, -⟩ |
    ⟨new, -, hs, ha⟩
  · exact absurd (he.symm.trans hcheck) (by simp)
  · exact absurd (he.symm.trans (checkSpend_genesis hgen.2)) (by simp)
  · obtain rfl : new = (0, 0) := Except.ok.inj (hs.symm.trans (checkSpend_genesis hgen.2))
    rw [ha]
    unfold KronDAG.attached
    simp only [hgen.1, Bool.true_eq_false, if_false]
    rfl

end Genesis

end KronMesh
