import KronMesh.StandInRun
import Mathlib.Data.List.DropRight

/-!
# A wallet that relays

In the background a wallet takes in vertices, signs that it carried each of them, keeps them in a
small pool and stages them for the global DAG once its link is up. What the sender signed stays as
it is, and the carrier comes behind those that are paid already (`intercept_fold_spec`). The pool
drops its oldest vertex when it is full, so of what is pushed between two steps the last
`relayMempoolCap` vertices are staged (`relay_run_staged`).
-/

namespace KronMesh

open Wire

/-- The relay store drops its oldest vertex when full. -/
def relayMempoolCap : ℕ := 32

structure MeshInterface where
  inbound : List DagTransaction
  globalLinkUp : Bool
  flushReady : List DagTransaction

namespace MeshInterface

def new : MeshInterface := ⟨[], false, []⟩

def pushInbound (m : MeshInterface) (tx : DagTransaction) : MeshInterface :=
  { m with inbound := m.inbound ++ [tx] }

def setGlobalLinkUp (m : MeshInterface) (up : Bool) : MeshInterface := { m with globalLinkUp := up }

/-- What is ready, and the interface without it. -/
def takeFlush (m : MeshInterface) : List DagTransaction × MeshInterface :=
  (m.flushReady, { m with flushReady := [] })

def stageForGlobalDag (m : MeshInterface) (txs : List DagTransaction) : MeshInterface :=
  { m with flushReady := m.flushReady ++ txs }

end MeshInterface

/-- The vertices intercepted, the oldest first. -/
structure RelayMempool where
  txs : List DagTransaction
  bounded : txs.length ≤ relayMempoolCap

namespace RelayMempool

def new : RelayMempool := ⟨[], Nat.zero_le _⟩

def push (pool : RelayMempool) (tx : DagTransaction) : RelayMempool where
  txs := (if relayMempoolCap ≤ pool.txs.length then pool.txs.drop 1 else pool.txs) ++ [tx]
  bounded := by
    have := pool.bounded
    unfold relayMempoolCap at *
    split_ifs <;> simp <;> omega

/-- What is in the pool, and the pool without it. -/
def drain (pool : RelayMempool) : List DagTransaction × RelayMempool := (pool.txs, new)

end RelayMempool

structure WalletRelaySession where
  mempool : RelayMempool
  miningRan : Bool

section

variable (P : Primitives)

/-- `none` where `expect` panics, for want of a signature. -/
def relayInterceptAndSign (tx : DagTransaction) (relayKeys : LatticeKeyPair) :
    Option DagTransaction :=
  let node := relayKeys.pub.address P
  match relayKeys.secret.sign P (relayProofMessage P tx.id relayKeys.pub) with
  | .ok sig => some
    { tx with
      relayNodes := DagTransaction.pushNew tx.relayNodes node
      relayProofs := tx.relayProofs ++ [⟨node, relayKeys.pub, sig⟩] }
  | .error _ => none

/-- The loop that polls, over the vertices that came in. -/
def interceptInbound (walletKeys : LatticeKeyPair) :
    List DagTransaction → RelayMempool → Option RelayMempool
  | [], pool => some pool
  | tx :: inbound, pool => do
    let signed ← relayInterceptAndSign P tx walletKeys
    interceptInbound walletKeys inbound (pool.push signed)

/-- One duty cycle: poll, sign, keep, and stage what is kept when the link is up. -/
def walletRelayStep (walletKeys : LatticeKeyPair) (mesh : MeshInterface)
    (session : WalletRelaySession) : Option (MeshInterface × WalletRelaySession) := do
  let pool ← interceptInbound P walletKeys mesh.inbound session.mempool
  let polled := { mesh with inbound := [] }
  if mesh.globalLinkUp = true ∧ pool.txs ≠ [] then
    let (txs, pool) := pool.drain
    return (polled.stageForGlobalDag txs, ⟨pool, false⟩)
  else
    return (polled, ⟨pool, false⟩)

inductive RelayOp
  | push (tx : DagTransaction)
  | step
  | takeFlush
  | setGlobalLinkUp (up : Bool)

/-- The relay, and what `takeFlush` has returned so far. -/
structure RelayState where
  mesh : MeshInterface
  session : WalletRelaySession
  taken : List DagTransaction

namespace RelayState

def new : RelayState := ⟨.new, ⟨.new, false⟩, []⟩

/-- All that was staged for the global DAG. -/
def staged (s : RelayState) : List DagTransaction := s.taken ++ s.mesh.flushReady

end RelayState

def relayExec (walletKeys : LatticeKeyPair) (s : RelayState) : RelayOp → Option RelayState
  | .push tx => some { s with mesh := s.mesh.pushInbound tx }
  | .step => (walletRelayStep P walletKeys s.mesh s.session).map fun r => ⟨r.1, r.2, s.taken⟩
  | .takeFlush => some ⟨s.mesh.takeFlush.2, s.session, s.taken ++ s.mesh.takeFlush.1⟩
  | .setGlobalLinkUp up => some { s with mesh := s.mesh.setGlobalLinkUp up }

def relayRun (walletKeys : LatticeKeyPair) (s : RelayState) (ops : List RelayOp) :
    Option RelayState := ops.foldlM (relayExec P walletKeys) s

end

/-! ## One carrier after the other -/

namespace DagTransaction

/-- A vertex without what is not under its hash. -/
def bare (tx : DagTransaction) : DagTransaction := { tx with relayNodes := [], relayProofs := [] }

theorem foldl_pushNew : ∀ l s : List Address,
    l.foldl pushNew s = s ++ (l.filter fun a => !s.contains a).eraseDups
  | [], s => by simp
  | a :: l, s => by
    rw [List.foldl_cons, foldl_pushNew l, pushNew]
    by_cases ha : a ∈ s
    · simp [ha]
    · simp only [List.contains_eq_mem, decide_eq_true_eq, ha, if_false]
      rw [List.filter_cons_of_pos (by simpa using ha), List.eraseDups_cons, List.filter_filter,
        List.append_assoc, List.singleton_append]
      congr 3
      refine List.filter_congr fun x _ => ?_
      by_cases hx : x = a <;> simp [hx]

end DagTransaction

section Intercept

variable {P : Primitives} {w : LatticeKeyPair} {tx tx' : DagTransaction}

theorem relayInterceptAndSign_isSome (hw : ∀ message, ∃ sig, w.secret.sign P message = .ok sig)
    (tx : DagTransaction) : ∃ tx', relayInterceptAndSign P tx w = some tx' := by
  obtain ⟨sig, hsig⟩ := hw (relayProofMessage P tx.id w.pub)
  unfold relayInterceptAndSign
  rw [hsig]
  exact ⟨_, rfl⟩

/-- All that an interception does: it appends one proof, and the carrier unless it is there. -/
theorem relayInterceptAndSign_eq (h : relayInterceptAndSign P tx w = some tx') :
    ∃ sig, w.secret.sign P (relayProofMessage P tx.id w.pub) = .ok sig
      ∧ tx' = { tx with
        relayNodes := DagTransaction.pushNew tx.relayNodes (w.pub.address P)
        relayProofs := tx.relayProofs ++ [⟨w.pub.address P, w.pub, sig⟩] } := by
  unfold relayInterceptAndSign at h
  rcases hsig : w.secret.sign P (relayProofMessage P tx.id w.pub) with e | sig
  · rw [hsig] at h
    cases h
  · rw [hsig] at h
    cases h
    exact ⟨sig, rfl, rfl⟩

/-- A carrier more leaves the proofs of those before it valid, also where it carried before. -/
theorem verifyRelayProofs_intercept (hw : w.Signs P) (hrel : tx.verifyRelayProofs P = true)
    (h : relayInterceptAndSign P tx w = some tx') : tx'.verifyRelayProofs P = true := by
  obtain ⟨sig, hsig, rfl⟩ := relayInterceptAndSign_eq h
  obtain ⟨hnodes, hproofs⟩ := DagTransaction.verifyRelayProofs_iff.1 hrel
  have hmem : ∀ x, x ∈ DagTransaction.pushNew tx.relayNodes (w.pub.address P)
      ↔ x ∈ tx.relayNodes ∨ x = w.pub.address P := by
    intro x
    unfold DagTransaction.pushNew
    split_ifs with hc
    · exact ⟨.inl, fun hx => hx.elim id fun hx => hx ▸ List.contains_iff_mem.1 hc⟩
    · rw [List.mem_append, List.mem_singleton]
  refine DagTransaction.verifyRelayProofs_iff.2 ⟨fun node hnode => ?_, fun proof hproof => ?_⟩
  · rcases (hmem node).1 hnode with hnode | rfl
    · obtain ⟨proof, hproof, hp⟩ := hnodes node hnode
      exact ⟨proof, List.mem_append_left _ hproof, hp⟩
    · exact ⟨_, List.mem_append_right _ (List.mem_singleton.2 rfl), rfl⟩
  · rcases List.mem_append.1 hproof with hproof | hproof
    · obtain ⟨haddr, hnode, hver⟩ := hproofs proof hproof
      exact ⟨haddr, (hmem _).2 (.inl hnode), hver⟩
    · obtain rfl := List.mem_singleton.1 hproof
      exact ⟨rfl, (hmem _).2 (.inr rfl), hw.verifies _ _ hsig⟩

/-- What a chain of carriers leaves: the vertex, the proofs still valid, one more for each of them.
-/
theorem intercept_fold : ∀ (wallets : List LatticeKeyPair) {tx : DagTransaction},
    (∀ w ∈ wallets, w.Signs P) → tx.verifyRelayProofs P = true →
      ∃ tx', wallets.foldlM (relayInterceptAndSign P) tx = some tx' ∧ tx'.bare = tx.bare
        ∧ tx'.verifyRelayProofs P = true ∧ tx'.relayProofs.map RelayProof.node
          = tx.relayProofs.map RelayProof.node ++ wallets.map fun w => w.pub.address P
  | [], tx, _, hrel => ⟨tx, rfl, rfl, hrel, (List.append_nil _).symm⟩
  | w :: wallets, tx, hw, hrel => by
    obtain ⟨hw, hws⟩ := List.forall_mem_cons.1 hw
    obtain ⟨tx₁, h₁⟩ := relayInterceptAndSign_isSome hw.signs tx
    obtain ⟨tx', hfold, hbare, hrel', hnodes⟩ :=
      intercept_fold wallets hws (verifyRelayProofs_intercept hw hrel h₁)
    obtain ⟨sig, -, htx₁⟩ := relayInterceptAndSign_eq h₁
    refine ⟨tx', ?_, ?_, hrel', ?_⟩
    · rw [List.foldlM_cons, h₁]
      exact hfold
    · rw [hbare, htx₁]
      rfl
    · rw [hnodes, htx₁]
      simp only [List.map_append, List.map_cons, List.map_nil, List.append_assoc,
        List.singleton_append]

/-- Any number of carriers, some of them more than once, leave what the sender signed as it is and
every proof valid; paid are those that were, and then the new ones in the order in which each first
intercepted the vertex. -/
theorem intercept_fold_spec {wallets : List LatticeKeyPair} (hw : ∀ w ∈ wallets, w.Signs P)
    (hsig : tx.verifySignature P = true) (hrel : tx.verifyRelayProofs P = true) :
    ∃ tx', wallets.foldlM (relayInterceptAndSign P) tx = some tx'
      ∧ tx'.id = tx.id ∧ tx'.unsignedBytes = tx.unsignedBytes ∧ tx'.signature = tx.signature
      ∧ tx'.verifySignature P = true ∧ tx'.verifyRelayProofs P = true
      ∧ tx'.provenRelayNodes P = tx.provenRelayNodes P
        ++ ((wallets.map fun w => w.pub.address P).filter fun a =>
          !(tx.provenRelayNodes P).contains a).eraseDups := by
  obtain ⟨tx', hfold, hbare, hrel', hnodes⟩ := intercept_fold wallets hw hrel
  have hsame : ∀ {β : Type} (f : DagTransaction → β), f tx'.bare = f tx.bare :=
    fun f => congrArg f hbare
  have hsig' : tx'.verifySignature P = tx.verifySignature P :=
    hsame (DagTransaction.verifySignature P)
  refine ⟨tx', hfold, hsame DagTransaction.id, hsame DagTransaction.unsignedBytes,
    hsame DagTransaction.signature, hsig'.trans hsig, hrel', ?_⟩
  rw [DagTransaction.provenRelayNodes, if_pos hrel', hnodes, List.foldl_append,
    DagTransaction.foldl_pushNew (wallets.map _), DagTransaction.provenRelayNodes, if_pos hrel]

open StandIn in
theorem intercept_fold_spec_carried : ∃ tx',
    [LatticeKeyPair.fromSeed primitives 2, .fromSeed primitives 3, .fromSeed primitives 2].foldlM
        (relayInterceptAndSign primitives) (carried firstTransfer 3) = some tx'
      ∧ tx'.provenRelayNodes primitives = [address 3, address 2] := by
  have hsigned : firstTransfer.verifySignature primitives = true := verify_signed ..
  have hver := verify_carried hsigned 3
  have hw : ∀ w ∈ [LatticeKeyPair.fromSeed primitives 2, .fromSeed primitives 3,
      .fromSeed primitives 2], w.Signs primitives := by
    intro w hw
    simp only [List.mem_cons, List.not_mem_nil, or_false] at hw
    rcases hw with rfl | rfl | rfl <;> exact signs_fromSeed _
  obtain ⟨tx', hfold, -, -, -, -, -, hproven⟩ := intercept_fold_spec hw hver.1 hver.2
  refine ⟨tx', hfold, ?_⟩
  have hold : (carried firstTransfer 3).provenRelayNodes primitives = [address 3] := by
    rw [DagTransaction.provenRelayNodes, if_pos hver.2]
    rfl
  rw [hproven, hold]
  simp only [List.map_cons, List.map_nil, address_fromSeed]
  decide

end Intercept

/-! ## What is staged -/

/-- `tx'` is `tx`, signed for by the carrier. -/
def Carries (P : Primitives) (walletKeys : LatticeKeyPair) (tx tx' : DagTransaction) : Prop :=
  relayInterceptAndSign P tx walletKeys = some tx'

/-- The link is up at every step. -/
def Online : Bool → List RelayOp → Prop
  | _, [] => True
  | up, .push _ :: ops => Online up ops
  | up, .step :: ops => up = true ∧ Online up ops
  | up, .takeFlush :: ops => Online up ops
  | _, .setGlobalLinkUp up :: ops => Online up ops

def pushed : List RelayOp → List DagTransaction
  | [] => []
  | .push tx :: ops => tx :: pushed ops
  | .step :: ops => pushed ops
  | .takeFlush :: ops => pushed ops
  | .setGlobalLinkUp _ :: ops => pushed ops

/-- For each step what was pushed since the step before, after `queue`. -/
def batches : List DagTransaction → List RelayOp → List (List DagTransaction)
  | _, [] => []
  | queue, .push tx :: ops => batches (queue ++ [tx]) ops
  | queue, .step :: ops => queue :: batches [] ops
  | queue, .takeFlush :: ops => batches queue ops
  | queue, .setGlobalLinkUp _ :: ops => batches queue ops

theorem flatten_batches : ∀ (ops : List RelayOp) (queue : List DagTransaction),
    (batches queue (ops ++ [.step])).flatten = queue ++ pushed ops
  | [], queue => by simp [batches, pushed]
  | .push tx :: ops, queue => by
    rw [List.cons_append, batches, flatten_batches ops, pushed, List.append_assoc,
      List.singleton_append]
  | .step :: ops, queue => by
    rw [List.cons_append, batches, List.flatten_cons, flatten_batches ops, pushed, List.nil_append]
  | .takeFlush :: ops, queue => flatten_batches ops queue
  | .setGlobalLinkUp _ :: ops, queue => flatten_batches ops queue

section LastOnes

variable {α β : Type*} {n : ℕ}

theorem rtake_of_length_le {l : List α} (h : l.length ≤ n) : l.rtake n = l := by
  rw [List.rtake, Nat.sub_eq_zero_of_le h, List.drop_zero]

theorem length_rtake (l : List α) (n : ℕ) : (l.rtake n).length = min n l.length := by
  rw [List.rtake, List.length_drop]
  omega

theorem rtake_rtake_append (l l' : List α) (n : ℕ) :
    (l.rtake n ++ l').rtake n = (l ++ l').rtake n := by
  have hl := length_rtake l n
  unfold List.rtake at *
  rw [List.length_append, List.length_append, hl]
  by_cases h : l.length ≤ n
  · rw [Nat.sub_eq_zero_of_le h, List.drop_zero, Nat.min_eq_right h]
  · rw [← List.drop_append_of_le_length (by omega), List.drop_drop]
    congr 1
    omega

theorem forall₂_rtake {R : α → β → Prop} {l : List α} {l' : List β} (h : List.Forall₂ R l l') :
    List.Forall₂ R (l.rtake n) (l'.rtake n) := by
  unfold List.rtake
  rw [h.length_eq]
  exact List.forall₂_drop _ h

/-- Nothing is cut off when every part is short, and only then. -/
theorem length_flatMap_rtake_eq_iff (ls : List (List α)) :
    (ls.flatMap fun l => l.rtake n).length = ls.flatten.length ↔ ∀ l ∈ ls, l.length ≤ n := by
  have hle : ∀ ls : List (List α),
      (ls.flatMap fun l => l.rtake n).length ≤ ls.flatten.length := by
    intro ls
    induction ls with
    | nil => exact le_rfl
    | cons l ls ih =>
      rw [List.flatMap_cons, List.flatten_cons, List.length_append, List.length_append,
        length_rtake]
      omega
  induction ls with
  | nil => simp
  | cons l ls ih =>
    have := hle ls
    rw [List.flatMap_cons, List.flatten_cons, List.length_append, List.length_append, length_rtake,
      List.forall_mem_cons]
    refine Iff.trans ?_ (and_congr_right' ih)
    omega

end LastOnes

namespace RelayMempool

/-- The pool keeps the last of what it is given. -/
theorem txs_push (pool : RelayMempool) (tx : DagTransaction) :
    (pool.push tx).txs = (pool.txs ++ [tx]).rtake relayMempoolCap := by
  have hb := pool.bounded
  unfold push List.rtake
  rw [List.length_append, List.length_singleton]
  split_ifs with h
  · have hone : pool.txs.length + 1 - relayMempoolCap = 1 := by omega
    rw [hone, List.drop_append_of_le_length (by unfold relayMempoolCap at h; omega)]
  · rw [Nat.sub_eq_zero_of_le (by omega), List.drop_zero]

end RelayMempool

section Staged

variable {P : Primitives} {walletKeys : LatticeKeyPair}

theorem interceptInbound_spec
    (hsign : ∀ message, ∃ sig, walletKeys.secret.sign P message = .ok sig) :
    ∀ (inbound : List DagTransaction) (pool : RelayMempool), ∃ pool' signed,
      interceptInbound P walletKeys inbound pool = some pool'
        ∧ List.Forall₂ (Carries P walletKeys) inbound signed
        ∧ pool'.txs = (pool.txs ++ signed).rtake relayMempoolCap
  | [], pool => ⟨pool, [], rfl, .nil, by rw [List.append_nil, rtake_of_length_le pool.bounded]⟩
  | tx :: inbound, pool => by
    obtain ⟨tx', htx⟩ := relayInterceptAndSign_isSome hsign tx
    obtain ⟨pool', signed, hpool, hcarries, htxs⟩ :=
      interceptInbound_spec hsign inbound (pool.push tx')
    refine ⟨pool', tx' :: signed, ?_, .cons htx hcarries, ?_⟩
    · rw [interceptInbound, htx]
      exact hpool
    · rw [htxs, RelayMempool.txs_push, rtake_rtake_append, List.append_assoc,
        List.singleton_append]

/-- A step with the link up stages the last vertices that came in, and leaves the pool empty. -/
theorem walletRelayStep_spec
    (hsign : ∀ message, ∃ sig, walletKeys.secret.sign P message = .ok sig)
    (mesh : MeshInterface) (session : WalletRelaySession) (hup : mesh.globalLinkUp = true)
    (hempty : session.mempool.txs = []) : ∃ mesh' session' signed,
      walletRelayStep P walletKeys mesh session = some (mesh', session')
        ∧ List.Forall₂ (Carries P walletKeys) (mesh.inbound.rtake relayMempoolCap) signed
        ∧ mesh'.inbound = [] ∧ mesh'.globalLinkUp = true
        ∧ mesh'.flushReady = mesh.flushReady ++ signed ∧ session'.mempool.txs = [] := by
  obtain ⟨pool, signed, hpool, hcarries, htxs⟩ :=
    interceptInbound_spec hsign mesh.inbound session.mempool
  rw [hempty, List.nil_append] at htxs
  unfold walletRelayStep
  rw [hpool]
  by_cases hnil : pool.txs = []
  · refine ⟨{ mesh with inbound := [] }, ⟨pool, false⟩, pool.txs, ?_, ?_, rfl, hup, ?_, hnil⟩
    · simp [hnil]
    · rw [htxs]
      exact forall₂_rtake hcarries
    · rw [hnil, List.append_nil]
  · refine ⟨{ mesh with inbound := [], flushReady := mesh.flushReady ++ pool.txs }, ⟨.new, false⟩,
      pool.txs, ?_, ?_, rfl, hup, rfl, rfl⟩
    · simp [hnil, hup, RelayMempool.drain, MeshInterface.stageForGlobalDag]
    · rw [htxs]
      exact forall₂_rtake hcarries

theorem relayRun_spec (hsign : ∀ message, ∃ sig, walletKeys.secret.sign P message = .ok sig) :
    ∀ (ops : List RelayOp) (s : RelayState), s.session.mempool.txs = [] →
      Online s.mesh.globalLinkUp ops → ∃ s' signed, relayRun P walletKeys s ops = some s'
        ∧ s'.staged = s.staged ++ signed
        ∧ List.Forall₂ (Carries P walletKeys)
          ((batches s.mesh.inbound ops).flatMap fun b => b.rtake relayMempoolCap) signed
  | [], s, _, _ => ⟨s, [], rfl, (List.append_nil _).symm, .nil⟩
  | .push tx :: ops, s, hempty, hon => by
    obtain ⟨s', signed, hrun, hstaged, hcarries⟩ :=
      relayRun_spec hsign ops { s with mesh := s.mesh.pushInbound tx } hempty hon
    exact ⟨s', signed, hrun, hstaged, hcarries⟩
  | .step :: ops, s, hempty, hon => by
    obtain ⟨mesh, session, signed₁, hstep, hcarries₁, hin, hup, hflush, hempty'⟩ :=
      walletRelayStep_spec hsign s.mesh s.session hon.1 hempty
    obtain ⟨s', signed₂, hrun, hstaged, hcarries₂⟩ :=
      relayRun_spec hsign ops ⟨mesh, session, s.taken⟩ hempty' (by
        rw [hup]
        exact hon.1 ▸ hon.2)
    refine ⟨s', signed₁ ++ signed₂, ?_, ?_, ?_⟩
    · have hexec : relayExec P walletKeys s .step = some ⟨mesh, session, s.taken⟩ := by
        rw [relayExec, hstep]
        rfl
      rw [relayRun, List.foldlM_cons, hexec]
      exact hrun
    · rw [hstaged]
      simp only [RelayState.staged, hflush, List.append_assoc]
    · rw [batches, List.flatMap_cons]
      rw [hin] at hcarries₂
      exact List.rel_append hcarries₁ hcarries₂
  | .takeFlush :: ops, s, hempty, hon => by
    obtain ⟨s', signed, hrun, hstaged, hcarries⟩ := relayRun_spec hsign ops
      ⟨s.mesh.takeFlush.2, s.session, s.taken ++ s.mesh.takeFlush.1⟩ hempty hon
    refine ⟨s', signed, hrun, ?_, hcarries⟩
    rw [hstaged]
    simp only [RelayState.staged, MeshInterface.takeFlush, List.append_nil]
  | .setGlobalLinkUp up :: ops, s, hempty, hon => by
    obtain ⟨s', signed, hrun, hstaged, hcarries⟩ :=
      relayRun_spec hsign ops { s with mesh := s.mesh.setGlobalLinkUp up } hempty hon
    exact ⟨s', signed, hrun, hstaged, hcarries⟩

/-- Let the link be up at every step, the last call being one. What is staged in all are the last
vertices of each batch pushed between two steps, each once and in the order they were pushed in;
they are all that was pushed exactly when no batch is longer than the pool. -/
theorem relay_run_staged (hsign : ∀ message, ∃ sig, walletKeys.secret.sign P message = .ok sig)
    (ops : List RelayOp) (hon : Online false (ops ++ [.step])) :
    ∃ s, relayRun P walletKeys .new (ops ++ [.step]) = some s
      ∧ List.Forall₂ (Carries P walletKeys)
        ((batches [] (ops ++ [.step])).flatMap fun b => b.rtake relayMempoolCap) s.staged
      ∧ (List.Forall₂ (Carries P walletKeys) (pushed ops) s.staged ↔
        ∀ b ∈ batches [] (ops ++ [.step]), b.length ≤ relayMempoolCap) := by
  obtain ⟨s, signed, hrun, hstaged, hcarries⟩ :=
    relayRun_spec hsign (ops ++ [RelayOp.step]) .new rfl hon
  have hall : (batches [] (ops ++ [.step])).flatten = pushed ops := flatten_batches ops []
  obtain rfl : s.staged = signed := hstaged
  refine ⟨s, hrun, hcarries, fun h => ?_, fun h => ?_⟩
  · rw [← length_flatMap_rtake_eq_iff, hall, h.length_eq]
    exact hcarries.length_eq
  · have heq : ((batches [] (ops ++ [.step])).flatMap fun b => b.rtake relayMempoolCap)
        = pushed ops := by
      rw [← hall, List.flatten_eq_flatMap]
      exact List.flatMap_congr fun b hb => rtake_of_length_le (h b hb)
    rw [← heq]
    exact hcarries

/-! ## One vertex too many -/

open StandIn

/-- The link goes up, and `n` vertices come in before the next step. -/
def burst (n : ℕ) : List RelayOp :=
  .setGlobalLinkUp true :: (List.range n).map fun i =>
    .push (transfer (BitVec.ofNat 256 i) 1 genesisId genesisId (address 2) 1000 0)

theorem online_burst (n : ℕ) : Online false (burst n ++ [.step]) := by
  have hpush : ∀ (txs : List DagTransaction) (up : Bool),
      Online up (txs.map RelayOp.push ++ [.step]) ↔ up = true := by
    intro txs
    induction txs with
    | nil => exact fun up => and_iff_left trivial
    | cons tx txs ih => exact ih
  have hall := (hpush ((List.range n).map fun i =>
    transfer (BitVec.ofNat 256 i) 1 genesisId genesisId (address 2) 1000 0) true).2 rfl
  rw [List.map_map] at hall
  exact hall

theorem relay_run_staged_burst : ∃ s,
    relayRun primitives (.fromSeed primitives 2) .new (burst 2 ++ [.step]) = some s
      ∧ List.Forall₂ (Carries primitives (.fromSeed primitives 2)) (pushed (burst 2)) s.staged := by
  obtain ⟨s, hrun, -, hall⟩ :=
    relay_run_staged (signs_fromSeed 2).signs (burst 2) (online_burst 2)
  refine ⟨s, hrun, hall.2 fun b hb => ?_⟩
  obtain rfl := List.mem_singleton.1 hb
  decide

/-- Of 33 vertices that come in before a step, the relay stages 32. -/
theorem burst_drops_oldest : ∃ s,
    relayRun primitives (.fromSeed primitives 2) .new (burst 33 ++ [.step]) = some s
      ∧ Online false (burst 33 ++ [.step])
      ∧ (pushed (burst 33)).length = 33 ∧ s.staged.length = 32
      ∧ ¬ List.Forall₂ (Carries primitives (.fromSeed primitives 2)) (pushed (burst 33))
        s.staged := by
  obtain ⟨s, signed, hrun, hstaged, hcarries⟩ :=
    relayRun_spec (signs_fromSeed 2).signs (burst 33 ++ [RelayOp.step]) .new rfl (online_burst 33)
  have hlen : s.staged.length = 32 := by
    rw [hstaged]
    exact hcarries.length_eq.symm
  refine ⟨s, hrun, online_burst 33, rfl, hlen, fun h => ?_⟩
  have h33 : 33 = s.staged.length := h.length_eq
  rw [hlen] at h33
  cases h33

end Staged

end KronMesh
