import KronMesh.Lattice
import KronMesh.Economics
import Mathlib.Data.List.Dedup

/-!
# A vertex of the mesh

The signed transfer that approves two parents, what is hashed and signed of it, and the checks a
node makes of its signature and of the carrier proofs beside it.
-/

namespace KronMesh

open Wire

inductive ShieldError
  | pcArchitecture
  | emulatorTiming
  | cloudEnvironment
  | datacenterClass
  | minerModeRequired
  | attachFailed
  deriving DecidableEq, Repr

inductive DagError
  | unknownParent (p : TxHash)
  | invalidSignature
  | insufficientBalance
  | doubleSpend (nonce : UInt64)
  | duplicateTx (id : TxHash)
  | invalidGenesis
  | invalidFee
  | addressMismatch
  | overflow
  | invalidRelayProof
  | sign (e : CryptoError)
  | shield (e : ShieldError)
  deriving DecidableEq, Repr

/-- A carrier's signature over `relayProofMessage`, beside the vertex and not under its hash. -/
structure RelayProof where
  node : Address
  publicKey : LatticePublicKey
  sig : LatticeSignature
  deriving DecidableEq

def nullParent : TxHash := 0

/-- `b"KRON-MOBILE-MESH-DAG-GENESIS\0\0\0\0"`. -/
def genesisSeed : Hash :=
  hashOfBytes ("KRON-MOBILE-MESH-DAG-GENESIS".toList.map (fun c => UInt8.ofNat c.toNat)
    ++ [0, 0, 0, 0])

structure DagTransaction where
  id : TxHash
  parent1 : TxHash
  parent2 : TxHash
  senderKron1 : String
  sender : Address
  recipientKron1 : String
  recipient : Address
  amount : UInt64
  fee : UInt64
  nonce : UInt64
  publicKey : LatticePublicKey
  signature : LatticeSignature
  relayNodes : List Address
  relayProofs : List RelayProof
  deriving DecidableEq

variable (P : Primitives)

/-- `sha256_parts(&[b"kron-relay-v1", tx_id, &relay_pk.to_bytes()])`. -/
def relayProofMessage (txId : TxHash) (relayPk : LatticePublicKey) : Bytes :=
  hashBytes (P.sha256 ("kron-relay-v1".toList.map (fun c => UInt8.ofNat c.toNat)
    ++ hashBytes txId ++ relayPk.toBytes))

namespace DagTransaction

def unsignedBytes (tx : DagTransaction) : Bytes :=
  hashBytes tx.parent1 ++ hashBytes tx.parent2 ++ hashBytes tx.sender ++ hashBytes tx.recipient
    ++ leBytes 8 tx.amount.toNat ++ leBytes 8 tx.fee.toNat ++ leBytes 8 tx.nonce.toNat
    ++ tx.publicKey.toBytes

def computeId (unsigned : Bytes) : TxHash := P.sha256 unsigned

def isGenesis (tx : DagTransaction) : Bool :=
  tx.parent1 == nullParent && tx.parent2 == nullParent

def refreshId (tx : DagTransaction) : DagTransaction :=
  { tx with id := computeId P tx.unsignedBytes }

def verifyRelayProofs (tx : DagTransaction) : Bool :=
  if tx.relayNodes.isEmpty then tx.relayProofs.isEmpty
  else if tx.relayProofs.isEmpty then false
  else
    tx.relayNodes.all (fun node => tx.relayProofs.any fun p => p.node == node)
      && tx.relayProofs.all fun proof =>
        proof.publicKey.address P == proof.node && tx.relayNodes.contains proof.node
          && proof.publicKey.verify P (relayProofMessage P tx.id proof.publicKey) proof.sig

/-- Appends what is not there yet: `if !out.contains(n) { out.push(n) }` along a list. -/
def pushNew (out : List Address) (n : Address) : List Address :=
  if out.contains n then out else out ++ [n]

/-- The carriers that are paid: each with a proof, once, in the order of the proofs. -/
def provenRelayNodes (tx : DagTransaction) : List Address :=
  if tx.verifyRelayProofs P then (tx.relayProofs.map RelayProof.node).foldl pushNew [] else []

def verifySignature (tx : DagTransaction) : Bool :=
  tx.publicKey.address P == tx.sender
    && deriveKronAddress P tx.publicKey == tx.senderKron1
    && encodeKron tx.recipient == tx.recipientKron1
    && tx.publicKey.verify P tx.unsignedBytes tx.signature

/-- An unsigned skeleton, hashed, then signed. -/
def assemble (parent1 parent2 : TxHash) (wallet : LatticeKeyPair) (recipient : Address)
    (amount fee nonce : UInt64) : Except DagError DagTransaction :=
  let tx : DagTransaction :=
    { id := 0
      parent1 := parent1
      parent2 := parent2
      senderKron1 := deriveKronAddress P wallet.pub
      sender := wallet.pub.address P
      recipientKron1 := encodeKron recipient
      recipient := recipient
      amount := amount
      fee := fee
      nonce := nonce
      publicKey := wallet.pub
      signature := ⟨[]⟩
      relayNodes := []
      relayProofs := [] }
  let tx := tx.refreshId P
  match wallet.secret.sign P tx.unsignedBytes with
  | .ok sig => .ok { tx with signature := sig }
  | .error e => .error (.sign e)

def userTransfer (parent1 parent2 : TxHash) (wallet : LatticeKeyPair) (recipient : Address)
    (amount nonce : UInt64) : Except DagError DagTransaction :=
  assemble P parent1 parent2 wallet recipient amount (UInt64.ofNat fixedTransactionFee) nonce

end DagTransaction

/-- The protocol genesis vertex, signed with the key of `genesisSeed`. -/
def signedGenesisTx : Except DagError DagTransaction :=
  let wallet := LatticeKeyPair.fromSeed P genesisSeed
  DagTransaction.assemble P nullParent nullParent wallet (wallet.pub.address P) 0 0 0

namespace DagTransaction

variable {P} {tx : DagTransaction}

@[simp] theorem length_unsignedBytes (tx : DagTransaction) :
    tx.unsignedBytes.length = 152 + tx.publicKey.toBytes.length := by
  simp only [unsignedBytes, List.length_append, length_hashBytes, length_leBytes]

/-- Every parent of an assembled vertex is the one asked for, and it carries no sidecar. -/
theorem assemble_fields {p1 p2 : TxHash} {w : LatticeKeyPair} {r : Address} {a f n : UInt64}
    (h : assemble P p1 p2 w r a f n = .ok tx) :
    tx.parent1 = p1 ∧ tx.parent2 = p2 ∧ tx.sender = w.pub.address P ∧ tx.recipient = r
      ∧ tx.amount = a ∧ tx.fee = f ∧ tx.nonce = n ∧ tx.relayNodes = [] ∧ tx.relayProofs = [] := by
  simp only [assemble, refreshId] at h
  split at h
  · cases h
    exact ⟨rfl, rfl, rfl, rfl, rfl, rfl, rfl, rfl, rfl⟩
  · cases h

/-- A vertex signed by its own key, with no sidecar, passes both checks. -/
theorem assemble_verify {p1 p2 : TxHash} {w : LatticeKeyPair} {r : Address} {a f n : UInt64}
    (h : assemble P p1 p2 w r a f n = .ok tx)
    (hs : ∀ m sig, w.secret.sign P m = .ok sig → w.pub.verify P m sig = true) :
    tx.verifySignature P = true ∧ tx.verifyRelayProofs P = true := by
  simp only [assemble, refreshId] at h
  split at h
  · rename_i sig hsig
    cases h
    refine ⟨?_, rfl⟩
    simp only [verifySignature, beq_self_eq_true, Bool.true_and]
    exact hs _ _ hsig
  · cases h

theorem mem_foldl_pushNew {a : Address} : ∀ (l out : List Address),
    a ∈ l.foldl pushNew out ↔ a ∈ out ∨ a ∈ l
  | [], out => by simp
  | n :: l, out => by
    rw [List.foldl_cons, mem_foldl_pushNew l]
    unfold pushNew
    split_ifs with hc
    · rw [List.contains_iff_mem] at hc
      grind
    · grind

theorem provenRelayNodes_nil (h : tx.relayProofs = []) : tx.provenRelayNodes P = [] := by
  rw [provenRelayNodes, h]
  split_ifs <;> rfl

/-- Nodes and proofs match both ways, and every proof is the node's own. -/
theorem verifyRelayProofs_iff : tx.verifyRelayProofs P = true ↔
    (∀ node ∈ tx.relayNodes, ∃ proof ∈ tx.relayProofs, proof.node = node)
      ∧ ∀ proof ∈ tx.relayProofs, proof.publicKey.address P = proof.node
        ∧ proof.node ∈ tx.relayNodes
        ∧ proof.publicKey.verify P (relayProofMessage P tx.id proof.publicKey) proof.sig
          = true := by
  unfold verifyRelayProofs
  rcases tx.relayNodes with _ | ⟨n, ns⟩
  · rcases tx.relayProofs with _ | ⟨p, ps⟩
    · simp
    · simpa using ⟨p, fun h => absurd rfl h⟩
  · rcases tx.relayProofs with _ | ⟨p, ps⟩
    · simpa using ⟨n, fun h => absurd rfl h⟩
    · simp [and_assoc]

/-- A checked vertex without proofs has no carriers. -/
theorem relayNodes_nil (tx : DagTransaction) (h : tx.verifyRelayProofs P = true)
    (hnil : tx.relayProofs = []) : tx.relayNodes = [] := by
  unfold verifyRelayProofs at h
  rw [hnil] at h
  split_ifs at h with h1 h2
  · exact List.isEmpty_iff.1 h1
  · exact absurd rfl h2

/-- Every proof of a checked sidecar has a key of the right length. -/
theorem verifyRelayProofs_length (tx : DagTransaction) (h : tx.verifyRelayProofs P = true) :
    ∀ proof ∈ tx.relayProofs, proof.publicKey.raw.length = pkLen := by
  intro proof hmem
  exact (LatticePublicKey.verify_facts ((verifyRelayProofs_iff.1 h).2 proof hmem).2.2).1

end DagTransaction

end KronMesh
