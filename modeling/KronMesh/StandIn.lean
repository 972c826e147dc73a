import KronMesh.Tx

/-!
# A stand-in for the cryptography

Toy primitives that compute: the key of a wallet repeats a byte of its seed, a signature repeats a
byte that key and message determine, and a digest reads a few places of its input. They sign what
they verify, so a run over them is a run of the code.
-/

namespace KronMesh.StandIn

open Wire

/-- Reads the low bytes of the four hashes, of the amount and of the nonce of a vertex. -/
def digest (bytes : Bytes) : ℕ :=
  [31, 63, 95, 127, 128, 129, 135, 144].foldl (fun acc i => acc * 31 + (bytes.getD i 0).toNat) 7

def sealByte (key message : Bytes) : UInt8 := UInt8.ofNat (digest key + digest message)

def keyByte (seed : Hash) : UInt8 := UInt8.ofNat seed.toNat

def primitives : Primitives where
  sha256 bytes := BitVec.ofNat 256 (digest bytes)
  keygenFromSeed seed := (List.replicate pkLen (keyByte seed), List.replicate skLen (keyByte seed))
  publicKeyOk _ := true
  secretKeyOk _ := true
  trySign sk message _ := some (List.replicate sigLen (sealByte (sk.take pkLen) message))
  verify pk message sig _ := sig == List.replicate sigLen (sealByte pk message)

/-- The address of the key of `seed`, worked out. -/
def addressOf (seed : Hash) : Address :=
  BitVec.ofNat 256 (5970237262087 + 28429701248 * (keyByte seed).toNat)

def address (n : ℕ) : Address := addressOf (BitVec.ofNat 256 n)

theorem address_fromSeed (seed : Hash) :
    (LatticeKeyPair.fromSeed primitives seed).pub.address primitives = addressOf seed := by
  have hget : ∀ i, 5 ≤ i → i < 1317 →
      (encodeBlob schemeMldsa44 (List.replicate pkLen (keyByte seed))).getD i 0 = keyByte seed := by
    intro i h5 hi
    rw [List.getD_eq_getElem?_getD, encodeBlob, List.getElem?_append_right (by simpa using h5)]
    simp only [List.length_append, List.length_singleton, length_leBytes]
    rw [List.getElem?_replicate_of_lt (by unfold pkLen; omega)]
    rfl
  unfold LatticePublicKey.address LatticePublicKey.toBytes LatticeKeyPair.fromSeed primitives digest
    addressOf
  simp only [List.foldl_cons, List.foldl_nil]
  rw [hget 31 (by decide) (by decide), hget 63 (by decide) (by decide),
    hget 95 (by decide) (by decide), hget 127 (by decide) (by decide),
    hget 128 (by decide) (by decide), hget 129 (by decide) (by decide),
    hget 135 (by decide) (by decide), hget 144 (by decide) (by decide)]
  refine congrArg _ ?_
  ring

theorem sign_fromSeed (seed : Hash) (message : Bytes) :
    (LatticeKeyPair.fromSeed primitives seed).secret.sign primitives message
      = .ok ⟨List.replicate sigLen (sealByte (List.replicate pkLen (keyByte seed)) message)⟩ := by
  unfold LatticeSecretKey.sign LatticeKeyPair.fromSeed primitives
  simp only [List.length_replicate, List.take_replicate]
  rfl

/-- What a key signs, it verifies. -/
theorem verify_fromSeed (seed : Hash) (message : Bytes) :
    (LatticeKeyPair.fromSeed primitives seed).pub.verify primitives message
      ⟨List.replicate sigLen (sealByte (List.replicate pkLen (keyByte seed)) message)⟩ = true := by
  unfold LatticePublicKey.verify LatticeKeyPair.fromSeed primitives
  simp only [List.length_replicate, beq_self_eq_true, Bool.and_self]

theorem signs_fromSeed (seed : Hash) : (LatticeKeyPair.fromSeed primitives seed).Signs primitives :=
  ⟨fun message => ⟨_, sign_fromSeed seed message⟩, fun message sig h => by
    rw [sign_fromSeed] at h
    cases h
    exact verify_fromSeed seed message⟩

/-- A vertex of the key of `seed`, under a given id, signed. -/
def signed (id : TxHash) (seed : Hash) (parent1 parent2 : TxHash) (recipient : Address)
    (amount fee nonce : UInt64) : DagTransaction :=
  let wallet := LatticeKeyPair.fromSeed primitives seed
  let tx : DagTransaction :=
    { id := id
      parent1 := parent1
      parent2 := parent2
      senderKron1 := deriveKronAddress primitives wallet.pub
      sender := addressOf seed
      recipientKron1 := encodeKron recipient
      recipient := recipient
      amount := amount
      fee := fee
      nonce := nonce
      publicKey := wallet.pub
      signature := ⟨[]⟩
      relayNodes := []
      relayProofs := [] }
  { tx with
    signature :=
      ⟨List.replicate sigLen (sealByte (List.replicate pkLen (keyByte seed)) tx.unsignedBytes)⟩ }

theorem verify_signed (id : TxHash) (seed : Hash) (p1 p2 : TxHash) (r : Address)
    (a f m : UInt64) : (signed id seed p1 p2 r a f m).verifySignature primitives = true := by
  unfold DagTransaction.verifySignature signed
  simp only [address_fromSeed, beq_self_eq_true, Bool.true_and]
  exact verify_fromSeed _ _

/-- A transfer of wallet `n` with the fixed fee. -/
def transfer (id : TxHash) (n : ℕ) (parent1 parent2 : TxHash) (recipient : Address)
    (amount nonce : UInt64) : DagTransaction :=
  signed id (BitVec.ofNat 256 n) parent1 parent2 recipient amount 1000 nonce

/-- A vertex with the proof of one carrier beside it. -/
def carried (tx : DagTransaction) (n : ℕ) : DagTransaction :=
  let seed : Hash := BitVec.ofNat 256 n
  let pub := (LatticeKeyPair.fromSeed primitives seed).pub
  { tx with
    relayNodes := [address n]
    relayProofs := [⟨address n, pub, ⟨List.replicate sigLen (sealByte
      (List.replicate pkLen (keyByte seed)) (relayProofMessage primitives tx.id pub))⟩⟩] }

theorem verify_carried {tx : DagTransaction} (h : tx.verifySignature primitives = true) (n : ℕ) :
    (carried tx n).verifySignature primitives = true
      ∧ (carried tx n).verifyRelayProofs primitives = true := by
  refine ⟨h, ?_⟩
  have hv := verify_fromSeed (BitVec.ofNat 256 n) (relayProofMessage primitives tx.id
    (LatticeKeyPair.fromSeed primitives (BitVec.ofNat 256 n)).pub)
  simp [DagTransaction.verifyRelayProofs, carried, hv, address, address_fromSeed]

/-! ## Signatures that cannot be forged -/

/-- A signature that bears key and message, which are read off it again. -/
def inscribed (key message : Bytes) : Bytes :=
  key ++ message ++ List.replicate (sigLen - pkLen - 32) 0

/-- Signs messages of the length of a digest. -/
def inscribing : Primitives :=
  { primitives with
    trySign := fun sk message _ =>
      if message.length = 32 then some (inscribed (sk.take pkLen) message) else none
    verify := fun pk message sig _ => message.length == 32 && sig == inscribed pk message }

theorem inscribing_address (seed : Hash) :
    (LatticeKeyPair.fromSeed inscribing seed).pub.address inscribing = addressOf seed :=
  address_fromSeed seed

theorem inscribing_sign (seed : Hash) {message : Bytes} (h : message.length = 32) :
    (LatticeKeyPair.fromSeed inscribing seed).secret.sign inscribing message
      = .ok ⟨inscribed (LatticeKeyPair.fromSeed inscribing seed).pub.raw message⟩ := by
  unfold LatticeSecretKey.sign LatticeKeyPair.fromSeed inscribing primitives
  simp only [List.length_replicate, List.take_replicate, if_pos h]
  rfl

theorem length_inscribed {key message : Bytes} (hkey : key.length = pkLen)
    (h : message.length = 32) : (inscribed key message).length = sigLen := by
  rw [inscribed, List.length_append, List.length_append, List.length_replicate, hkey, h]
  decide

theorem inscribing_verify {pk : LatticePublicKey} {message : Bytes} (hpk : pk.raw.length = pkLen)
    (h : message.length = 32) :
    pk.verify inscribing message ⟨inscribed pk.raw message⟩ = true := by
  have hlen := length_inscribed hpk h
  unfold LatticePublicKey.verify inscribing primitives
  simp only [hpk, h, hlen, beq_self_eq_true, Bool.and_self]

/-- A signature determines the key under which it verifies, and the message. -/
theorem inscribing_verify_inj {pk pk' : LatticePublicKey} {message message' : Bytes}
    {sig : LatticeSignature} (h : pk.verify inscribing message sig = true)
    (h' : pk'.verify inscribing message' sig = true) : pk = pk' ∧ message = message' := by
  have hpk := (LatticePublicKey.verify_facts h).1
  have hpk' := (LatticePublicKey.verify_facts h').1
  unfold LatticePublicKey.verify inscribing primitives at h h'
  simp only [Bool.and_eq_true, beq_iff_eq] at h h'
  have heq : inscribed pk.raw message = inscribed pk'.raw message' := h.2.2.symm.trans h'.2.2
  obtain ⟨hfront, -⟩ := List.append_inj heq (by
    rw [List.length_append, List.length_append, hpk, hpk', h.2.1, h'.2.1])
  obtain ⟨hkey, hmessage⟩ := List.append_inj hfront (hpk.trans hpk'.symm)
  obtain ⟨raw⟩ := pk
  obtain ⟨raw'⟩ := pk'
  exact ⟨congrArg _ hkey, hmessage⟩

end KronMesh.StandIn
