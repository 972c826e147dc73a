import KronMesh.StandIn

/-!
# The wire form of a vertex

What gossip, the log and mesh sync carry. The decoder inverts the encoder on a vertex without
carrier proofs. It refuses every other: the encoder writes the length of a proof's key before the
key, and the decoder, which does not read that length, takes its low byte for the key's scheme.
-/

namespace KronMesh

open Wire

variable (P : Primitives)

/-! ## The encoder -/

def relayProofBytes (proof : RelayProof) : Bytes :=
  hashBytes proof.node
    ++ leBytes 4 (proof.publicKey.toBytes.length % 2 ^ 32) ++ proof.publicKey.toBytes
    ++ leBytes 4 (proof.sig.toBytes.length % 2 ^ 32) ++ proof.sig.toBytes

def DagTransaction.canonicalBytes (tx : DagTransaction) : Bytes :=
  tx.unsignedBytes
    ++ leBytes 4 (tx.signature.toBytes.length % 2 ^ 32) ++ tx.signature.toBytes
    ++ leBytes 4 (tx.relayNodes.length % 2 ^ 32) ++ tx.relayNodes.flatMap hashBytes
    ++ leBytes 4 (tx.relayProofs.length % 2 ^ 32) ++ tx.relayProofs.flatMap relayProofBytes

/-! ## The decoder -/

/-- `map_err(DagError::Sign)`. -/
def asSign {β : Type} : Except (Fault CryptoError) β → Except (Fault DagError) β
  | .ok b => .ok b
  | .error (.err e) => .error (.err (.sign e))
  | .error .panic => .error .panic

def readHash (bytes : Bytes) (off : ℕ) : Except (Fault DagError) Hash := do
  let b ← slice bytes off 32
  return hashOfBytes b

/-- A public key, then a length-prefixed signature, and where they end. -/
def readKeyAndSig (bytes : Bytes) (off : ℕ) :
    Except (Fault DagError) (LatticePublicKey × LatticeSignature × ℕ) := do
  let pkLen ← asSign (LatticePublicKey.encodedLen bytes off)
  rejectIf (bytes.length < off + pkLen + 4) (.sign .invalidEncoding)
  let pkBytes ← slice bytes off pkLen
  let publicKey ← asSign (LatticePublicKey.fromBytes P pkBytes)
  let off := off + pkLen
  let slen ← readU32 bytes off
  let off := off + 4
  rejectIf (bytes.length < off + slen) (.sign .invalidEncoding)
  let sigBytes ← slice bytes off slen
  let signature ← asSign (LatticeSignature.fromBytes sigBytes)
  return (publicKey, signature, off + slen)

/-- `n` carrier ids, and where they end. -/
def readRelayNodes (bytes : Bytes) : ℕ → ℕ → Except (Fault DagError) (List Address × ℕ)
  | 0, off => .ok ([], off)
  | n + 1, off => do
    rejectIf (bytes.length < off + 32) (.sign .invalidEncoding)
    let node ← readHash bytes off
    let (nodes, off) ← readRelayNodes bytes n (off + 32)
    return (node :: nodes, off)

/-- `n` carrier proofs, and where they end. -/
def readRelayProofs (bytes : Bytes) : ℕ → ℕ → Except (Fault DagError) (List RelayProof × ℕ)
  | 0, off => .ok ([], off)
  | n + 1, off => do
    rejectIf (bytes.length < off + 32 + 4) (.sign .invalidEncoding)
    let node ← readHash bytes off
    let (publicKey, sig, off) ← readKeyAndSig P bytes (off + 32)
    let (proofs, off) ← readRelayProofs bytes n off
    return (⟨node, publicKey, sig⟩ :: proofs, off)

def DagTransaction.fromCanonical (bytes : Bytes) : Except (Fault DagError) DagTransaction := do
  rejectIf (bytes.length < 32 + 32 + 32 + 32 + 8 + 8 + 8) (.sign .invalidEncoding)
  let parent1 ← readHash bytes 0
  let parent2 ← readHash bytes 32
  let sender ← readHash bytes 64
  let recipient ← readHash bytes 96
  let amount ← readU64 bytes 128
  let fee ← readU64 bytes 136
  let nonce ← readU64 bytes 144
  let (publicKey, signature, off) ← readKeyAndSig P bytes 152
  rejectIf (bytes.length < off + 4) (.sign .invalidEncoding)
  let nRelays ← readU32 bytes off
  let (relayNodes, off) ← readRelayNodes bytes nRelays (off + 4)
  rejectIf (bytes.length < off + 4) (.sign .invalidEncoding)
  let nProofs ← readU32 bytes off
  let (relayProofs, _) ← readRelayProofs P bytes nProofs (off + 4)
  let tx : DagTransaction :=
    { id := 0
      parent1 := parent1
      parent2 := parent2
      senderKron1 := deriveKronAddress P publicKey
      sender := sender
      recipientKron1 := encodeKron recipient
      recipient := recipient
      amount := amount
      fee := fee
      nonce := nonce
      publicKey := publicKey
      signature := signature
      relayNodes := relayNodes
      relayProofs := relayProofs }
  return tx.refreshId P

/-! ## Each field read back -/

section ReadBack

variable {P} {bytes : Bytes} {off : ℕ}

theorem readHash_at {h : Hash} (hat : At bytes off (hashBytes h)) :
    readHash bytes off = .ok h := by
  rw [readHash, slice_at hat (length_hashBytes h)]
  exact congrArg Except.ok (hashOfBytes_hashBytes h)

theorem length_toBytes_key {pk : LatticePublicKey} (h : pk.raw.length = pkLen) :
    pk.toBytes.length = 1317 := by
  rw [LatticePublicKey.toBytes, length_encodeBlob, h, pkLen]

theorem length_toBytes_sig {sig : LatticeSignature} (h : sig.bytes.length = sigLen) :
    sig.toBytes.length = 2425 := by
  rw [LatticeSignature.toBytes, length_encodeBlob, h, sigLen]

/-- The key and signature of a verified message are read back. -/
theorem readKeyAndSig_at {pk : LatticePublicKey} {sig : LatticeSignature} {m : Bytes}
    (hv : pk.verify P m sig = true)
    (hat : At bytes off (pk.toBytes ++ leBytes 4 (sig.toBytes.length % 2 ^ 32) ++ sig.toBytes)) :
    readKeyAndSig P bytes off = .ok (pk, sig, off + 3746) := by
  obtain ⟨hpk, hok, hsig⟩ := LatticePublicKey.verify_facts hv
  have hpl := length_toBytes_key hpk
  have hsl := length_toBytes_sig hsig
  have hle := hat.le
  simp only [List.length_append, length_leBytes, hpl, hsl] at hle
  have hkey : At bytes off pk.toBytes := hat.left.left
  have hlen : At bytes (off + 1317) (leBytes 4 (sig.toBytes.length % 2 ^ 32)) := by
    have h := hat.left.right
    rwa [hpl] at h
  have hsb : At bytes (off + 1317 + 4) sig.toBytes := by
    have h := hat.right
    rwa [List.length_append, hpl, length_leBytes, ← Nat.add_assoc] at h
  have hblob : LatticePublicKey.encodedLen bytes off = .ok 1317 := blobLen_at hkey hpk (by decide)
  have hslen : readU32 (ε := DagError) bytes (off + 1317) = .ok 2425 := by
    rw [hsl] at hlen
    exact readU32_at hlen (by decide)
  have h1 : ¬ bytes.length < off + 1317 + 4 := by omega
  have h2 : ¬ bytes.length < off + 1317 + 4 + 2425 := by omega
  simp only [readKeyAndSig, bind, Except.bind, pure, Except.pure, hblob, asSign,
    rejectIf_of_not h1, slice_at hkey hpl, LatticePublicKey.fromBytes_toBytes hpk hok, hslen,
    rejectIf_of_not h2, slice_at hsb hsl, LatticeSignature.fromBytes_toBytes hsig]

theorem length_flatMap_hashBytes (nodes : List Address) :
    (nodes.flatMap hashBytes).length = 32 * nodes.length := by
  simp only [List.length_flatMap, length_hashBytes, List.map_const', List.sum_replicate]
  rw [Nat.nsmul_eq_mul, Nat.mul_comm]

theorem readRelayNodes_at : ∀ (nodes : List Address) (off : ℕ),
    At bytes off (nodes.flatMap hashBytes) →
      readRelayNodes bytes nodes.length off = .ok (nodes, off + 32 * nodes.length)
  | [], _, _ => rfl
  | node :: nodes, off, hat => by
    rw [List.flatMap_cons] at hat
    have hle := hat.left.le
    rw [length_hashBytes] at hle
    have hrest : At bytes (off + 32) (nodes.flatMap hashBytes) := by
      have h := hat.right
      rwa [length_hashBytes] at h
    have h1 : ¬ bytes.length < off + 32 := by omega
    have hoff : off + 32 + 32 * nodes.length = off + 32 * (nodes.length + 1) := by omega
    simp only [List.length_cons, readRelayNodes, bind, Except.bind, pure, Except.pure,
      rejectIf_of_not h1, readHash_at hat.left, readRelayNodes_at nodes _ hrest, hoff]

/-- A proof is refused: the low byte of its key's length, 1317, is no scheme. -/
theorem readRelayProofs_at {proof : RelayProof} {proofs : List RelayProof} {n : ℕ}
    (hpk : proof.publicKey.raw.length = pkLen)
    (hat : At bytes off ((proof :: proofs).flatMap relayProofBytes)) :
    readRelayProofs P bytes (n + 1) off = .error (.err (.sign .invalidEncoding)) := by
  have hpl := length_toBytes_key hpk
  rw [List.flatMap_cons] at hat
  have hproof := hat.left
  unfold relayProofBytes at hproof
  simp only [hpl, List.append_assoc] at hproof
  have hle := hproof.le
  simp only [List.length_append, length_hashBytes, length_leBytes, hpl] at hle
  have htag : At bytes (off + 32) [37] := by
    have h := hproof.right.left
    rw [length_hashBytes] at h
    exact (show leBytes 4 (1317 % 2 ^ 32) = [37] ++ [5, 0, 0] by decide) ▸ h |>.left
  have h1 : ¬ bytes.length < off + 32 + 4 := by omega
  have h2 : ¬ bytes.length < off + 32 + 5 := by omega
  have h3 : (37 : UInt8) ≠ schemeToyLwe := by decide
  have h4 : rejectIf ((37 : UInt8) ≠ schemeMldsa44) CryptoError.invalidEncoding
      = .error (.err .invalidEncoding) := by decide
  simp only [readRelayProofs, readKeyAndSig, LatticePublicKey.encodedLen, blobLen, bind,
    Except.bind, rejectIf_of_not h1, readHash_at hproof.left, rejectIf_of_not h2,
    byteAt_at htag, rejectIf_of_not h3, h4, asSign]

end ReadBack

/-! ## The round trip -/

section RoundTrip

variable {P} {tx : DagTransaction}

/-- The seven fields before the key, each where the decoder reads it. -/
theorem header_at {bytes suf : Bytes}
    (hat : At bytes 0 (hashBytes tx.parent1 ++ (hashBytes tx.parent2 ++ (hashBytes tx.sender
      ++ (hashBytes tx.recipient ++ (leBytes 8 tx.amount.toNat ++ (leBytes 8 tx.fee.toNat
      ++ (leBytes 8 tx.nonce.toNat ++ suf)))))))) :
    (At bytes 0 (hashBytes tx.parent1) ∧ At bytes 32 (hashBytes tx.parent2)
      ∧ At bytes 64 (hashBytes tx.sender) ∧ At bytes 96 (hashBytes tx.recipient))
      ∧ (At bytes 128 (leBytes 8 tx.amount.toNat) ∧ At bytes 136 (leBytes 8 tx.fee.toNat)
        ∧ At bytes 144 (leBytes 8 tx.nonce.toNat)) ∧ At bytes 152 suf := by
  have h1 := hat.right
  rw [length_hashBytes] at h1
  have h2 := h1.right
  rw [length_hashBytes] at h2
  have h3 := h2.right
  rw [length_hashBytes] at h3
  have h4 := h3.right
  rw [length_hashBytes] at h4
  have h5 := h4.right
  rw [length_leBytes] at h5
  have h6 := h5.right
  rw [length_leBytes] at h6
  have h7 := h6.right
  rw [length_leBytes] at h7
  exact ⟨⟨hat.left, h1.left, h2.left, h3.left⟩, ⟨h4.left, h5.left, h6.left⟩, h7⟩

/-- What stands behind the header: the key with the signature, then the two lists. -/
theorem tail_at {bytes : Bytes} {pk : LatticePublicKey} {sig : LatticeSignature}
    {nodes : List Address} {proofs : Bytes} {np : ℕ}
    (hpk : pk.raw.length = pkLen) (hsl : sig.bytes.length = sigLen)
    (hat : At bytes 152 (pk.toBytes ++ (leBytes 4 (sig.toBytes.length % 2 ^ 32)
      ++ (sig.toBytes ++ (leBytes 4 nodes.length ++ (nodes.flatMap hashBytes
      ++ (leBytes 4 np ++ proofs))))))) :
    At bytes 152 (pk.toBytes ++ leBytes 4 (sig.toBytes.length % 2 ^ 32) ++ sig.toBytes)
      ∧ At bytes 3898 (leBytes 4 nodes.length) ∧ At bytes 3902 (nodes.flatMap hashBytes)
      ∧ At bytes (3902 + 32 * nodes.length) (leBytes 4 np)
      ∧ At bytes (3902 + 32 * nodes.length + 4) proofs := by
  simp only [← List.append_assoc] at hat
  have hks := hat.left.left.left.left
  have h1 := hat.left.left.left.right
  have h2 := hat.left.left.right
  have h3 := hat.left.right
  have h4 := hat.right
  simp only [List.length_append, length_toBytes_key hpk, length_toBytes_sig hsl, length_leBytes,
    length_flatMap_hashBytes, ← Nat.add_assoc, Nat.reduceAdd] at h1 h2 h3 h4
  exact ⟨hks, h1, h2, h3, h4⟩

theorem canonicalBytes_eq (hn : tx.relayNodes.length < 2 ^ 32)
    (hp : tx.relayProofs.length < 2 ^ 32) :
    tx.canonicalBytes = hashBytes tx.parent1 ++ (hashBytes tx.parent2 ++ (hashBytes tx.sender
      ++ (hashBytes tx.recipient ++ (leBytes 8 tx.amount.toNat ++ (leBytes 8 tx.fee.toNat
      ++ (leBytes 8 tx.nonce.toNat ++ (tx.publicKey.toBytes
      ++ (leBytes 4 (tx.signature.toBytes.length % 2 ^ 32) ++ (tx.signature.toBytes
      ++ (leBytes 4 tx.relayNodes.length ++ (tx.relayNodes.flatMap hashBytes
      ++ (leBytes 4 tx.relayProofs.length
      ++ tx.relayProofs.flatMap relayProofBytes)))))))))))) := by
  simp only [DagTransaction.canonicalBytes, DagTransaction.unsignedBytes, List.append_assoc,
    Nat.mod_eq_of_lt hn, Nat.mod_eq_of_lt hp]

/-- Decoding a verified vertex comes down to reading its proofs, whatever stands behind it. -/
theorem fromCanonical_at {bytes : Bytes} (hsig : tx.verifySignature P = true)
    (hid : tx.id = DagTransaction.computeId P tx.unsignedBytes)
    (hn : tx.relayNodes.length < 2 ^ 32) (hp : tx.relayProofs.length < 2 ^ 32)
    (hat : At bytes 0 tx.canonicalBytes) :
    ∃ off, At bytes off (tx.relayProofs.flatMap relayProofBytes) ∧
      DagTransaction.fromCanonical P bytes
        = (readRelayProofs P bytes tx.relayProofs.length off).map
            fun r => { tx with relayProofs := r.1 } := by
  simp only [DagTransaction.verifySignature, Bool.and_eq_true, beq_iff_eq] at hsig
  obtain ⟨⟨⟨-, hkron⟩, hrec⟩, hv⟩ := hsig
  obtain ⟨hpk, -, hsl⟩ := LatticePublicKey.verify_facts hv
  rw [canonicalBytes_eq hn hp] at hat
  obtain ⟨⟨hp1, hp2, hs, hr⟩, ⟨ha, hf, hno⟩, htail⟩ := header_at hat
  obtain ⟨hks, hnc, hnodes, hpc, hproofs⟩ := tail_at hpk hsl htail
  have hle := hpc.le
  rw [length_leBytes] at hle
  have h1 : ¬ bytes.length < 32 + 32 + 32 + 32 + 8 + 8 + 8 := by omega
  have h2 : ¬ bytes.length < 3902 := by omega
  have h3 : ¬ bytes.length < 3902 + 32 * tx.relayNodes.length + 4 := by omega
  refine ⟨_, hproofs, ?_⟩
  simp only [DagTransaction.fromCanonical, rejectIf_of_not h1, readHash_at hp1, readHash_at hp2,
    readHash_at hs, readHash_at hr, readU64_at ha, readU64_at hf, readU64_at hno,
    readKeyAndSig_at hv hks, ok_bind, Nat.reduceAdd, rejectIf_of_not h2, readU32_at hnc hn,
    readRelayNodes_at _ _ hnodes, rejectIf_of_not h3, readU32_at hpc hp]
  rcases readRelayProofs P bytes tx.relayProofs.length _ with e | ⟨proofs, rest⟩
  · rfl
  · rw [ok_bind, hkron, hrec]
    exact congrArg Except.ok (congrArg (fun id => { tx with id := id, relayProofs := proofs })
      hid.symm)

/-- A verified vertex without proofs is read back, whatever stands behind it. -/
theorem fromCanonical_of_nil_at {bytes : Bytes} (hsig : tx.verifySignature P = true)
    (hid : tx.id = DagTransaction.computeId P tx.unsignedBytes)
    (hn : tx.relayNodes.length < 2 ^ 32) (h : tx.relayProofs = [])
    (hat : At bytes 0 tx.canonicalBytes) : DagTransaction.fromCanonical P bytes = .ok tx := by
  obtain ⟨off, -, heq⟩ := fromCanonical_at hsig hid hn (by rw [h]; decide) hat
  have hread : readRelayProofs P bytes tx.relayProofs.length off = .ok ([], off) := by
    rw [h]
    rfl
  rw [heq, hread]
  change Except.ok { tx with relayProofs := [] } = Except.ok tx
  rw [← h]

theorem fromCanonical_of_nil (hsig : tx.verifySignature P = true)
    (hid : tx.id = DagTransaction.computeId P tx.unsignedBytes)
    (hn : tx.relayNodes.length < 2 ^ 32) (h : tx.relayProofs = []) :
    DagTransaction.fromCanonical P tx.canonicalBytes = .ok tx :=
  fromCanonical_of_nil_at hsig hid hn h (At.refl _)

theorem fromCanonical_of_proof (hsig : tx.verifySignature P = true)
    (hproofs : tx.verifyRelayProofs P = true)
    (hid : tx.id = DagTransaction.computeId P tx.unsignedBytes)
    (hn : tx.relayNodes.length < 2 ^ 32) (hp : tx.relayProofs.length < 2 ^ 32)
    (h : tx.relayProofs ≠ []) :
    DagTransaction.fromCanonical P tx.canonicalBytes
      = .error (.err (.sign .invalidEncoding)) := by
  obtain ⟨off, hat, heq⟩ := fromCanonical_at hsig hid hn hp (At.refl _)
  rcases hl : tx.relayProofs with _ | ⟨proof, proofs⟩
  · exact absurd hl h
  · have hpk := tx.verifyRelayProofs_length hproofs proof (by simp [hl])
    rw [hl] at hat heq
    rw [heq, List.length_cons, readRelayProofs_at hpk hat]
    rfl

/-- A verified vertex comes back from its wire form exactly when it carries no proof. -/
theorem fromCanonical_eq_ok_iff (hsig : tx.verifySignature P = true)
    (hproofs : tx.verifyRelayProofs P = true)
    (hid : tx.id = DagTransaction.computeId P tx.unsignedBytes)
    (hn : tx.relayNodes.length < 2 ^ 32) (hp : tx.relayProofs.length < 2 ^ 32) :
    DagTransaction.fromCanonical P tx.canonicalBytes = .ok tx ↔ tx.relayProofs = [] := by
  constructor
  · intro h
    by_contra hne
    rw [fromCanonical_of_proof hsig hproofs hid hn hp hne] at h
    cases h
  · exact fromCanonical_of_nil hsig hid hn

theorem length_readRelayNodes {bytes : Bytes} : ∀ (n off : ℕ) {r : List Address × ℕ},
    readRelayNodes bytes n off = .ok r → r.1.length = n
  | 0, _, _, h => by
    cases h
    rfl
  | n + 1, off, _, h => by
    obtain ⟨_, _, h⟩ := bind_eq_ok.1 h
    obtain ⟨_, _, h⟩ := bind_eq_ok.1 h
    obtain ⟨r, hr, h⟩ := bind_eq_ok.1 h
    cases h
    rw [List.length_cons, length_readRelayNodes n _ hr]

theorem length_readRelayProofs {bytes : Bytes} : ∀ (n off : ℕ) {r : List RelayProof × ℕ},
    readRelayProofs P bytes n off = .ok r → r.1.length = n
  | 0, _, _, h => by
    cases h
    rfl
  | n + 1, off, _, h => by
    obtain ⟨_, _, h⟩ := bind_eq_ok.1 h
    obtain ⟨_, _, h⟩ := bind_eq_ok.1 h
    obtain ⟨_, _, h⟩ := bind_eq_ok.1 h
    obtain ⟨r, hr, h⟩ := bind_eq_ok.1 h
    cases h
    rw [List.length_cons, length_readRelayProofs n _ hr]

/-! ## The decoder in two parts -/

/-- What stands in front of the two lists, with the length of the first and where that is read. -/
structure Front where
  parent1 : Hash
  parent2 : Hash
  sender : Hash
  recipient : Hash
  amount : UInt64
  fee : UInt64
  nonce : UInt64
  publicKey : LatticePublicKey
  signature : LatticeSignature
  nRelays : ℕ
  countOff : ℕ

variable (P) in
/-- The decoder up to the first list. -/
def readFront (bytes : Bytes) : Except (Fault DagError) Front := do
  rejectIf (bytes.length < 32 + 32 + 32 + 32 + 8 + 8 + 8) (.sign .invalidEncoding)
  let parent1 ← readHash bytes 0
  let parent2 ← readHash bytes 32
  let sender ← readHash bytes 64
  let recipient ← readHash bytes 96
  let amount ← readU64 bytes 128
  let fee ← readU64 bytes 136
  let nonce ← readU64 bytes 144
  let (publicKey, signature, off) ← readKeyAndSig P bytes 152
  rejectIf (bytes.length < off + 4) (.sign .invalidEncoding)
  let nRelays ← readU32 bytes off
  return ⟨parent1, parent2, sender, recipient, amount, fee, nonce, publicKey, signature, nRelays,
    off⟩

namespace Front

variable (P) in
def vertex (fr : Front) (relayNodes : List Address) (relayProofs : List RelayProof) :
    DagTransaction :=
  DagTransaction.refreshId P
    { id := 0
      parent1 := fr.parent1
      parent2 := fr.parent2
      senderKron1 := deriveKronAddress P fr.publicKey
      sender := fr.sender
      recipientKron1 := encodeKron fr.recipient
      recipient := fr.recipient
      amount := fr.amount
      fee := fr.fee
      nonce := fr.nonce
      publicKey := fr.publicKey
      signature := fr.signature
      relayNodes := relayNodes
      relayProofs := relayProofs }

variable (P) in
/-- The decoder from the first list on. -/
def readLists (bytes : Bytes) (fr : Front) : Except (Fault DagError) DagTransaction := do
  let (relayNodes, off) ← readRelayNodes bytes fr.nRelays (fr.countOff + 4)
  rejectIf (bytes.length < off + 4) (.sign .invalidEncoding)
  let nProofs ← readU32 bytes off
  let (relayProofs, _) ← readRelayProofs P bytes nProofs (off + 4)
  return fr.vertex P relayNodes relayProofs

end Front

/-- Each part of `fr` is what is read at its place. -/
structure Front.Stands (P : Primitives) (bytes : Bytes) (fr : Front) : Prop where
  header : ¬ bytes.length < 32 + 32 + 32 + 32 + 8 + 8 + 8
  parent1 : readHash bytes 0 = .ok fr.parent1
  parent2 : readHash bytes 32 = .ok fr.parent2
  sender : readHash bytes 64 = .ok fr.sender
  recipient : readHash bytes 96 = .ok fr.recipient
  amount : readU64 (ε := DagError) bytes 128 = .ok fr.amount
  fee : readU64 (ε := DagError) bytes 136 = .ok fr.fee
  nonce : readU64 (ε := DagError) bytes 144 = .ok fr.nonce
  keyAndSig : readKeyAndSig P bytes 152 = .ok (fr.publicKey, fr.signature, fr.countOff)
  room : ¬ bytes.length < fr.countOff + 4
  count : readU32 (ε := DagError) bytes fr.countOff = .ok fr.nRelays

theorem readFront_eq_ok {bytes : Bytes} {fr : Front} :
    readFront P bytes = .ok fr ↔ fr.Stands P bytes := by
  constructor
  · intro h
    obtain ⟨_, hheader, h⟩ := bind_eq_ok.1 h
    obtain ⟨_, hparent1, h⟩ := bind_eq_ok.1 h
    obtain ⟨_, hparent2, h⟩ := bind_eq_ok.1 h
    obtain ⟨_, hsender, h⟩ := bind_eq_ok.1 h
    obtain ⟨_, hrecipient, h⟩ := bind_eq_ok.1 h
    obtain ⟨_, hamount, h⟩ := bind_eq_ok.1 h
    obtain ⟨_, hfee, h⟩ := bind_eq_ok.1 h
    obtain ⟨_, hnonce, h⟩ := bind_eq_ok.1 h
    obtain ⟨⟨_, _, _⟩, hks, h⟩ := bind_eq_ok.1 h
    obtain ⟨_, hroom, h⟩ := bind_eq_ok.1 h
    obtain ⟨_, hcount, h⟩ := bind_eq_ok.1 h
    cases h
    exact ⟨rejectIf_eq_ok.1 hheader, hparent1, hparent2, hsender, hrecipient, hamount, hfee, hnonce,
      hks, rejectIf_eq_ok.1 hroom, hcount⟩
  · intro h
    simp only [readFront, rejectIf_of_not h.header, h.parent1, h.parent2, h.sender, h.recipient,
      h.amount, h.fee, h.nonce, h.keyAndSig, rejectIf_of_not h.room, h.count, ok_bind]
    rfl

theorem fromCanonical_eq (bytes : Bytes) :
    DagTransaction.fromCanonical P bytes = readFront P bytes >>= Front.readLists P bytes := by
  simp only [DagTransaction.fromCanonical, readFront, bind_assoc]
  refine bind_congr fun _ => bind_congr fun _ => bind_congr fun _ => bind_congr fun _ =>
    bind_congr fun _ => bind_congr fun _ => bind_congr fun _ => bind_congr fun _ =>
      bind_congr fun ks => ?_
  obtain ⟨publicKey, signature, off⟩ := ks
  simp only [pure_bind]
  rfl

theorem fromCanonical_eq_ok {bytes : Bytes} : DagTransaction.fromCanonical P bytes = .ok tx ↔
    ∃ fr nodes off proofs last, readFront P bytes = .ok fr
      ∧ readRelayNodes bytes fr.nRelays (fr.countOff + 4) = .ok (nodes, off)
      ∧ ¬ bytes.length < off + 4 ∧ readU32 (ε := DagError) bytes off = .ok proofs.length
      ∧ readRelayProofs P bytes proofs.length (off + 4) = .ok (proofs, last)
      ∧ tx = fr.vertex P nodes proofs := by
  rw [fromCanonical_eq]
  constructor
  · intro h
    obtain ⟨fr, hfront, h⟩ := bind_eq_ok.1 h
    obtain ⟨⟨nodes, off⟩, hnodes, h⟩ := bind_eq_ok.1 h
    obtain ⟨_, hroom, h⟩ := bind_eq_ok.1 h
    obtain ⟨k, hk, h⟩ := bind_eq_ok.1 h
    obtain ⟨⟨proofs, last⟩, hproofs, h⟩ := bind_eq_ok.1 h
    cases h
    obtain rfl : proofs.length = k := length_readRelayProofs k _ hproofs
    exact ⟨fr, nodes, off, proofs, last, hfront, hnodes, rejectIf_eq_ok.1 hroom, hk, hproofs, rfl⟩
  · rintro ⟨fr, nodes, off, proofs, last, hfront, hnodes, hroom, hk, hproofs, rfl⟩
    simp only [hfront, ok_bind, Front.readLists, hnodes, rejectIf_of_not hroom, hk, hproofs]
    rfl

/-- What the decoder returns has the id of its fields, and lists no longer than a count can say. -/
theorem fromCanonical_facts {bytes : Bytes} (h : DagTransaction.fromCanonical P bytes = .ok tx) :
    tx.id = DagTransaction.computeId P tx.unsignedBytes ∧ tx.relayNodes.length < 2 ^ 32
      ∧ tx.relayProofs.length < 2 ^ 32 := by
  obtain ⟨fr, nodes, off, proofs, last, hfront, hnodes, -, hk, -, rfl⟩ := fromCanonical_eq_ok.1 h
  have hn : nodes.length = fr.nRelays := length_readRelayNodes _ _ hnodes
  refine ⟨rfl, ?_, readU32_lt hk⟩
  show nodes.length < 2 ^ 32
  rw [hn]
  exact readU32_lt (readFront_eq_ok.1 hfront).count

/-- A checked vertex that comes back from its bytes has no carriers, and so always one length. -/
theorem length_canonicalBytes_of_checked (hsig : tx.verifySignature P = true)
    (hrel : tx.verifyRelayProofs P = true)
    (hfc : DagTransaction.fromCanonical P tx.canonicalBytes = .ok tx) :
    tx.canonicalBytes.length = 3906 := by
  obtain ⟨hid, hn, hp⟩ := fromCanonical_facts hfc
  have hnil : tx.relayProofs = [] := by
    by_contra hne
    rw [fromCanonical_of_proof hsig hrel hid hn hp hne] at hfc
    cases hfc
  have hnodes : tx.relayNodes = [] := tx.relayNodes_nil hrel hnil
  simp only [DagTransaction.verifySignature, Bool.and_eq_true] at hsig
  obtain ⟨hpk, -, hsl⟩ := LatticePublicKey.verify_facts hsig.2
  rw [canonicalBytes_eq hn hp, hnil, hnodes]
  simp only [List.length_append, length_hashBytes, length_leBytes, length_toBytes_key hpk,
    length_toBytes_sig hsl, List.flatMap_nil, List.length_nil]

/-! ## The decoder reads within its bytes -/

theorem asSign_ne_panic {β : Type} {x : Except (Fault CryptoError) β} (h : x ≠ .error .panic) :
    asSign x ≠ .error .panic := by
  rcases x with (e | _) | b
  · exact nofun
  · exact absurd rfl h
  · exact nofun

theorem asSign_eq_ok {β : Type} {x : Except (Fault CryptoError) β} {b : β}
    (h : asSign x = .ok b) : x = .ok b := by
  rcases x with (e | _) | c
  · cases h
  · cases h
  · cases h
    rfl

theorem blobLen_ne_panic {bytes : Bytes} {off n : ℕ} : blobLen bytes off n ≠ .error .panic := by
  refine bind_ne_panic rejectIf_ne_panic fun _ hlen => ?_
  have hle := rejectIf_eq_ok.1 hlen
  refine bind_ne_panic (byteAt_ne_panic (by omega)) fun _ _ => ?_
  refine bind_ne_panic rejectIf_ne_panic fun _ _ => ?_
  refine bind_ne_panic rejectIf_ne_panic fun _ _ => ?_
  refine bind_ne_panic (readU32_ne_panic (by omega)) fun _ _ => ?_
  refine bind_ne_panic rejectIf_ne_panic fun _ _ => ?_
  exact bind_ne_panic rejectIf_ne_panic fun _ _ => nofun

/-- An envelope that is measured is within its bytes. -/
theorem blobLen_le {bytes : Bytes} {off n len : ℕ} (h : blobLen bytes off n = .ok len) :
    off + len ≤ bytes.length ∧ 5 ≤ len := by
  obtain ⟨_, _, h⟩ := bind_eq_ok.1 h
  obtain ⟨_, _, h⟩ := bind_eq_ok.1 h
  obtain ⟨_, _, h⟩ := bind_eq_ok.1 h
  obtain ⟨_, _, h⟩ := bind_eq_ok.1 h
  obtain ⟨k, _, h⟩ := bind_eq_ok.1 h
  obtain ⟨_, _, h⟩ := bind_eq_ok.1 h
  obtain ⟨_, hle, h⟩ := bind_eq_ok.1 h
  cases h
  have := rejectIf_eq_ok.1 hle
  omega

theorem decodeBlob_ne_panic {bytes : Bytes} {n : ℕ} : decodeBlob bytes n ≠ .error .panic :=
  bind_ne_panic blobLen_ne_panic fun _ hlen => by
    have := blobLen_le hlen
    exact slice_ne_panic (by omega)

theorem readHash_ne_panic {bytes : Bytes} {off : ℕ} (h : off + 32 ≤ bytes.length) :
    readHash bytes off ≠ .error .panic :=
  bind_ne_panic (slice_ne_panic h) fun _ _ => nofun

theorem readKeyAndSig_ne_panic {bytes : Bytes} {off : ℕ} :
    readKeyAndSig P bytes off ≠ .error .panic := by
  refine bind_ne_panic (asSign_ne_panic blobLen_ne_panic) fun n hn => ?_
  have hle := (blobLen_le (asSign_eq_ok hn)).1
  refine bind_ne_panic rejectIf_ne_panic fun _ hlen => ?_
  have hlen := rejectIf_eq_ok.1 hlen
  refine bind_ne_panic (slice_ne_panic hle) fun _ _ => ?_
  refine bind_ne_panic (asSign_ne_panic ?_) fun _ _ => ?_
  · refine bind_ne_panic decodeBlob_ne_panic fun _ _ => ?_
    refine bind_ne_panic rejectIf_ne_panic fun _ _ => ?_
    exact bind_ne_panic rejectIf_ne_panic fun _ _ => nofun
  refine bind_ne_panic (readU32_ne_panic (by omega)) fun _ _ => ?_
  refine bind_ne_panic rejectIf_ne_panic fun _ hsig => ?_
  have hsig := rejectIf_eq_ok.1 hsig
  refine bind_ne_panic (slice_ne_panic (by omega)) fun _ _ => ?_
  refine bind_ne_panic (asSign_ne_panic ?_) fun _ _ => nofun
  exact bind_ne_panic decodeBlob_ne_panic fun _ _ => nofun

theorem readRelayNodes_ne_panic {bytes : Bytes} : ∀ n off,
    readRelayNodes bytes n off ≠ .error .panic
  | 0, _ => nofun
  | n + 1, off => by
    refine bind_ne_panic rejectIf_ne_panic fun _ hlen => ?_
    have hlen := rejectIf_eq_ok.1 hlen
    refine bind_ne_panic (readHash_ne_panic (by omega)) fun _ _ => ?_
    exact bind_ne_panic (readRelayNodes_ne_panic n _) fun _ _ => nofun

theorem readRelayProofs_ne_panic {bytes : Bytes} : ∀ n off,
    readRelayProofs P bytes n off ≠ .error .panic
  | 0, _ => nofun
  | n + 1, off => by
    refine bind_ne_panic rejectIf_ne_panic fun _ hlen => ?_
    have hlen := rejectIf_eq_ok.1 hlen
    refine bind_ne_panic (readHash_ne_panic (by omega)) fun _ _ => ?_
    refine bind_ne_panic readKeyAndSig_ne_panic fun _ _ => ?_
    exact bind_ne_panic (readRelayProofs_ne_panic n _) fun _ _ => nofun

/-- Whatever bytes it is handed, the decoder does not panic. -/
theorem fromCanonical_ne_panic (bytes : Bytes) :
    DagTransaction.fromCanonical P bytes ≠ .error .panic := by
  refine bind_ne_panic rejectIf_ne_panic fun _ hlen => ?_
  have hlen := rejectIf_eq_ok.1 hlen
  refine bind_ne_panic (readHash_ne_panic (by omega)) fun _ _ => ?_
  refine bind_ne_panic (readHash_ne_panic (by omega)) fun _ _ => ?_
  refine bind_ne_panic (readHash_ne_panic (by omega)) fun _ _ => ?_
  refine bind_ne_panic (readHash_ne_panic (by omega)) fun _ _ => ?_
  refine bind_ne_panic (readU64_ne_panic (by omega)) fun _ _ => ?_
  refine bind_ne_panic (readU64_ne_panic (by omega)) fun _ _ => ?_
  refine bind_ne_panic (readU64_ne_panic (by omega)) fun _ _ => ?_
  refine bind_ne_panic readKeyAndSig_ne_panic fun _ _ => ?_
  refine bind_ne_panic rejectIf_ne_panic fun _ hnodes => ?_
  have hnodes := rejectIf_eq_ok.1 hnodes
  refine bind_ne_panic (readU32_ne_panic (by omega)) fun _ _ => ?_
  refine bind_ne_panic (readRelayNodes_ne_panic _ _) fun _ _ => ?_
  refine bind_ne_panic rejectIf_ne_panic fun _ hproofs => ?_
  have hproofs := rejectIf_eq_ok.1 hproofs
  refine bind_ne_panic (readU32_ne_panic (by omega)) fun _ _ => ?_
  exact bind_ne_panic (readRelayProofs_ne_panic _ _) fun _ _ => nofun

end RoundTrip

section Examples

open StandIn

/-- A transfer as a phone sends it. -/
def plainTransfer : DagTransaction :=
  transfer 6002515694306 1 1 1 (address 2) 1000 0

/-- The same transfer after a carrier has put its proof beside it. -/
def carriedTransfer : DagTransaction := carried plainTransfer 3

/-- The body of a transfer without carriers, 3906 bytes. -/
theorem length_canonicalBytes_transfer (id : TxHash) (n : ℕ) (p1 p2 : TxHash) (r : Address)
    (a m : UInt64) : (transfer id n p1 p2 r a m).canonicalBytes.length = 3906 := by
  have hpk : (transfer id n p1 p2 r a m).publicKey.toBytes.length = 5 + pkLen :=
    length_toBytes_key (List.length_replicate ..)
  have hsig : (transfer id n p1 p2 r a m).signature.toBytes.length = 5 + sigLen :=
    length_toBytes_sig (List.length_replicate ..)
  have hnodes : (transfer id n p1 p2 r a m).relayNodes = [] := rfl
  have hproofs : (transfer id n p1 p2 r a m).relayProofs = [] := rfl
  simp only [DagTransaction.canonicalBytes, List.length_append, DagTransaction.length_unsignedBytes,
    length_leBytes, hpk, hsig, hnodes, hproofs, List.flatMap_nil, List.length_nil]
  rfl

theorem id_plainTransfer :
    plainTransfer.id = DagTransaction.computeId primitives plainTransfer.unsignedBytes := by
  decide

theorem fromCanonical_plainTransfer :
    DagTransaction.fromCanonical primitives plainTransfer.canonicalBytes = .ok plainTransfer :=
  (fromCanonical_eq_ok_iff (verify_signed _ _ _ _ _ _ _ _) rfl id_plainTransfer (by decide)
    (by decide)).2 rfl

theorem fromCanonical_carriedTransfer :
    carriedTransfer.verifySignature primitives = true
      ∧ carriedTransfer.verifyRelayProofs primitives = true
      ∧ carriedTransfer.id = DagTransaction.computeId primitives carriedTransfer.unsignedBytes
      ∧ carriedTransfer.relayNodes.length < 2 ^ 32 ∧ carriedTransfer.relayProofs.length < 2 ^ 32
      ∧ DagTransaction.fromCanonical primitives carriedTransfer.canonicalBytes
        ≠ .ok carriedTransfer := by
  have hv : carriedTransfer.verifySignature primitives = true
      ∧ carriedTransfer.verifyRelayProofs primitives = true :=
    verify_carried (verify_signed _ _ _ _ _ _ _ _) 3
  refine ⟨hv.1, hv.2, id_plainTransfer, by decide, by decide, ?_⟩
  rw [fromCanonical_of_proof hv.1 hv.2 id_plainTransfer (by decide)
    (by decide) (by simp [carriedTransfer, carried])]
  intro h
  cases h

end Examples

end KronMesh
