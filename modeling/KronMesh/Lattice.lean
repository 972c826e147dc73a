import KronMesh.Bech32

/-!
# Keys, signatures and their envelopes

ML-DSA-44 keys and signatures in their versioned envelope: one scheme byte, a length, the raw
bytes. SHA-256 and `fips204` are not part of the repository; what the code calls of them is the
structure `Primitives`, over which everything is stated.
-/

namespace KronMesh

open Wire

inductive CryptoError
  | verifyFailed
  | signingAborted (attempts : ℕ)
  | invalidEncoding
  | obsoleteScheme
  deriving DecidableEq, Repr

/-- What the code calls of the `sha2` and `fips204` crates. -/
structure Primitives where
  sha256 : Bytes → Hash
  /-- `KG::keygen_from_seed`: the public and the secret key bytes. -/
  keygenFromSeed : Hash → Bytes × Bytes
  /-- Whether `PublicKey::try_from_bytes` accepts. -/
  publicKeyOk : Bytes → Bool
  /-- Whether `PrivateKey::try_from_bytes` accepts. -/
  secretKeyOk : Bytes → Bool
  /-- `try_sign` of a secret key, a message and a context. The crate draws at random, and this is
  one way its draws come out. -/
  trySign : Bytes → Bytes → Bytes → Option Bytes
  /-- `verify` of a public key, a message, a signature and a context. -/
  verify : Bytes → Bytes → Bytes → Bytes → Bool

def schemeToyLwe : UInt8 := 1

def schemeMldsa44 : UInt8 := 2

/-- `b"KRON"`. -/
def mlDsaCtx : Bytes := [75, 82, 79, 78]

def pkLen : ℕ := 1312

def skLen : ℕ := 2560

def sigLen : ℕ := 2420

def encodeBlob (scheme : UInt8) (raw : Bytes) : Bytes :=
  [scheme] ++ leBytes 4 (raw.length % 2 ^ 32) ++ raw

def blobLen (bytes : Bytes) (off expected : ℕ) : Except (Fault CryptoError) ℕ := do
  rejectIf (bytes.length < off + 5) .invalidEncoding
  let tag ← byteAt bytes off
  rejectIf (tag = schemeToyLwe) .obsoleteScheme
  rejectIf (tag ≠ schemeMldsa44) .invalidEncoding
  let n ← readU32 bytes (off + 1)
  rejectIf (n ≠ expected) .invalidEncoding
  rejectIf (bytes.length < off + 5 + n) .invalidEncoding
  return 5 + n

def decodeBlob (bytes : Bytes) (expected : ℕ) : Except (Fault CryptoError) Bytes := do
  let n ← blobLen bytes 0 expected
  slice bytes 5 (n - 5)

structure LatticePublicKey where
  raw : Bytes
  deriving DecidableEq

structure LatticeSecretKey where
  raw : Bytes
  deriving DecidableEq

structure LatticeSignature where
  bytes : Bytes
  deriving DecidableEq

structure LatticeKeyPair where
  pub : LatticePublicKey
  secret : LatticeSecretKey

variable (P : Primitives)

def LatticeKeyPair.fromSeed (seed : Hash) : LatticeKeyPair :=
  ⟨⟨(P.keygenFromSeed seed).1⟩, ⟨(P.keygenFromSeed seed).2⟩⟩

def LatticeSecretKey.sign (sk : LatticeSecretKey) (message : Bytes) :
    Except CryptoError LatticeSignature :=
  if sk.raw.length ≠ skLen ∨ P.secretKeyOk sk.raw = false then .error .invalidEncoding
  else
    match P.trySign sk.raw message mlDsaCtx with
    | some sig => .ok ⟨sig⟩
    | none => .error (.signingAborted 1)

def LatticePublicKey.verify (pk : LatticePublicKey) (message : Bytes) (sig : LatticeSignature) :
    Bool :=
  pk.raw.length == pkLen && P.publicKeyOk pk.raw && sig.bytes.length == sigLen
    && P.verify pk.raw message sig.bytes mlDsaCtx

/-- What the code relies on of the keys of a wallet: they sign, and what they sign verifies. -/
structure LatticeKeyPair.Signs (w : LatticeKeyPair) : Prop where
  signs : ∀ message, ∃ sig, w.secret.sign P message = .ok sig
  verifies : ∀ message sig, w.secret.sign P message = .ok sig → w.pub.verify P message sig = true

def LatticeSecretKey.toBytes (sk : LatticeSecretKey) : Bytes := encodeBlob schemeMldsa44 sk.raw

def LatticeSecretKey.fromBytes (bytes : Bytes) : Except (Fault CryptoError) LatticeSecretKey := do
  let raw ← decodeBlob bytes skLen
  rejectIf (raw.length ≠ skLen) .invalidEncoding
  rejectIf (P.secretKeyOk raw = false) .invalidEncoding
  return ⟨raw⟩

def LatticePublicKey.toBytes (pk : LatticePublicKey) : Bytes := encodeBlob schemeMldsa44 pk.raw

def LatticePublicKey.fromBytes (bytes : Bytes) : Except (Fault CryptoError) LatticePublicKey := do
  let raw ← decodeBlob bytes pkLen
  rejectIf (raw.length ≠ pkLen) .invalidEncoding
  rejectIf (P.publicKeyOk raw = false) .invalidEncoding
  return ⟨raw⟩

def LatticePublicKey.address (pk : LatticePublicKey) : Address := P.sha256 pk.toBytes

def LatticePublicKey.encodedLen (bytes : Bytes) (off : ℕ) : Except (Fault CryptoError) ℕ :=
  blobLen bytes off pkLen

def LatticeSignature.toBytes (sig : LatticeSignature) : Bytes :=
  encodeBlob schemeMldsa44 sig.bytes

def LatticeSignature.fromBytes (bytes : Bytes) : Except (Fault CryptoError) LatticeSignature := do
  let raw ← decodeBlob bytes sigLen
  return ⟨raw⟩

/-- `derive_kron_address`. -/
def deriveKronAddress (pk : LatticePublicKey) : String := encodeKron (pk.address P)

/-! ## Reading an envelope back -/

theorem length_encodeBlob (scheme : UInt8) (raw : Bytes) :
    (encodeBlob scheme raw).length = 5 + raw.length := by
  simp only [encodeBlob, List.length_append, List.length_singleton, length_leBytes]

/-- An envelope of the expected length is measured where it stands. -/
theorem blobLen_at {bytes raw : Bytes} {off n : ℕ}
    (h : At bytes off (encodeBlob schemeMldsa44 raw)) (hn : raw.length = n) (h32 : n < 2 ^ 32) :
    blobLen bytes off n = .ok (5 + n) := by
  have hle := h.le
  rw [length_encodeBlob, hn] at hle
  have h' := h
  unfold encodeBlob at h'
  rw [List.append_assoc] at h'
  have hlen : At bytes (off + 1) (leBytes 4 (raw.length % 2 ^ 32)) := h'.right.left
  rw [hn, Nat.mod_eq_of_lt h32] at hlen
  have h1 : ¬ bytes.length < off + 5 := by omega
  have h2 : ¬ bytes.length < off + 5 + n := by omega
  have h3 : schemeMldsa44 ≠ schemeToyLwe := by decide
  simp only [blobLen, bind, Except.bind, pure, Except.pure, byteAt_at h'.left,
    readU32_at hlen h32, rejectIf_of_not h1, rejectIf_of_not h2, rejectIf_of_not h3,
    rejectIf_of_not (not_not_intro rfl)]

theorem decodeBlob_encodeBlob {raw : Bytes} {n : ℕ} (hn : raw.length = n) (h32 : n < 2 ^ 32) :
    decodeBlob (encodeBlob schemeMldsa44 raw) n = .ok raw := by
  have hat := At.refl (encodeBlob schemeMldsa44 raw)
  have hraw : At (encodeBlob schemeMldsa44 raw) 5 raw := by
    have h := hat
    unfold encodeBlob at h
    have h5 := h.right
    simp only [List.length_append, List.length_singleton, length_leBytes] at h5
    exact h5
  unfold decodeBlob
  rw [blobLen_at hat hn h32]
  exact slice_at hraw (by omega)

variable {P}

theorem LatticePublicKey.fromBytes_toBytes {pk : LatticePublicKey} (hlen : pk.raw.length = pkLen)
    (hok : P.publicKeyOk pk.raw = true) : fromBytes P pk.toBytes = .ok pk := by
  unfold fromBytes toBytes
  rw [decodeBlob_encodeBlob hlen (by decide)]
  have hok : ¬ P.publicKeyOk pk.raw = false := by simp [hok]
  simp only [bind, Except.bind, pure, Except.pure, rejectIf_of_not (not_not_intro hlen),
    rejectIf_of_not hok]

theorem LatticeSecretKey.fromBytes_toBytes {sk : LatticeSecretKey} (hlen : sk.raw.length = skLen)
    (hok : P.secretKeyOk sk.raw = true) : fromBytes P sk.toBytes = .ok sk := by
  unfold fromBytes toBytes
  rw [decodeBlob_encodeBlob hlen (by decide)]
  have hok : ¬ P.secretKeyOk sk.raw = false := by simp [hok]
  simp only [bind, Except.bind, pure, Except.pure, rejectIf_of_not (not_not_intro hlen),
    rejectIf_of_not hok]

/-- A key that is read has the length of a key, and is accepted. -/
theorem LatticeSecretKey.facts_of_fromBytes {bytes : Bytes} {sk : LatticeSecretKey}
    (h : fromBytes P bytes = .ok sk) : sk.raw.length = skLen ∧ P.secretKeyOk sk.raw = true := by
  obtain ⟨raw, -, h⟩ := bind_eq_ok.1 h
  obtain ⟨_, hlen, h⟩ := bind_eq_ok.1 h
  obtain ⟨_, hok, h⟩ := bind_eq_ok.1 h
  cases h
  exact ⟨not_not.1 (rejectIf_eq_ok.1 hlen), Bool.not_eq_false _ ▸ rejectIf_eq_ok.1 hok⟩

/-- From the bytes of a key, no other one is read. -/
theorem LatticeSecretKey.eq_of_fromBytes_toBytes {sk sk' : LatticeSecretKey}
    (hlen : sk.raw.length = skLen) (h : fromBytes P sk.toBytes = .ok sk') : sk' = sk := by
  obtain ⟨raw, hraw, h⟩ := bind_eq_ok.1 h
  obtain ⟨_, -, h⟩ := bind_eq_ok.1 h
  obtain ⟨_, -, h⟩ := bind_eq_ok.1 h
  rw [toBytes, decodeBlob_encodeBlob hlen (by decide)] at hraw
  cases hraw
  cases h
  rfl

theorem LatticeSignature.fromBytes_toBytes {sig : LatticeSignature}
    (hlen : sig.bytes.length = sigLen) : fromBytes sig.toBytes = .ok sig := by
  unfold fromBytes toBytes
  rw [decodeBlob_encodeBlob hlen (by decide)]
  rfl

/-- What is read as a signature begins with the byte of the scheme. -/
theorem LatticeSignature.tag_of_fromBytes {tag : UInt8} {rest : Bytes} {sig : LatticeSignature}
    (h : fromBytes (tag :: rest) = .ok sig) : tag = schemeMldsa44 := by
  obtain ⟨raw, h, -⟩ := bind_eq_ok.1 h
  obtain ⟨n, h, -⟩ := bind_eq_ok.1 h
  obtain ⟨_, -, h⟩ := bind_eq_ok.1 h
  obtain ⟨tag', htag, h⟩ := bind_eq_ok.1 h
  obtain ⟨_, -, h⟩ := bind_eq_ok.1 h
  obtain ⟨_, h, -⟩ := bind_eq_ok.1 h
  cases htag
  exact not_not.1 (rejectIf_eq_ok.1 h)

/-- What the code relies on of the keys that are generated: they have the length of a key, and are
taken back from their bytes. -/
structure Primitives.KeygenReadable (P : Primitives) : Prop where
  length : ∀ seed, (P.keygenFromSeed seed).1.length = pkLen
  ok : ∀ seed, P.publicKeyOk (P.keygenFromSeed seed).1 = true

/-- The bytes of a public key are private: a key comes from a seed or from the decoder. -/
inductive LatticePublicKey.Made (P : Primitives) : LatticePublicKey → Prop
  | fromSeed (seed : Hash) : Made P (LatticeKeyPair.fromSeed P seed).pub
  | fromBytes {bytes : Bytes} {pk : LatticePublicKey} :
    LatticePublicKey.fromBytes P bytes = .ok pk → Made P pk

theorem LatticePublicKey.Made.facts (hP : P.KeygenReadable) {pk : LatticePublicKey}
    (h : pk.Made P) : pk.raw.length = pkLen ∧ P.publicKeyOk pk.raw = true := by
  cases h with
  | fromSeed seed => exact ⟨hP.length seed, hP.ok seed⟩
  | fromBytes h =>
    obtain ⟨raw, -, h⟩ := bind_eq_ok.1 h
    obtain ⟨_, hlen, h⟩ := bind_eq_ok.1 h
    obtain ⟨_, hok, h⟩ := bind_eq_ok.1 h
    cases h
    exact ⟨not_not.1 (rejectIf_eq_ok.1 hlen), Bool.not_eq_false _ ▸ rejectIf_eq_ok.1 hok⟩

/-- A signature that verifies has a key and a length the decoder accepts. -/
theorem LatticePublicKey.verify_facts {pk : LatticePublicKey} {m : Bytes} {sig : LatticeSignature}
    (h : pk.verify P m sig = true) :
    pk.raw.length = pkLen ∧ P.publicKeyOk pk.raw = true ∧ sig.bytes.length = sigLen := by
  simp only [verify, Bool.and_eq_true, beq_iff_eq] at h
  exact ⟨h.1.1.1, h.1.1.2, h.1.2⟩

end KronMesh
