import KronMesh.Attestation
import KronMesh.Lib.Dialog
import KronMesh.MeshWire

/-!
# The handshake of two peers

Inside a Noise session each side shows its key with a quote of its device, and signs one transcript:
both nonces, both ids and the hash of the Noise handshake. HELLO and CHALLENGE are one encoding, and
both sides sign the same message. A side that returns has verified a signature of the key that it
was shown, on the transcript that it has computed (`ensures_performSecureHandshake`).
-/

namespace KronMesh.Handshake

open Wire

/-- `NetworkError` with what a Noise session adds to it. -/
inductive SessionError
  | network (e : NetworkError)
  | io (e : String)
  | antiBot (e : SecurityError)
  | crypto (e : CryptoError)
  deriving DecidableEq, Repr

def badFrame : SessionError := .network .badFrame

/-- `NetworkError::Handshake`. -/
def refused (msg : String) : SessionError := .network (.handshake msg)

/-- `map_err`, or `From` of the error type. -/
def mapFault {ε ε' β : Type} (f : ε → ε') : Except (Fault ε) β → Except (Fault ε') β
  | .ok b => .ok b
  | .error (.err e) => .error (.err (f e))
  | .error .panic => .error .panic

theorem mapFault_eq_ok {ε ε' β : Type} {f : ε → ε'} {x : Except (Fault ε) β} {b : β} :
    mapFault f x = .ok b ↔ x = .ok b := by
  rcases x with (e | _) | a
  · exact iff_of_false nofun nofun
  · exact iff_of_false nofun nofun
  · exact ⟨fun h => congrArg _ (Except.ok.inj h), fun h => congrArg _ (Except.ok.inj h)⟩

/-! ## Peers -/

inductive PeerRole
  | coreValidator
  | edgeMiner
  deriving DecidableEq, Repr

namespace PeerRole

def toU8 : PeerRole → UInt8
  | coreValidator => 0
  | edgeMiner => 1

def fromU8 (v : UInt8) : Option PeerRole :=
  if v = 0 then some coreValidator else if v = 1 then some edgeMiner else none

@[simp] theorem fromU8_toU8 (r : PeerRole) : fromU8 r.toU8 = some r := by
  cases r <;> rfl

end PeerRole

inductive SocketAddr
  | v4 (ip : Ipv4) (port : UInt16)
  | v6 (ip : BitVec 128) (port : UInt16)
  deriving DecidableEq

def ipv4Octets : SocketAddr → Option Ipv4
  | .v4 ip _ => some ip
  | .v6 _ _ => none

def isLoopback : SocketAddr → Bool
  | .v4 ip _ => ip.a == 127
  | .v6 ip _ => ip == 1

inductive ConnectionState
  | handshaking
  | live
  | quarantined
  | dead
  deriving DecidableEq, Repr

/-- Without `last_seen`, a reading of the clock. -/
structure Peer where
  id : Address
  overlayId : Bytes
  publicKey : LatticePublicKey
  addr : SocketAddr
  role : PeerRole
  deviceClass : DeviceClass
  reputation : ℤ
  state : ConnectionState

structure PeerInfo where
  peer : Peer
  score : DeviceScore

structure HandshakeConfig where
  keys : LatticeKeyPair
  role : PeerRole
  deviceClass : DeviceClass
  attestation : DeviceAttestation
  bannedIpv4 : List Ipv4
  minAuthenticity : UInt16
  initiator : Bool

/-! ## Frames -/

/-- `b"NBCH"`. -/
def magic : Bytes := [78, 66, 67, 72]

def protoVersion : UInt8 := 1

def kindHello : UInt8 := 1

def kindChallenge : UInt8 := 2

def kindAuth : UInt8 := 3

def kindAck : UInt8 := 4

def kindReject : UInt8 := 5

/-- What a session asks of its surroundings: the socket, the generator of random bytes, the Noise
transport on either way, and the signer. -/
inductive Query
  | peerAddr
  | fillNonce
  | writePlain (plaintext : Bytes)
  | readPlain
  | sign (message : Bytes)

@[reducible] def Reply : Query → Type
  | .peerAddr => Except SessionError SocketAddr
  | .fillNonce => Hash
  | .writePlain _ => Except SessionError Unit
  | .readPlain => Except SessionError Bytes
  | .sign _ => Except CryptoError LatticeSignature

/-- The code of a session. -/
abbrev Code := Dialog Reply (Fault SessionError)

/-- A reply, or its error: `?`. -/
def orFail {ε β : Type} (f : ε → SessionError) (r : Except ε β) : Code β :=
  Dialog.lift (r.mapError fun e => .err (f e))

def peerAddr : Code SocketAddr := Dialog.query Query.peerAddr >>= orFail id

def fillNonce : Code Hash := Dialog.query Query.fillNonce

def writePlain (plaintext : Bytes) : Code Unit :=
  Dialog.query (Query.writePlain plaintext) >>= orFail id

def readPlain : Code Bytes := Dialog.query Query.readPlain >>= orFail id

def sign (message : Bytes) : Code LatticeSignature :=
  Dialog.query (Query.sign message) >>= orFail .crypto

def frameBytes (kind : UInt8) (payload : Bytes) : Bytes :=
  magic ++ [protoVersion] ++ [kind] ++ leBytes 4 (payload.length % 2 ^ 32) ++ payload

def writeFrame (kind : UInt8) (payload : Bytes) : Code Unit := do
  Dialog.lift (rejectIf (maxFrame < payload.length) badFrame)
  writePlain (frameBytes kind payload)

/-- `read_frame` behind the transport. -/
def decodeFrame (inner : Bytes) : Except (Fault SessionError) (UInt8 × Bytes) := do
  rejectIf (inner.length < 10) badFrame
  let m ← slice inner 0 4
  let v ← byteAt inner 4
  rejectIf (m ≠ magic ∨ v ≠ protoVersion) badFrame
  let kind ← byteAt inner 5
  let n ← readU32 inner 6
  rejectIf (maxFrame < n ∨ inner.length ≠ 10 + n) badFrame
  let payload ← slice inner 10 (inner.length - 10)
  return (kind, payload)

def readFrame : Code (UInt8 × Bytes) := do
  let inner ← readPlain
  Dialog.lift (decodeFrame inner)

def putBytes (data : Bytes) : Bytes := leBytes 4 (data.length % 2 ^ 32) ++ data

/-- The bytes behind a length, and where they end. -/
def takeBytes (data : Bytes) (off : ℕ) : Except (Fault SessionError) (Bytes × ℕ) := do
  rejectIf (data.length < off + 4) badFrame
  let n ← readU32 data off
  let off := off + 4
  rejectIf (data.length < off + n) badFrame
  let b ← slice data off n
  return (b, off + n)

/-! ## HELLO and CHALLENGE -/

structure HelloMsg where
  role : PeerRole
  deviceClass : DeviceClass
  pk : LatticePublicKey
  attestation : DeviceAttestation
  clientNonce : Hash

structure ChallengeMsg where
  role : PeerRole
  deviceClass : DeviceClass
  pk : LatticePublicKey
  attestation : DeviceAttestation
  serverNonce : Hash

def encodeHello (cfg : HandshakeConfig) (clientNonce : Hash) : Bytes :=
  [cfg.role.toU8] ++ [cfg.deviceClass.toU8] ++ putBytes cfg.keys.pub.toBytes
    ++ putBytes cfg.attestation.toBytes ++ hashBytes clientNonce

/-- Byte for byte what `encode_hello` writes. -/
def encodeChallenge (cfg : HandshakeConfig) (serverNonce : Hash) : Bytes :=
  encodeHello cfg serverNonce

variable (P : Primitives)

def decodeHello (bytes : Bytes) : Except (Fault SessionError) HelloMsg := do
  rejectIf (bytes.length < 2) badFrame
  let b ← byteAt bytes 0
  let role ← okOr (PeerRole.fromU8 b) badFrame
  let b ← byteAt bytes 1
  let deviceClass ← okOr (DeviceClass.fromU8 b) badFrame
  let (pk, off) ← takeBytes bytes 2
  let (att, off) ← takeBytes bytes off
  rejectIf (bytes.length < off + 32) badFrame
  let clientNonce ← slice bytes off 32
  let pk ← mapFault .crypto (LatticePublicKey.fromBytes P pk)
  let (attestation, _) ← mapFault (fun _ => badFrame) (DeviceAttestation.fromBytes att)
  return ⟨role, deviceClass, pk, attestation, hashOfBytes clientNonce⟩

def decodeChallenge (bytes : Bytes) : Except (Fault SessionError) ChallengeMsg := do
  let hello ← decodeHello P bytes
  return ⟨hello.role, hello.deviceClass, hello.pk, hello.attestation, hello.clientNonce⟩

/-! ## The two sides -/

def verifyAttestation (att : DeviceAttestation) (pk : LatticePublicKey)
    (minAuthenticity : UInt16) : Except (Fault SessionError) Unit := do
  rejectIf (att.miner ≠ pk.address P) (refused "attestation/key mismatch")
  let score ← mapFault .antiBot (verifyHardwareAuthenticity P att)
  rejectIf (score.authenticity < minAuthenticity.toNat) (refused "weak hardware score")

/-- `b"p2p-hs-v2"`. -/
def transcriptTag : Bytes := [112, 50, 112, 45, 104, 115, 45, 118, 50]

def handshakeTranscript (clientNonce serverNonce : Hash) (clientId serverId : Address)
    (noiseHash : Hash) : Bytes :=
  hashBytes (P.sha256 (transcriptTag ++ hashBytes clientNonce ++ hashBytes serverNonce
    ++ hashBytes clientId ++ hashBytes serverId ++ hashBytes noiseHash))

/-- `NodeOverlayId::from_pubkey`. -/
def overlayId (pk : LatticePublicKey) : Bytes := 0xfd :: (hashBytes (pk.address P)).take 15

def infoFrom (pk : LatticePublicKey) (role : PeerRole) (deviceClass : DeviceClass)
    (addr : SocketAddr) (score : DeviceScore) : PeerInfo where
  peer :=
    { id := pk.address P
      overlayId := overlayId P pk
      publicKey := pk
      addr := addr
      role := role
      deviceClass := deviceClass
      reputation := score.authenticity
      state := .live }
  score := score

/-- A REJECT, whether it goes out or not, and the error. -/
def rejectWith {β : Type} (code : UInt8) (e : SessionError) : Code β := do
  (writeFrame kindReject [code]).ignore
  Dialog.lift (.error (.err e))

def initiatorFlow (cfg : HandshakeConfig) (noiseHash : Hash) : Code PeerInfo := do
  let clientNonce ← fillNonce
  writeFrame kindHello (encodeHello cfg clientNonce)
  let (kind, payload) ← readFrame
  Dialog.lift (rejectIf (kind = kindReject) (refused "remote rejected hello"))
  Dialog.lift (rejectIf (kind ≠ kindChallenge) badFrame)
  let ch ← Dialog.lift (decodeChallenge P payload)
  Dialog.lift (verifyAttestation P ch.attestation ch.pk cfg.minAuthenticity)
  let transcript := handshakeTranscript P clientNonce ch.serverNonce (cfg.keys.pub.address P)
    (ch.pk.address P) noiseHash
  let sig ← sign transcript
  writeFrame kindAuth sig.toBytes
  let (kind, payload) ← readFrame
  Dialog.lift (rejectIf (kind ≠ kindAck) (refused "missing ack"))
  let ackSig ← Dialog.lift (mapFault .crypto (LatticeSignature.fromBytes payload))
  Dialog.lift (rejectIf (ch.pk.verify P transcript ackSig = false)
    (refused "server Dilithium auth failed"))
  let score ← Dialog.lift (mapFault .antiBot (verifyHardwareAuthenticity P ch.attestation))
  let addr ← peerAddr
  return infoFrom P ch.pk ch.role ch.deviceClass addr score

/-- The responder, once a HELLO has been read and its quote holds. -/
def answerHello (cfg : HandshakeConfig) (noiseHash : Hash) (hello : HelloMsg) : Code PeerInfo := do
  let serverNonce ← fillNonce
  writeFrame kindChallenge (encodeChallenge cfg serverNonce)
  let (kind, payload) ← readFrame
  if kind ≠ kindAuth then rejectWith 3 (refused "expected auth")
  else do
    let sig ← Dialog.lift (mapFault .crypto (LatticeSignature.fromBytes payload))
    let transcript := handshakeTranscript P hello.clientNonce serverNonce (hello.pk.address P)
      (cfg.keys.pub.address P) noiseHash
    if hello.pk.verify P transcript sig = false then
      rejectWith 4 (refused "client Dilithium auth failed")
    else do
      let ack ← sign transcript
      writeFrame kindAck ack.toBytes
      let score ← Dialog.lift (mapFault .antiBot (verifyHardwareAuthenticity P hello.attestation))
      let addr ← peerAddr
      return infoFrom P hello.pk hello.role hello.deviceClass addr score

def responderFlow (cfg : HandshakeConfig) (noiseHash : Hash) : Code PeerInfo := do
  let (kind, payload) ← readFrame
  if kind ≠ kindHello then rejectWith 1 (refused "expected hello")
  else do
    let hello ← Dialog.lift (decodeHello P payload)
    match verifyAttestation P hello.attestation hello.pk cfg.minAuthenticity with
    | .error (.err e) => rejectWith 2 e
    | .error .panic => Dialog.lift (.error .panic)
    | .ok () => answerHello P cfg noiseHash hello

def rejectSocket (remoteAddr : SocketAddr) (cfg : HandshakeConfig) :
    Except (Fault SessionError) Unit :=
  match ipv4Octets remoteAddr with
  | none => .ok ()
  | some ip => do
    rejectIf (cfg.bannedIpv4.any (· == ip)) (refused "banned ip")
    rejectIf (isLoopback remoteAddr = false ∧ isDatacenterIpv4 ip) (refused "datacenter ip")

def performSecureHandshake (cfg : HandshakeConfig) (noiseHash : Hash) : Code PeerInfo := do
  let remoteAddr ← peerAddr
  Dialog.lift (rejectSocket remoteAddr cfg)
  if cfg.initiator then initiatorFlow P cfg noiseHash else responderFlow P cfg noiseHash

/-! ## Reading messages back -/

section ReadBack

variable {P}

theorem decodeFrame_frameBytes {kind : UInt8} {payload : Bytes} (h : payload.length ≤ maxFrame) :
    decodeFrame (frameBytes kind payload) = .ok (kind, payload) := by
  have h32 : payload.length < 2 ^ 32 := lt_of_le_of_lt h (by decide)
  have hat := At.refl (frameBytes kind payload)
  have hlen : (frameBytes kind payload).length = 10 + payload.length := by
    simp only [frameBytes, List.length_append, length_leBytes, List.length_cons, List.length_nil]
    rfl
  unfold frameBytes at hat
  rw [Nat.mod_eq_of_lt h32] at hat
  have hv : At (magic ++ [protoVersion] ++ [kind] ++ leBytes 4 payload.length ++ payload) 4
      [protoVersion] := hat.left.left.left.right
  have hkind : At (magic ++ [protoVersion] ++ [kind] ++ leBytes 4 payload.length ++ payload) 5
      [kind] := hat.left.left.right
  have hn : At (magic ++ [protoVersion] ++ [kind] ++ leBytes 4 payload.length ++ payload) 6
      (leBytes 4 payload.length) := hat.left.right
  have hpayload : At (magic ++ [protoVersion] ++ [kind] ++ leBytes 4 payload.length ++ payload) 10
      payload := by
    have h := hat.right
    simp only [List.length_append, length_leBytes] at h
    exact h
  have hmagic := hat.left.left.left.left
  have hlen4 : magic.length = 4 := rfl
  unfold frameBytes at hlen ⊢
  rw [Nat.mod_eq_of_lt h32] at hlen ⊢
  generalize magic ++ [protoVersion] ++ [kind] ++ leBytes 4 payload.length ++ payload = inner at *
  have h1 : ¬ inner.length < 10 := by omega
  have h2 : ¬ (magic ≠ magic ∨ protoVersion ≠ protoVersion) := by simp
  have h3 : ¬ (maxFrame < payload.length ∨ inner.length ≠ 10 + payload.length) := by omega
  simp only [decodeFrame, rejectIf_of_not h1, slice_at hmagic hlen4, byteAt_at hv,
    rejectIf_of_not h2, byteAt_at hkind, readU32_at hn h32, rejectIf_of_not h3, ok_bind,
    slice_at hpayload (show payload.length = inner.length - 10 by omega)]
  rfl

theorem length_putBytes (data : Bytes) : (putBytes data).length = 4 + data.length := by
  rw [putBytes, List.length_append, length_leBytes]

theorem takeBytes_at {bytes data : Bytes} {off : ℕ} (h : At bytes off (putBytes data))
    (hn : data.length < 2 ^ 32) : takeBytes bytes off = .ok (data, off + (4 + data.length)) := by
  have hle := h.le
  rw [length_putBytes] at hle
  unfold putBytes at h
  rw [Nat.mod_eq_of_lt hn] at h
  have hdata : At bytes (off + 4) data := by
    have h := h.right
    rwa [length_leBytes] at h
  have h1 : ¬ bytes.length < off + 4 := by omega
  have h2 : ¬ bytes.length < off + 4 + data.length := by omega
  simp only [takeBytes, rejectIf_of_not h1, readU32_at h.left hn, ok_bind, rejectIf_of_not h2,
    slice_at hdata rfl]
  rw [← Nat.add_assoc]
  rfl

/-- A configuration that the peer can read. -/
structure HandshakeConfig.Readable (P : Primitives) (cfg : HandshakeConfig) : Prop where
  key : cfg.keys.pub.raw.length = pkLen
  keyOk : P.publicKeyOk cfg.keys.pub.raw = true
  quote : cfg.attestation.Short

/-- A HELLO or CHALLENGE is read back. -/
theorem decodeHello_encodeHello {cfg : HandshakeConfig} (h : cfg.Readable P) (nonce : Hash) :
    decodeHello P (encodeHello cfg nonce)
      = .ok ⟨cfg.role, cfg.deviceClass, cfg.keys.pub, cfg.attestation, nonce⟩ := by
  have hkey : cfg.keys.pub.toBytes.length = 5 + pkLen := by
    rw [LatticePublicKey.toBytes, length_encodeBlob, h.key]
  have hquote := h.quote.length_le
  have hat := At.refl (encodeHello cfg nonce)
  unfold encodeHello at hat
  have hrole := hat.left.left.left.left
  have hclass := hat.left.left.left.right
  have hpk := hat.left.left.right
  have hatt := hat.left.right
  have hnonce := hat.right
  simp only [List.length_append, List.length_cons, List.length_nil, length_putBytes]
    at hclass hpk hatt hnonce
  have hle := hnonce.le
  rw [length_hashBytes] at hle
  unfold encodeHello
  generalize [cfg.role.toU8] ++ [cfg.deviceClass.toU8] ++ putBytes cfg.keys.pub.toBytes
    ++ putBytes cfg.attestation.toBytes ++ hashBytes nonce = bytes at *
  have h1 : ¬ bytes.length < 2 := by omega
  have hokRole : okOr (ε := SessionError) (PeerRole.fromU8 cfg.role.toU8) badFrame
      = .ok cfg.role := by
    rw [PeerRole.fromU8_toU8]
    rfl
  have hokClass : okOr (ε := SessionError) (DeviceClass.fromU8 cfg.deviceClass.toU8) badFrame
      = .ok cfg.deviceClass := by
    rw [DeviceClass.fromU8_toU8]
    rfl
  have htake1 : takeBytes bytes 2
      = .ok (cfg.keys.pub.toBytes, 2 + (4 + cfg.keys.pub.toBytes.length)) :=
    takeBytes_at (hpk.at_eq (by omega)) (by rw [hkey]; decide)
  have htake2 : takeBytes bytes (2 + (4 + cfg.keys.pub.toBytes.length))
      = .ok (cfg.attestation.toBytes, 2 + (4 + cfg.keys.pub.toBytes.length)
        + (4 + cfg.attestation.toBytes.length)) :=
    takeBytes_at (hatt.at_eq (by omega)) (by omega)
  have hn : At bytes (2 + (4 + cfg.keys.pub.toBytes.length)
      + (4 + cfg.attestation.toBytes.length)) (hashBytes nonce) := hnonce.at_eq (by omega)
  have h2 : ¬ bytes.length < 2 + (4 + cfg.keys.pub.toBytes.length)
      + (4 + cfg.attestation.toBytes.length) + 32 := by omega
  simp only [decodeHello, rejectIf_of_not h1, byteAt_at hrole, hokRole,
    byteAt_at (hclass.at_eq (by omega) : At bytes 1 _), hokClass, htake1, htake2, ok_bind,
    rejectIf_of_not h2, slice_at hn (length_hashBytes _),
    LatticePublicKey.fromBytes_toBytes h.key h.keyOk, mapFault,
    DeviceAttestation.fromBytes_toBytes h.quote, hashOfBytes_hashBytes]
  rfl

theorem length_encodeHello {cfg : HandshakeConfig} (h : cfg.Readable P) (nonce : Hash) :
    (encodeHello cfg nonce).length ≤ maxFrame := by
  have hkey : cfg.keys.pub.toBytes.length = 5 + pkLen := by
    rw [LatticePublicKey.toBytes, length_encodeBlob, h.key]
  have hquote := h.quote.length_le
  simp only [encodeHello, List.length_append, List.length_cons, List.length_nil, length_putBytes,
    length_hashBytes, hkey, pkLen, maxFrame]
  omega

/-- HELLO and CHALLENGE show the peer what the sender has, down to the quote of its device, so what
the sender's own check says of the quote the peer's check says. -/
theorem hello_readBack (hP : P.KeygenReadable) {cfg : HandshakeConfig}
    (hkey : cfg.keys.pub.Made P) (hquote : cfg.attestation.Short) (nonce : Hash) :
    decodeHello P (encodeHello cfg nonce)
        = .ok ⟨cfg.role, cfg.deviceClass, cfg.keys.pub, cfg.attestation, nonce⟩
      ∧ decodeChallenge P (encodeChallenge cfg nonce)
        = .ok ⟨cfg.role, cfg.deviceClass, cfg.keys.pub, cfg.attestation, nonce⟩
      ∧ DeviceAttestation.fromBytes cfg.attestation.toBytes
        = .ok (cfg.attestation, cfg.attestation.toBytes.length)
      ∧ ∀ hello minAuthenticity, decodeHello P (encodeHello cfg nonce) = .ok hello →
        verifyAttestation P hello.attestation hello.pk minAuthenticity
          = verifyAttestation P cfg.attestation cfg.keys.pub minAuthenticity := by
  obtain ⟨hlen, hok⟩ := hkey.facts hP
  have hhello := decodeHello_encodeHello ⟨hlen, hok, hquote⟩ nonce
  refine ⟨hhello, ?_, DeviceAttestation.fromBytes_toBytes hquote, fun hello m h => ?_⟩
  · unfold decodeChallenge encodeChallenge
    rw [hhello]
    rfl
  · rw [hhello] at h
    cases h
    rfl

end ReadBack

section Example

open StandIn

/-- A phone whose quote has the longest lists there are. -/
def longQuote : HandshakeConfig where
  keys := LatticeKeyPair.fromSeed primitives 1
  role := .edgeMiner
  deviceClass := .legacyMobile
  attestation :=
    { miner := address 1
      deviceClass := .legacyMobile
      logicalCores := 4
      advertisedMhz := 1800
      latticeProbeNs := List.replicate 255 9000
      cacheProbeNs := List.replicate 255 140
      clockSkewPpm := List.replicate 255 (-3)
      ipv4 := ⟨86, 1, 2, 3⟩
      adjacencyRttMs := List.replicate 255 21
      miningDurationNs := 20000
      quote := 5 }
  bannedIpv4 := []
  minAuthenticity := 400
  initiator := true

theorem hello_readBack_longQuote : decodeHello primitives (encodeHello longQuote 77)
    = .ok ⟨.edgeMiner, .legacyMobile, longQuote.keys.pub, longQuote.attestation, 77⟩ := by
  have hP : primitives.KeygenReadable := ⟨fun _ => List.length_replicate, fun _ => rfl⟩
  have hlen : ∀ {β : Type} (b : β), (List.replicate 255 b).length < 256 := fun b => by
    rw [List.length_replicate]
    decide
  exact (hello_readBack hP (.fromSeed 1) ⟨hlen _, hlen _, hlen _, hlen _⟩ 77).1

end Example

end KronMesh.Handshake
