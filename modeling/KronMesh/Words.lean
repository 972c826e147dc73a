import KronMesh.Gossip
import KronMesh.Lib.Slice
import KronMesh.Store

/-!
# The decoders on machine words

The decoders once more, statement for statement: every offset and every length is a checked word,
and every range, index and copy is checked against the slice it reads. The models elsewhere read
lists at numbers. `InBounds` shows that the two are the same.
-/

namespace KronMesh.Words

open Wire

variable (P : Primitives)

/-! ## Keys and signatures -/

def blobLen (bytes : Slice) (off expected : ℕ) : Except (Fault CryptoError) ℕ := do
  let need ← addWord off 5
  rejectIf (bytes.len < need) .invalidEncoding
  let tag ← bytes.index off
  rejectIf (tag = schemeToyLwe) .obsoleteScheme
  rejectIf (tag ≠ schemeMldsa44) .invalidEncoding
  let start ← addWord off 1
  let stop ← addWord off 5
  let word ← bytes.array start stop 4
  let n := leNat word
  rejectIf (n ≠ expected) .invalidEncoding
  let need ← addWord off 5
  let need ← addWord need n
  rejectIf (bytes.len < need) .invalidEncoding
  addWord 5 n

def decodeBlob (bytes : Slice) (expected : ℕ) : Except (Fault CryptoError) Bytes := do
  let n ← blobLen bytes 0 expected
  let raw ← bytes.sub 5 n
  return raw.bytes

def LatticePublicKey.fromBytes (bytes : Slice) : Except (Fault CryptoError) LatticePublicKey := do
  let raw ← decodeBlob bytes pkLen
  rejectIf (raw.length ≠ pkLen) .invalidEncoding
  rejectIf (P.publicKeyOk raw = false) .invalidEncoding
  return ⟨raw⟩

def LatticePublicKey.encodedLen (bytes : Slice) (off : ℕ) : Except (Fault CryptoError) ℕ :=
  blobLen bytes off pkLen

def LatticeSignature.fromBytes (bytes : Slice) : Except (Fault CryptoError) LatticeSignature := do
  let raw ← decodeBlob bytes sigLen
  return ⟨raw⟩

/-! ## Vertices -/

def readHash (bytes : Slice) (off : ℕ) : Except (Fault DagError) Hash := do
  let b ← bytes.field off 32
  return hashOfBytes b

def readKeyAndSig (bytes : Slice) (off : ℕ) :
    Except (Fault DagError) (LatticePublicKey × LatticeSignature × ℕ) := do
  let pkLen ← asSign (LatticePublicKey.encodedLen bytes off)
  let need ← addWord off pkLen
  let need ← addWord need 4
  rejectIf (bytes.len < need) (.sign .invalidEncoding)
  let pkBytes ← bytes.span off pkLen
  let publicKey ← asSign (LatticePublicKey.fromBytes P pkBytes)
  let off ← addWord off pkLen
  let slen ← bytes.u32 off
  let off ← addWord off 4
  let need ← addWord off slen
  rejectIf (bytes.len < need) (.sign .invalidEncoding)
  let sigBytes ← bytes.span off slen
  let signature ← asSign (LatticeSignature.fromBytes sigBytes)
  let off ← addWord off slen
  return (publicKey, signature, off)

def readRelayNodes (bytes : Slice) : ℕ → ℕ → Except (Fault DagError) (List Address × ℕ)
  | 0, off => .ok ([], off)
  | n + 1, off => do
    let need ← addWord off 32
    rejectIf (bytes.len < need) (.sign .invalidEncoding)
    let node ← readHash bytes off
    let off ← addWord off 32
    let (nodes, off) ← readRelayNodes bytes n off
    return (node :: nodes, off)

def readRelayProofs (bytes : Slice) : ℕ → ℕ → Except (Fault DagError) (List RelayProof × ℕ)
  | 0, off => .ok ([], off)
  | n + 1, off => do
    let need ← addWord off 32
    let need ← addWord need 4
    rejectIf (bytes.len < need) (.sign .invalidEncoding)
    let node ← readHash bytes off
    let off ← addWord off 32
    let (publicKey, sig, off) ← readKeyAndSig P bytes off
    let (proofs, off) ← readRelayProofs bytes n off
    return (⟨node, publicKey, sig⟩ :: proofs, off)

def DagTransaction.fromCanonical (bytes : Slice) : Except (Fault DagError) DagTransaction := do
  rejectIf (bytes.len < 32 + 32 + 32 + 32 + 8 + 8 + 8) (.sign .invalidEncoding)
  let parent1 ← readHash bytes 0
  let off ← addWord 0 32
  let parent2 ← readHash bytes off
  let off ← addWord off 32
  let sender ← readHash bytes off
  let off ← addWord off 32
  let recipient ← readHash bytes off
  let off ← addWord off 32
  let amount ← bytes.u64 off
  let off ← addWord off 8
  let fee ← bytes.u64 off
  let off ← addWord off 8
  let nonce ← bytes.u64 off
  let off ← addWord off 8
  let (publicKey, signature, off) ← readKeyAndSig P bytes off
  let need ← addWord off 4
  rejectIf (bytes.len < need) (.sign .invalidEncoding)
  let nRelays ← bytes.u32 off
  let off ← addWord off 4
  let (relayNodes, off) ← readRelayNodes bytes nRelays off
  let need ← addWord off 4
  rejectIf (bytes.len < need) (.sign .invalidEncoding)
  let nProofs ← bytes.u32 off
  let off ← addWord off 4
  let (relayProofs, _) ← readRelayProofs P bytes nProofs off
  let tx : DagTransaction :=
    { id := 0
      parent1 := parent1
      parent2 := parent2
      senderKron1 := deriveKronAddress P publicKey
      sender := sender
      recipientKron1 := encodeKron recipient
      recipient := recipient
      amount := amount
      fee := fee
      nonce := nonce
      publicKey := publicKey
      signature := signature
      relayNodes := relayNodes
      relayProofs := relayProofs }
  return tx.refreshId P

/-! ## Mesh sync -/

/-- `n` hashes from the `i`-th on: that is `bytes[base + i * 32..base + (i + 1) * 32]`. -/
def hashesAt {ε : Type} (bytes : Slice) (base : ℕ) : ℕ → ℕ → Except (Fault ε) (List Hash)
  | 0, _ => .ok []
  | n + 1, i => do
    let skip ← mulWord i 32
    let start ← addWord base skip
    let next ← addWord i 1
    let skip ← mulWord next 32
    let stop ← addWord base skip
    let h ← bytes.array start stop 32
    let rest ← hashesAt bytes base n next
    return hashOfBytes h :: rest

def decodeHashList (bytes : Slice) : Except (Fault NetworkError) (List TxHash) := do
  rejectIf (bytes.len < 4) .badFrame
  let n ← bytes.u32 0
  rejectIf (maxInventoryHashes < n) .badFrame
  let size ← mulWord n 32
  let size ← addWord 4 size
  rejectIf (bytes.len ≠ size) .badFrame
  hashesAt bytes 4 n 0

/-- `n` hashes from `off` on, and where they end. -/
def readHashes (bytes : Slice) : ℕ → ℕ → Except (Fault NetworkError) (List TxHash × ℕ)
  | 0, off => .ok ([], off)
  | n + 1, off => do
    let h ← bytes.field off 32
    let off ← addWord off 32
    let (rest, off) ← readHashes bytes n off
    return (hashOfBytes h :: rest, off)

def readPeerId (bytes : Slice) (hasPeer : UInt8) (off : ℕ) :
    Except (Fault NetworkError) (Option Address) :=
  if hasPeer = 1 then do
    let need ← addWord off 32
    rejectIf (bytes.len < need) .badFrame
    let id ← bytes.field off 32
    let _ ← addWord off 32
    return some (hashOfBytes id)
  else if hasPeer = 0 then .ok none
  else .error (.err .badFrame)

def decodeSyncInventory (bytes : Slice) : Except (Fault NetworkError) SyncInventory := do
  rejectIf (bytes.len < 4) .badFrame
  let nt ← bytes.u32 0
  rejectIf (maxInventoryHashes < nt) .badFrame
  let size ← mulWord nt 32
  let need ← addWord 4 size
  let need ← addWord need 4
  rejectIf (bytes.len < need) .badFrame
  let (tips, off) ← readHashes bytes nt 4
  let nr ← bytes.u32 off
  rejectIf (maxInventoryHashes < nr ∨ maxInventoryHashes < Word.saturatingAdd nt nr) .badFrame
  let off ← addWord off 4
  let size ← mulWord nr 32
  let need ← addWord off size
  let need ← addWord need 1
  rejectIf (bytes.len < need) .badFrame
  let (recent, off) ← readHashes bytes nr off
  let hasPeer ← bytes.index off
  let off ← addWord off 1
  let peerId ← readPeerId bytes hasPeer off
  return ⟨tips, recent, peerId⟩

/-- A `HELLO` of mesh sync. -/
def decodeMeshHello (payload : Slice) : Except (Fault NetworkError) MeshWireMessage := do
  rejectIf (payload.len < 3) .badFrame
  let word ← payload.array 0 2 2
  let n := leNat word
  let need ← addWord 2 n
  let need ← addWord need 1
  rejectIf (payload.len < need) .badFrame
  let stop ← addWord 2 n
  let protocol ← payload.sub 2 stop
  let last ← addWord 2 n
  let r ← payload.index last
  match MeshRole.fromU8 r with
  | some role => return .hello (fromUtf8Lossy protocol.bytes) role
  | none => .error (.err .badFrame)

def decodeWire (kind : UInt8) (payload : Slice) : Except (Fault NetworkError) MeshWireMessage :=
  if kind = mkHello then decodeMeshHello payload
  else if kind = mkPing then .ok .ping
  else if kind = mkPong then .ok .pong
  else if kind = mkSyncInv then (decodeSyncInventory payload).map .syncInventory
  else if kind = mkHave then (decodeHashList payload).map .haveIds
  else if kind = mkNeed then (decodeHashList payload).map .needIds
  else if kind = mkDagTx then
    (asBadFrame (DagTransaction.fromCanonical P payload)).map .dagTransaction
  else if kind = mkDone then .ok .done
  else .error (.err .badFrame)

/-! ## Gossip -/

open Handshake Gossip

def takeBytes (data : Slice) (off : ℕ) : Except (Fault SessionError) (Slice × ℕ) := do
  let need ← addWord off 4
  rejectIf (data.len < need) badFrame
  let n ← data.u32 off
  let off ← addWord off 4
  let need ← addWord off n
  rejectIf (data.len < need) badFrame
  let b ← data.span off n
  let off ← addWord off n
  return (b, off)

def decodeMesh (bytes : Slice) : Except (Fault GossipError) MeshMessage := do
  rejectIf bytes.bytes.isEmpty (.session badFrame)
  let tag ← bytes.index 0
  rejectIf (tag ≠ tagVertex) (.session badFrame)
  let (raw, _) ← mapFault .session (takeBytes bytes 1)
  let tx ← mapFault .dag (DagTransaction.fromCanonical P raw)
  return .vertex tx

def GossipInventory.decode (bytes : Slice) : Except (Fault NetworkError) GossipInventory := do
  rejectIf (bytes.len < 2) .badFrame
  let n ← bytes.u16 0
  let size ← mulWord n.toNat 32
  let size ← addWord 2 size
  rejectIf (bytes.len ≠ size) .badFrame
  let ids ← hashesAt bytes 2 n.toNat 0
  return ⟨ids⟩

def GossipPayload.decode (bytes : Slice) : Except (Fault SessionError) GossipPayload := do
  rejectIf (bytes.len < 32) badFrame
  let id ← bytes.array 0 32 32
  let (body, _) ← takeBytes bytes 32
  return ⟨hashOfBytes id, body.bytes⟩

/-! ## The handshake -/

def readU64s (bytes : Slice) : Except (Fault SecurityError) (List UInt64 × ℕ) := do
  rejectIf bytes.bytes.isEmpty .attestationInvalid
  let n ← bytes.index 0
  let size ← mulWord n.toNat 8
  let need ← addWord 1 size
  rejectIf (bytes.len < need) .attestationInvalid
  eachWord bytes.u64 8 n.toNat 1

def DeviceAttestation.fromBytes (bytes : Slice) :
    Except (Fault SecurityError) (DeviceAttestation × ℕ) := do
  rejectIf (bytes.len < 32 + 1 + 2 + 4 + 1) .attestationInvalid
  let miner ← bytes.field 0 32
  let off ← addWord 0 32
  let tag ← bytes.index off
  let deviceClass ← okOr (DeviceClass.fromU8 tag) .attestationInvalid
  let off ← addWord off 1
  let logicalCores ← bytes.u16 off
  let off ← addWord off 2
  let advertisedMhz ← bytes.u32 off
  let off ← addWord off 4
  let rest ← bytes.sub off bytes.len
  let (latticeProbeNs, n1) ← readU64s rest
  let off ← addWord off n1
  let rest ← bytes.sub off bytes.len
  let (cacheProbeNs, n2) ← readU64s rest
  let off ← addWord off n2
  let need ← addWord off 1
  rejectIf (bytes.len < need) .attestationInvalid
  let nskew ← bytes.index off
  let off ← addWord off 1
  let size ← mulWord nskew.toNat 4
  let need ← addWord off size
  let need ← addWord need 4
  let need ← addWord need 1
  rejectIf (bytes.len < need) .attestationInvalid
  let (clockSkewPpm, off) ← eachWord bytes.i32 4 nskew.toNat off
  let ipv4 ← bytes.field off 4
  let off ← addWord off 4
  let nrtt ← bytes.index off
  let off ← addWord off 1
  let size ← mulWord nrtt.toNat 2
  let need ← addWord off size
  let need ← addWord need 8
  let need ← addWord need 32
  rejectIf (bytes.len < need) .attestationInvalid
  let (adjacencyRttMs, off) ← eachWord bytes.u16 2 nrtt.toNat off
  let miningDurationNs ← bytes.u64 off
  let off ← addWord off 8
  let quote ← bytes.field off 32
  let off ← addWord off 32
  return (⟨hashOfBytes miner, deviceClass, logicalCores, UInt32.ofNat advertisedMhz,
    latticeProbeNs, cacheProbeNs, clockSkewPpm, Ipv4.ofBytes ipv4, adjacencyRttMs,
    miningDurationNs, hashOfBytes quote⟩, off)

def decodeHello (bytes : Slice) : Except (Fault SessionError) HelloMsg := do
  rejectIf (bytes.len < 2) badFrame
  let b ← bytes.index 0
  let role ← okOr (PeerRole.fromU8 b) badFrame
  let b ← bytes.index 1
  let deviceClass ← okOr (DeviceClass.fromU8 b) badFrame
  let (pk, off) ← takeBytes bytes 2
  let (att, off) ← takeBytes bytes off
  let need ← addWord off 32
  rejectIf (bytes.len < need) badFrame
  let clientNonce ← bytes.field off 32
  let pk ← mapFault .crypto (LatticePublicKey.fromBytes P pk)
  let (attestation, _) ← mapFault (fun _ => badFrame) (DeviceAttestation.fromBytes att)
  return ⟨role, deviceClass, pk, attestation, hashOfBytes clientNonce⟩

/-! ## The store -/

def readChecksummed (bytes : Slice) (magic : Bytes) (off : ℕ) :
    Except (Fault PersistError) (Slice × ℕ) := do
  let need ← addWord off 4
  let need ← addWord need 1
  let need ← addWord need 4
  let need ← addWord need 32
  rejectIf (bytes.len < need) (.corrupt "short record")
  let m ← bytes.span off 4
  rejectIf (m.bytes ≠ magic) (.corrupt "bad magic")
  let off ← addWord off 4
  let v ← bytes.index off
  rejectIf (v ≠ version) (.corrupt "unsupported version")
  let off ← addWord off 1
  let n ← bytes.u32 off
  let off ← addWord off 4
  let need ← addWord off n
  let need ← addWord need 32
  rejectIf (bytes.len < need) (.corrupt "truncated body")
  let body ← bytes.span off n
  let off ← addWord off n
  let sum ← bytes.field off 32
  let off ← addWord off 32
  rejectIf (hashBytes (P.sha256 body.bytes) ≠ sum) (.corrupt "checksum mismatch")
  return (body, off)

def readWalLoop (bytes : Slice) : ℕ → ℕ → Except (Fault PersistError) (List DagTransaction)
  | 0, _ => .error .panic
  | fuel + 1, off =>
    if off < bytes.len then
      match readChecksummed P bytes walMagic off with
      | .ok (body, off) =>
        match DagTransaction.fromCanonical P body with
        | .ok tx => (readWalLoop bytes fuel off).map (tx :: ·)
        | .error (.err _) => .ok []
        | .error .panic => .error .panic
      | .error (.err _) => .ok []
      | .error .panic => .error .panic
    else .ok []

def readWal (file : Option Slice) : Except (Fault PersistError) (List DagTransaction) :=
  match file with
  | none => .ok []
  | some bytes => readWalLoop P bytes (bytes.len + 1) 0

def takeU64 (bytes : Slice) (off : ℕ) : Except (Fault PersistError) (ℕ × ℕ) := do
  let need ← addWord off 8
  rejectIf (bytes.len < need) (.corrupt "u64")
  let v ← bytes.u64 off
  let off ← addWord off 8
  return (v.toNat, off)

def takeU32 (bytes : Slice) (off : ℕ) : Except (Fault PersistError) (ℕ × ℕ) := do
  let need ← addWord off 4
  rejectIf (bytes.len < need) (.corrupt "u32")
  let v ← bytes.u32 off
  let off ← addWord off 4
  return (v, off)

def takeHash (bytes : Slice) (off : ℕ) : Except (Fault PersistError) (Hash × ℕ) := do
  let need ← addWord off 32
  rejectIf (bytes.len < need) (.corrupt "hash")
  let b ← bytes.field off 32
  let off ← addWord off 32
  return (hashOfBytes b, off)

def decodeAccountsLoop (bytes : Slice) :
    ℕ → ℕ → Tally Address → Except (Fault PersistError) (Tally Address × ℕ)
  | 0, off, out => .ok (out, off)
  | n + 1, off, out => do
    let (addr, off) ← takeHash bytes off
    let (bal, off) ← takeU64 bytes off
    decodeAccountsLoop bytes n off (out.set addr bal)

def decodeAccounts (bytes : Slice) (off : ℕ) :
    Except (Fault PersistError) (Tally Address × ℕ) := do
  let (n, off) ← takeU32 bytes off
  decodeAccountsLoop bytes n off ∅

def decodeTips (bytes : Slice) : ℕ → ℕ → Except (Fault PersistError) (List TxHash)
  | 0, _ => .ok []
  | n + 1, off => do
    let (tip, off) ← takeHash bytes off
    let tips ← decodeTips bytes n off
    return tip :: tips

def decodeSnapshot (bytes : Slice) : Except (Fault PersistError) DagSnapshot := do
  let (supply, off) ← takeU64 bytes 0
  let (dagTxCount, off) ← takeU64 bytes off
  let (vertexCount, off) ← takeU64 bytes off
  let (accounts, off) ← decodeAccounts bytes off
  let (faucet, off) ← decodeAccounts bytes off
  let (n, off) ← takeU32 bytes off
  let tips ← decodeTips bytes n off
  return ⟨supply, dagTxCount, vertexCount, accounts, faucet, tips⟩

def readSnapshot (bytes : Slice) : Except (Fault PersistError) DagSnapshot := do
  let (body, _) ← readChecksummed P bytes snapMagic 0
  decodeSnapshot body

end KronMesh.Words
