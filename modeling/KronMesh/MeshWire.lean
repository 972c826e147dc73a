import KronMesh.Reconcile
import KronMesh.TxCodec

/-!
# The messages of mesh sync

What two nodes send each other in a round, as bytes: a kind, and a payload. Lists of hashes carry
their length in front, and the decoder refuses more than `maxInventoryHashes` of them. Bytes behind
an inventory are not read.
-/

namespace KronMesh

open Wire

inductive NetworkError
  | badFrame
  | handshake (msg : String)
  deriving DecidableEq, Repr

def maxFrame : ℕ := 256 * 1024

inductive MeshRole
  | hub
  | wallet
  | test
  deriving DecidableEq, Repr

namespace MeshRole

def toU8 : MeshRole → UInt8
  | hub => 0
  | wallet => 1
  | test => 2

def fromU8 (v : UInt8) : Option MeshRole :=
  if v = 0 then some hub else if v = 1 then some wallet else if v = 2 then some test else none

end MeshRole

inductive MeshWireMessage
  | hello (protocol : String) (role : MeshRole)
  | ping
  | pong
  | syncInventory (inv : SyncInventory)
  | haveIds (ids : List TxHash)
  | needIds (ids : List TxHash)
  | dagTransaction (tx : DagTransaction)
  | done
  deriving DecidableEq

def mkHello : UInt8 := 1

def mkPing : UInt8 := 2

def mkPong : UInt8 := 3

def mkSyncInv : UInt8 := 10

def mkHave : UInt8 := 11

def mkNeed : UInt8 := 12

def mkDagTx : UInt8 := 13

def mkDone : UInt8 := 14

/-! ## Text -/

def protocolKronMesh : String := "kron-mesh/1"

def asBytes (s : String) : Bytes := s.toList.flatMap String.utf8EncodeChar

/-- Whether `b1` may stand behind the first byte of three or of four. -/
def secondOk (b0 b1 : UInt8) : Bool :=
  if b0 = 0xE0 then 0xA0 ≤ b1 && b1 ≤ 0xBF
  else if b0 = 0xED then 0x80 ≤ b1 && b1 ≤ 0x9F
  else if 0xE1 ≤ b0 && b0 ≤ 0xEF then 0x80 ≤ b1 && b1 ≤ 0xBF
  else if b0 = 0xF0 then 0x90 ≤ b1 && b1 ≤ 0xBF
  else if 0xF1 ≤ b0 && b0 ≤ 0xF3 then 0x80 ≤ b1 && b1 ≤ 0xBF
  else b0 = 0xF4 && 0x80 ≤ b1 && b1 ≤ 0x8F

/-- How many bytes that are no character one replacement character stands for. -/
def invalidLen : Bytes → ℕ
  | b0 :: b1 :: b2 :: _ =>
    if secondOk b0 b1 then if 0xF0 ≤ b0 && 0x80 ≤ b2 && b2 ≤ 0xBF then 3 else 2 else 1
  | [b0, b1] => if secondOk b0 b1 then 2 else 1
  | _ => 1

def lossyChars : ℕ → Bytes → List Char
  | 0, _ => []
  | _ + 1, [] => []
  | n + 1, bytes =>
    match ByteArray.utf8DecodeChar? ⟨bytes.toArray⟩ 0 with
    | some c => c :: lossyChars n (bytes.drop c.utf8Size)
    | none => Char.ofNat 0xFFFD :: lossyChars n (bytes.drop (invalidLen bytes))

/-- `String::from_utf8_lossy`. -/
def fromUtf8Lossy (bytes : Bytes) : String := String.ofList (lossyChars bytes.length bytes)

/-- `str::from_utf8`: a text is lost in no other way than by a byte that is replaced. -/
def strFromUtf8 (bytes : Bytes) : Option String :=
  let s := fromUtf8Lossy bytes
  if asBytes s = bytes then some s else none

/-! ## Lists of hashes -/

def encodeHashList (ids : List TxHash) : Bytes :=
  leBytes 4 (ids.length % 2 ^ 32) ++ ids.flatMap hashBytes

/-- `n` hashes from `off` on. -/
def readHashes (bytes : Bytes) : ℕ → ℕ → Except (Fault NetworkError) (List TxHash)
  | 0, _ => .ok []
  | n + 1, off => do
    let h ← slice bytes off 32
    let rest ← readHashes bytes n (off + 32)
    return hashOfBytes h :: rest

def decodeHashList (bytes : Bytes) : Except (Fault NetworkError) (List TxHash) := do
  rejectIf (bytes.length < 4) .badFrame
  let n ← readU32 bytes 0
  rejectIf (maxInventoryHashes < n) .badFrame
  rejectIf (bytes.length ≠ 4 + n * 32) .badFrame
  readHashes bytes n 4

def encodePeerId : Option Address → Bytes
  | some id => 1 :: hashBytes id
  | none => [0]

def encodeSyncInventory (inv : SyncInventory) : Bytes :=
  encodeHashList inv.tips ++ encodeHashList inv.recent ++ encodePeerId inv.peerId

def readPeerId (bytes : Bytes) (hasPeer : UInt8) (off : ℕ) :
    Except (Fault NetworkError) (Option Address) :=
  if hasPeer = 1 then do
    rejectIf (bytes.length < off + 32) .badFrame
    let id ← slice bytes off 32
    return some (hashOfBytes id)
  else if hasPeer = 0 then .ok none
  else .error (.err .badFrame)

def decodeSyncInventory (bytes : Bytes) : Except (Fault NetworkError) SyncInventory := do
  rejectIf (bytes.length < 4) .badFrame
  let nt ← readU32 bytes 0
  rejectIf (maxInventoryHashes < nt) .badFrame
  rejectIf (bytes.length < 4 + nt * 32 + 4) .badFrame
  let tips ← readHashes bytes nt 4
  let off := 4 + nt * 32
  let nr ← readU32 bytes off
  rejectIf (maxInventoryHashes < nr ∨ maxInventoryHashes < nt + nr) .badFrame
  let off := off + 4
  rejectIf (bytes.length < off + nr * 32 + 1) .badFrame
  let recent ← readHashes bytes nr off
  let off := off + nr * 32
  let hasPeer ← byteAt bytes off
  -- a faucet map that older peers append here is never applied
  let peerId ← readPeerId bytes hasPeer (off + 1)
  return ⟨tips, recent, peerId⟩

/-! ## Messages -/

def encodeWire : MeshWireMessage → UInt8 × Bytes
  | .hello protocol role =>
    let p := asBytes protocol
    (mkHello, leBytes 2 (p.length % 2 ^ 16) ++ p ++ [role.toU8])
  | .ping => (mkPing, asBytes protocolKronMesh)
  | .pong => (mkPong, asBytes protocolKronMesh)
  | .syncInventory inv => (mkSyncInv, encodeSyncInventory inv)
  | .haveIds ids => (mkHave, encodeHashList ids)
  | .needIds ids => (mkNeed, encodeHashList ids)
  | .dagTransaction tx => (mkDagTx, tx.canonicalBytes)
  | .done => (mkDone, [])

def decodeHello (payload : Bytes) : Except (Fault NetworkError) MeshWireMessage := do
  rejectIf (payload.length < 3) .badFrame
  let len ← slice payload 0 2
  let n := leNat len
  rejectIf (payload.length < 2 + n + 1) .badFrame
  let protocol ← slice payload 2 n
  let r ← byteAt payload (2 + n)
  match MeshRole.fromU8 r with
  | some role => return .hello (fromUtf8Lossy protocol) role
  | none => .error (.err .badFrame)

/-- `map_err(|_| NetworkError::BadFrame)`. -/
def asBadFrame {ε β : Type} : Except (Fault ε) β → Except (Fault NetworkError) β
  | .ok b => .ok b
  | .error (.err _) => .error (.err .badFrame)
  | .error .panic => .error .panic

def decodeWire (P : Primitives) (kind : UInt8) (payload : Bytes) :
    Except (Fault NetworkError) MeshWireMessage :=
  if kind = mkHello then decodeHello payload
  else if kind = mkPing then .ok .ping
  else if kind = mkPong then .ok .pong
  else if kind = mkSyncInv then (decodeSyncInventory payload).map .syncInventory
  else if kind = mkHave then (decodeHashList payload).map .haveIds
  else if kind = mkNeed then (decodeHashList payload).map .needIds
  else if kind = mkDagTx then
    (asBadFrame (DagTransaction.fromCanonical P payload)).map .dagTransaction
  else if kind = mkDone then .ok .done
  else .error (.err .badFrame)

/-! ## Lists read back -/

section ReadBack

variable {bytes : Bytes} {off n : ℕ} {ids : List TxHash} {inv : SyncInventory}

theorem length_encodeHashList (ids : List TxHash) :
    (encodeHashList ids).length = 4 + 32 * ids.length := by
  rw [encodeHashList, List.length_append, length_leBytes, length_flatMap_hashBytes]

theorem length_encodeSyncInventory (inv : SyncInventory) : (encodeSyncInventory inv).length
    ≤ 41 + 32 * (inv.tips.length + inv.recent.length) := by
  have hpeer : (encodePeerId inv.peerId).length ≤ 33 := by
    rcases inv.peerId with _ | id
    · decide
    · rw [encodePeerId, List.length_cons, length_hashBytes]
  rw [encodeSyncInventory, List.length_append, List.length_append, length_encodeHashList,
    length_encodeHashList]
  omega

theorem length_readHashes : ∀ (n off : ℕ) {ids : List TxHash}, readHashes bytes n off = .ok ids →
    ids.length = n
  | 0, _, _, h => by
    cases h
    rfl
  | n + 1, off, ids, h => by
    obtain ⟨_, _, h⟩ := bind_eq_ok.1 h
    obtain ⟨rest, hrest, h⟩ := bind_eq_ok.1 h
    cases h
    rw [List.length_cons, length_readHashes n _ hrest]

theorem readHashes_at : ∀ (ids : List TxHash) (off : ℕ), At bytes off (ids.flatMap hashBytes) →
    readHashes bytes ids.length off = .ok ids
  | [], _, _ => rfl
  | id :: ids, off, hat => by
    rw [List.flatMap_cons] at hat
    have hrest : At bytes (off + 32) (ids.flatMap hashBytes) := by
      have h := hat.right
      rwa [length_hashBytes] at h
    rw [List.length_cons, readHashes, slice_at hat.left (length_hashBytes id), ok_bind,
      readHashes_at ids _ hrest, ok_bind, hashOfBytes_hashBytes]
    rfl

/-- What the decoder accepts is within the cap. -/
theorem length_of_decodeHashList (h : decodeHashList bytes = .ok ids) :
    ids.length ≤ maxInventoryHashes := by
  obtain ⟨_, _, h⟩ := bind_eq_ok.1 h
  obtain ⟨n, _, h⟩ := bind_eq_ok.1 h
  obtain ⟨_, hn, h⟩ := bind_eq_ok.1 h
  obtain ⟨_, _, h⟩ := bind_eq_ok.1 h
  rw [length_readHashes _ _ h]
  exact not_lt.1 (rejectIf_eq_ok.1 hn)

/-- A list is read back exactly when it is within the cap. -/
theorem decodeHashList_encode :
    decodeHashList (encodeHashList ids) = .ok ids ↔ ids.length ≤ maxInventoryHashes := by
  refine ⟨length_of_decodeHashList, fun hle => ?_⟩
  have hlt : ids.length < 2 ^ 32 := lt_of_le_of_lt hle (by decide)
  have hlen := length_encodeHashList ids
  have hat : At (encodeHashList ids) 0 (leBytes 4 ids.length ++ ids.flatMap hashBytes) := by
    refine At.of_eq ?_
    rw [encodeHashList, Nat.mod_eq_of_lt hlt]
  generalize encodeHashList ids = bytes at hlen hat ⊢
  have hids : At bytes 4 (ids.flatMap hashBytes) := by
    have h := hat.right
    rwa [length_leBytes] at h
  have h1 : ¬ bytes.length < 4 := by omega
  have h2 : ¬ maxInventoryHashes < ids.length := not_lt.2 hle
  have h3 : ¬ bytes.length ≠ 4 + ids.length * 32 := by omega
  simp only [decodeHashList, rejectIf_of_not h1, ok_bind, readU32_at hat.left hlt,
    rejectIf_of_not h2, rejectIf_of_not h3, readHashes_at ids 4 hids]

theorem length_of_decodeSyncInventory (h : decodeSyncInventory bytes = .ok inv) :
    inv.tips.length + inv.recent.length ≤ maxInventoryHashes := by
  obtain ⟨_, _, h⟩ := bind_eq_ok.1 h
  obtain ⟨nt, _, h⟩ := bind_eq_ok.1 h
  obtain ⟨_, _, h⟩ := bind_eq_ok.1 h
  obtain ⟨_, _, h⟩ := bind_eq_ok.1 h
  obtain ⟨tips, htips, h⟩ := bind_eq_ok.1 h
  obtain ⟨nr, _, h⟩ := bind_eq_ok.1 h
  obtain ⟨_, hn, h⟩ := bind_eq_ok.1 h
  obtain ⟨_, _, h⟩ := bind_eq_ok.1 h
  obtain ⟨recent, hrecent, h⟩ := bind_eq_ok.1 h
  obtain ⟨_, _, h⟩ := bind_eq_ok.1 h
  obtain ⟨peerId, _, h⟩ := bind_eq_ok.1 h
  cases h
  rw [length_readHashes _ _ htips, length_readHashes _ _ hrecent]
  exact not_lt.1 (not_or.1 (rejectIf_eq_ok.1 hn)).2

theorem readPeerId_at {peerId : Option Address} (hat : At bytes off (encodePeerId peerId)) :
    ∃ hasPeer, byteAt (ε := NetworkError) bytes off = .ok hasPeer
      ∧ readPeerId bytes hasPeer (off + 1) = .ok peerId := by
  rcases peerId with _ | id
  · exact ⟨0, byteAt_at hat, rfl⟩
  · have hat : At bytes off ([1] ++ hashBytes id) := hat
    have hid : At bytes (off + 1) (hashBytes id) := hat.right
    have hle := hid.le
    rw [length_hashBytes] at hle
    have h1 : ¬ bytes.length < off + 1 + 32 := by omega
    refine ⟨1, byteAt_at hat.left, ?_⟩
    rw [readPeerId, if_pos rfl, rejectIf_of_not h1, ok_bind, slice_at hid (length_hashBytes id),
      ok_bind, hashOfBytes_hashBytes]
    rfl

/-- An inventory within the cap is read back, whatever stands behind it. -/
theorem decodeSyncInventory_at (hat : At bytes 0 (encodeSyncInventory inv))
    (hle : inv.tips.length + inv.recent.length ≤ maxInventoryHashes) :
    decodeSyncInventory bytes = .ok inv := by
  have hcap : maxInventoryHashes < 2 ^ 32 := by decide
  have htlt : inv.tips.length < 2 ^ 32 := by omega
  have hrlt : inv.recent.length < 2 ^ 32 := by omega
  rw [encodeSyncInventory, encodeHashList, encodeHashList, Nat.mod_eq_of_lt htlt,
    Nat.mod_eq_of_lt hrlt] at hat
  have htips := hat.left.left.right
  have hnr := hat.left.right.left
  have hrecent := hat.left.right.right
  have hpeer := hat.right
  simp only [List.length_append, length_leBytes, length_flatMap_hashBytes, Nat.zero_add]
    at htips hnr hrecent hpeer
  have e1 : 4 + inv.tips.length * 32 = 4 + 32 * inv.tips.length := by omega
  have e2 : 4 + 32 * inv.tips.length + (4 + 32 * inv.recent.length)
      = 4 + 32 * inv.tips.length + 4 + inv.recent.length * 32 := by omega
  rw [e2] at hpeer
  obtain ⟨hasPeer, hbyte, hread⟩ := readPeerId_at hpeer
  have hend := hpeer.le
  have hpos : 1 ≤ (encodePeerId inv.peerId).length := by
    rcases inv.peerId with _ | id
    · exact le_rfl
    · exact Nat.succ_pos _
  have h1 : ¬ bytes.length < 4 := by omega
  have h2 : ¬ maxInventoryHashes < inv.tips.length := by omega
  have h3 : ¬ bytes.length < 4 + 32 * inv.tips.length + 4 := by omega
  have h4 : ¬ (maxInventoryHashes < inv.recent.length
      ∨ maxInventoryHashes < inv.tips.length + inv.recent.length) := by omega
  have h5 : ¬ bytes.length
      < 4 + 32 * inv.tips.length + 4 + inv.recent.length * 32 + 1 := by omega
  simp only [decodeSyncInventory, rejectIf_of_not h1, ok_bind, readU32_at hat.left.left.left htlt,
    rejectIf_of_not h2, e1, rejectIf_of_not h3, readHashes_at _ _ htips, readU32_at hnr hrlt,
    rejectIf_of_not h4, rejectIf_of_not h5, readHashes_at _ _ hrecent, hbyte, hread]
  rfl

/-- It is read back exactly when tips and recent hashes together are within the cap. -/
theorem decodeSyncInventory_encode : decodeSyncInventory (encodeSyncInventory inv) = .ok inv ↔
    inv.tips.length + inv.recent.length ≤ maxInventoryHashes :=
  ⟨length_of_decodeSyncInventory, decodeSyncInventory_at (At.refl _)⟩

end ReadBack

/-! ## Text read back -/

theorem lossyChars_flatMap : ∀ (cs : List Char) (n : ℕ), cs.length ≤ n →
    lossyChars n (cs.flatMap String.utf8EncodeChar) = cs
  | [], 0, _ => rfl
  | [], _ + 1, _ => rfl
  | _ :: _, 0, h => absurd h (Nat.not_succ_le_zero _)
  | c :: cs, n + 1, h => by
    have hdec : ByteArray.utf8DecodeChar?
        ⟨((c :: cs).flatMap String.utf8EncodeChar).toArray⟩ 0 = some c := by
      rw [← List.data_toByteArray]
      exact List.utf8DecodeChar?_utf8Encode_cons
    have hne : (c :: cs).flatMap String.utf8EncodeChar ≠ [] := by
      have hpos := c.utf8Size_pos
      rw [← String.length_utf8EncodeChar] at hpos
      rw [List.flatMap_cons]
      exact List.append_ne_nil_of_left_ne_nil (List.ne_nil_of_length_pos hpos) _
    rw [lossyChars.eq_3 _ _ hne, hdec]
    simp only []
    rw [List.flatMap_cons, ← String.length_utf8EncodeChar, List.drop_left,
      lossyChars_flatMap cs n (Nat.le_of_succ_le_succ h)]

/-- Nothing of a text is lost on the way. -/
theorem fromUtf8Lossy_asBytes (s : String) : fromUtf8Lossy (asBytes s) = s := by
  have hlen : ∀ cs : List Char, cs.length ≤ (cs.flatMap String.utf8EncodeChar).length := by
    intro cs
    induction cs with
    | nil => exact le_rfl
    | cons c cs ih =>
      have hpos := c.utf8Size_pos
      rw [List.flatMap_cons, List.length_append, String.length_utf8EncodeChar, List.length_cons]
      omega
  rw [fromUtf8Lossy, asBytes, lossyChars_flatMap _ _ (hlen _), String.ofList_toList]

theorem strFromUtf8_asBytes (s : String) : strFromUtf8 (asBytes s) = some s := by
  rw [strFromUtf8, fromUtf8Lossy_asBytes]
  exact if_pos rfl

theorem fromU8_toU8 (role : MeshRole) : MeshRole.fromU8 role.toU8 = some role := by
  cases role <;> rfl

theorem decodeHello_at {payload : Bytes} {protocol : String} {role : MeshRole}
    (hlen : (asBytes protocol).length ≤ 65535)
    (hat : At payload 0 (leBytes 2 (asBytes protocol).length ++ asBytes protocol ++ [role.toU8])) :
    decodeHello payload = .ok (.hello protocol role) := by
  have hle := hat.le
  have hp := hat.left.right
  have hr := hat.right
  simp only [List.length_append, length_leBytes, List.length_singleton, Nat.zero_add] at hle hp hr
  have h1 : ¬ payload.length < 3 := by omega
  have h2 : ¬ payload.length < 2 + (asBytes protocol).length + 1 := by omega
  have hn : leNat (leBytes 2 (asBytes protocol).length) = (asBytes protocol).length :=
    leNat_leBytes 2 _ (by omega)
  simp only [decodeHello, rejectIf_of_not h1, ok_bind, slice_at hat.left.left (length_leBytes 2 _),
    hn, rejectIf_of_not h2, slice_at hp rfl, byteAt_at hr, fromU8_toU8, fromUtf8Lossy_asBytes]
  rfl

/-! ## Messages read back -/

section Messages

variable {P : Primitives} {ids : List TxHash} {inv : SyncInventory} {tx : DagTransaction}

/-- The other side reads `msg` from a frame of its bytes. -/
def MeshWireMessage.Readable (P : Primitives) (msg : MeshWireMessage) : Prop :=
  (encodeWire msg).2.length ≤ maxFrame - 1
    ∧ decodeWire P (encodeWire msg).1 (encodeWire msg).2 = .ok msg

theorem map_eq_ok_iff {β γ : Type} {f : β → γ} (hf : Function.Injective f)
    {x : Except (Fault NetworkError) β} {b : β} : x.map f = .ok (f b) ↔ x = .ok b := by
  rcases x with e | c
  · simp [Except.map]
  · simp [Except.map, hf.eq_iff]

/-- A message that comes back within some bound, and is then within a frame. -/
theorem MeshWireMessage.readable_iff {msg : MeshWireMessage} {bounded : Prop}
    (hdec : decodeWire P (encodeWire msg).1 (encodeWire msg).2 = .ok msg ↔ bounded)
    (hlen : bounded → (encodeWire msg).2.length ≤ maxFrame - 1) : msg.Readable P ↔ bounded :=
  ⟨fun h => hdec.1 h.2, fun h => ⟨hlen h, hdec.2 h⟩⟩

theorem length_encodeHashList_le (h : ids.length ≤ maxInventoryHashes) :
    (encodeHashList ids).length ≤ maxFrame - 1 := by
  rw [length_encodeHashList, maxFrame]
  rw [maxInventoryHashes] at h
  omega

theorem readable_needIds :
    (MeshWireMessage.needIds ids).Readable P ↔ ids.length ≤ maxInventoryHashes :=
  MeshWireMessage.readable_iff
    ((map_eq_ok_iff fun _ _ h => MeshWireMessage.needIds.inj h).trans decodeHashList_encode)
    length_encodeHashList_le

theorem readable_haveIds :
    (MeshWireMessage.haveIds ids).Readable P ↔ ids.length ≤ maxInventoryHashes :=
  MeshWireMessage.readable_iff
    ((map_eq_ok_iff fun _ _ h => MeshWireMessage.haveIds.inj h).trans decodeHashList_encode)
    length_encodeHashList_le

theorem readable_syncInventory : (MeshWireMessage.syncInventory inv).Readable P ↔
    inv.tips.length + inv.recent.length ≤ maxInventoryHashes := by
  refine MeshWireMessage.readable_iff
    ((map_eq_ok_iff fun _ _ h => MeshWireMessage.syncInventory.inj h).trans
      decodeSyncInventory_encode) fun h => ?_
  have hlen := length_encodeSyncInventory inv
  show (encodeSyncInventory inv).length ≤ maxFrame - 1
  rw [maxFrame]
  rw [maxInventoryHashes] at h
  omega

theorem readable_ping : MeshWireMessage.ping.Readable P := ⟨by decide, rfl⟩

theorem readable_pong : MeshWireMessage.pong.Readable P := ⟨by decide, rfl⟩

theorem readable_done : MeshWireMessage.done.Readable P := ⟨by decide, rfl⟩

/-- What the length fields of a message can say; vertices apart. -/
def MeshWireMessage.Bounded : MeshWireMessage → Prop
  | .hello protocol _ => (asBytes protocol).length ≤ 65535
  | .syncInventory inv => inv.tips.length + inv.recent.length ≤ maxInventoryHashes
  | .haveIds ids => ids.length ≤ maxInventoryHashes
  | .needIds ids => ids.length ≤ maxInventoryHashes
  | .dagTransaction _ => False
  | .ping => True
  | .pong => True
  | .done => True

/-- Every message within its bounds, a vertex apart, is read back from its bytes, and an inventory
whatever stands behind it. -/
theorem decodeWire_encodeWire {msg : MeshWireMessage} (h : msg.Bounded) :
    decodeWire P (encodeWire msg).1 (encodeWire msg).2 = .ok msg
      ∧ ∀ inv, msg = .syncInventory inv → ∀ legacy : Bytes,
        decodeWire P (encodeWire msg).1 ((encodeWire msg).2 ++ legacy) = .ok msg := by
  cases msg with
  | hello protocol role =>
    refine ⟨decodeHello_at h (At.of_eq ?_), fun inv hinv => by cases hinv⟩
    have hlt : (asBytes protocol).length < 2 ^ 16 := by
      have : (asBytes protocol).length ≤ 65535 := h
      omega
    rw [← Nat.mod_eq_of_lt hlt]
    rfl
  | ping => exact ⟨rfl, fun inv hinv => by cases hinv⟩
  | pong => exact ⟨rfl, fun inv hinv => by cases hinv⟩
  | syncInventory inv =>
    have hmap : ∀ {payload : Bytes}, decodeSyncInventory payload = .ok inv →
        decodeWire P mkSyncInv payload = .ok (.syncInventory inv) :=
      (map_eq_ok_iff fun _ _ h => MeshWireMessage.syncInventory.inj h).2
    refine ⟨hmap (decodeSyncInventory_encode.2 h), fun inv' hinv legacy => ?_⟩
    cases hinv
    exact hmap (decodeSyncInventory_at ((At.refl _).append_right legacy) h)
  | haveIds ids => exact ⟨(readable_haveIds.2 h).2, fun inv hinv => by cases hinv⟩
  | needIds ids => exact ⟨(readable_needIds.2 h).2, fun inv hinv => by cases hinv⟩
  | dagTransaction tx => exact h.elim
  | done => exact ⟨rfl, fun inv hinv => by cases hinv⟩

open StandIn in
theorem decodeWire_encodeWire_legacy :
    decodeWire primitives mkSyncInv (encodeSyncInventory ⟨[1], [1, 2], some 3⟩ ++ [9, 9, 9])
      = .ok (.syncInventory ⟨[1], [1, 2], some 3⟩) := by
  have hbounded : (MeshWireMessage.syncInventory ⟨[1], [1, 2], some 3⟩).Bounded := by
    show 1 + 2 ≤ maxInventoryHashes
    decide
  exact (decodeWire_encodeWire hbounded).2 _ rfl [9, 9, 9]

/-- A checked vertex that comes back from its bytes fits a frame: it has no carriers. -/
theorem readable_dagTransaction (hsig : tx.verifySignature P = true)
    (hrel : tx.verifyRelayProofs P = true)
    (hfc : DagTransaction.fromCanonical P tx.canonicalBytes = .ok tx) :
    (MeshWireMessage.dagTransaction tx).Readable P := by
  refine ⟨?_, ?_⟩
  · rw [encodeWire, length_canonicalBytes_of_checked hsig hrel hfc]
    decide
  · have hdec : decodeWire P mkDagTx tx.canonicalBytes
        = (asBadFrame (DagTransaction.fromCanonical P tx.canonicalBytes)).map .dagTransaction := rfl
    rw [encodeWire, hdec, hfc]
    rfl

end Messages

end KronMesh
