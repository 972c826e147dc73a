import KronMesh.Handshake

/-!
# What gossip carries

Peers tell each other the ids of what they hold, and send a body for an id that is asked for. A body
is the encoding of a vertex behind a tag, and its id is its hash.
-/

namespace KronMesh.Gossip

open Wire Handshake

/-- `NetworkError` with what the decoder of a vertex adds to it. -/
inductive GossipError
  | session (e : SessionError)
  | dag (e : DagError)
  deriving DecidableEq

inductive MeshMessage
  | vertex (tx : DagTransaction)
  deriving DecidableEq

def tagVertex : UInt8 := 0

def encodeMesh : MeshMessage → Bytes
  | .vertex tx => tagVertex :: putBytes tx.canonicalBytes

def decodeMesh (P : Primitives) (bytes : Bytes) : Except (Fault GossipError) MeshMessage := do
  rejectIf bytes.isEmpty (.session badFrame)
  let tag ← byteAt bytes 0
  rejectIf (tag ≠ tagVertex) (.session badFrame)
  let (raw, _) ← mapFault .session (takeBytes bytes 1)
  let tx ← mapFault .dag (DagTransaction.fromCanonical P raw)
  return .vertex tx

structure GossipInventory where
  ids : List Hash
  deriving DecidableEq

def GossipInventory.encode (inv : GossipInventory) : Bytes :=
  leBytes 2 (inv.ids.length % 2 ^ 16) ++ inv.ids.flatMap hashBytes

def GossipInventory.decode (bytes : Bytes) : Except (Fault NetworkError) GossipInventory := do
  rejectIf (bytes.length < 2) .badFrame
  let n ← readU16 bytes 0
  rejectIf (bytes.length ≠ 2 + n.toNat * 32) .badFrame
  let ids ← readHashes bytes n.toNat 2
  return ⟨ids⟩

structure GossipPayload where
  id : Hash
  body : Bytes
  deriving DecidableEq

def GossipPayload.encode (p : GossipPayload) : Bytes := hashBytes p.id ++ putBytes p.body

def GossipPayload.decode (bytes : Bytes) : Except (Fault SessionError) GossipPayload := do
  rejectIf (bytes.length < 32) badFrame
  let id ← slice bytes 0 32
  let (body, _) ← takeBytes bytes 32
  return ⟨hashOfBytes id, body⟩

/-! ## Read back -/

/-- An inventory is read back exactly when its length is a word of two bytes. -/
theorem GossipInventory.decode_encode {inv : GossipInventory} :
    GossipInventory.decode inv.encode = .ok inv ↔ inv.ids.length < 2 ^ 16 := by
  have hlen : inv.encode.length = 2 + inv.ids.length * 32 := by
    rw [encode, List.length_append, length_leBytes, length_flatMap_hashBytes, Nat.mul_comm]
  constructor
  · intro h
    obtain ⟨_, _, h⟩ := bind_eq_ok.1 h
    obtain ⟨n, _, h⟩ := bind_eq_ok.1 h
    obtain ⟨_, hn, -⟩ := bind_eq_ok.1 h
    have hn := not_not.1 (rejectIf_eq_ok.1 hn)
    have hlt := n.toNat_lt
    omega
  · intro h
    have hat : At inv.encode 0 (leBytes 2 inv.ids.length ++ inv.ids.flatMap hashBytes) := by
      refine At.of_eq ?_
      rw [encode, Nat.mod_eq_of_lt h]
    have hn : (UInt16.ofNat inv.ids.length).toNat = inv.ids.length :=
      UInt16.toNat_ofNat_of_lt' h
    have hids := hat.right
    rw [length_leBytes] at hids
    have hread : readU16 (ε := NetworkError) inv.encode 0 = .ok (UInt16.ofNat inv.ids.length) :=
      readU16_at (hn.symm ▸ hat.left)
    have h1 : ¬ inv.encode.length < 2 := by omega
    rw [decode, rejectIf_of_not h1, ok_bind, hread, ok_bind, hn, rejectIf_of_not (not_not.2 hlen),
      ok_bind, readHashes_at inv.ids 2 hids, ok_bind]
    rfl

theorem GossipPayload.decode_encode {p : GossipPayload} (h : p.body.length < 2 ^ 32) :
    GossipPayload.decode p.encode = .ok p := by
  have hat : At p.encode 0 (hashBytes p.id ++ putBytes p.body) := At.refl _
  have hbody := hat.right
  rw [length_hashBytes] at hbody
  have h1 : ¬ p.encode.length < 32 := by
    rw [encode, List.length_append, length_hashBytes]
    omega
  rw [decode, rejectIf_of_not h1, ok_bind, slice_at hat.left (length_hashBytes p.id), ok_bind,
    takeBytes_at hbody h, ok_bind, hashOfBytes_hashBytes]
  rfl

/-- A vertex that its own decoder reads is read behind its tag. -/
theorem decodeMesh_encodeMesh {P : Primitives} {tx : DagTransaction}
    (h : DagTransaction.fromCanonical P tx.canonicalBytes = .ok tx)
    (hlen : tx.canonicalBytes.length < 2 ^ 32) :
    decodeMesh P (encodeMesh (.vertex tx)) = .ok (.vertex tx) := by
  obtain ⟨htag, hbody⟩ := (At.refl (encodeMesh (.vertex tx))).uncons
  have h1 : ¬ (encodeMesh (.vertex tx)).isEmpty := Bool.false_ne_true
  rw [decodeMesh, rejectIf_of_not h1, ok_bind, byteAt_at htag, ok_bind,
    rejectIf_of_not (not_not.2 rfl), ok_bind, takeBytes_at hbody hlen]
  simp only [mapFault, ok_bind, h]
  rfl

end KronMesh.Gossip
