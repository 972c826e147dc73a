import KronMesh.Routing
import KronMesh.StandIn

/-!
# What an eclipse meets

Contacts whose overlay ids are derived from their ids, as the handshake derives them, leave at most
two of a /24 in a bucket and file everyone once (`insertAll_sound`). A refused contact loses the
entry that it had, so it leaves the tables alone only when it had none, or when its bucket takes it
(`insert_refused_unchanged_iff`).
-/

namespace KronMesh.Routing

open Wire Groups Handshake

/-! ## The bucket of a distance -/

theorem value_eq_leNat : ∀ bs : Bytes, value 8 bs.reverse = leNat bs
  | [] => rfl
  | b :: bs => by
    rw [List.reverse_cons, value_concat, value_eq_leNat bs, leNat, Nat.mul_comm, Nat.add_comm]
    rfl

theorem value_hashBytes (h : Hash) : value 8 (hashBytes h) = h.toNat := by
  have hlt : h.toNat < 256 ^ 32 := h.isLt
  rw [hashBytes, value_eq_leNat, leNat_leBytes 32 _ hlt]

theorem leadingBits_spec : ∀ {bs : Bytes}, value 8 bs ≠ 0 → leadingBits bs < 8 * bs.length
    ∧ 2 ^ (8 * bs.length - 1 - leadingBits bs) ≤ value 8 bs
    ∧ value 8 bs < 2 ^ (8 * bs.length - leadingBits bs)
  | [], h => absurd rfl h
  | b :: bs, h => by
    by_cases hb : b = 0
    · subst hb
      rw [value_cons, UInt8.toNat_zero, Nat.zero_mul, Nat.zero_add] at h ⊢
      obtain ⟨hlt, hlow, hhigh⟩ := leadingBits_spec h
      rw [leadingBits, if_pos rfl, List.length_cons]
      refine ⟨by omega, ?_, ?_⟩
      · rwa [show 8 * (bs.length + 1) - 1 - (8 + leadingBits bs)
          = 8 * bs.length - 1 - leadingBits bs by omega]
      · rwa [show 8 * (bs.length + 1) - (8 + leadingBits bs)
          = 8 * bs.length - leadingBits bs by omega]
    · have hb0 : b.toNat ≠ 0 := fun hz => hb (UInt8.toNat_inj.1 hz)
      have hlog : b.toNat.log2 < 8 := (Nat.log2_lt hb0).2 b.toNat_lt
      have hlow : 2 ^ b.toNat.log2 ≤ b.toNat := Nat.log2_self_le hb0
      have hhigh : b.toNat + 1 ≤ 2 ^ (b.toNat.log2 + 1) := Nat.lt_log2_self
      have hrest := value_lt (by decide) (fits_eight bs)
      have hpow : ∀ a c, 2 ^ (8 * a + c) = 2 ^ c * 2 ^ (8 * a) := fun a c => by
        rw [Nat.pow_add, Nat.mul_comm]
      rw [leadingBits, if_neg hb, leadingZeros, if_neg hb, List.length_cons, value_cons]
      refine ⟨by omega, ?_, ?_⟩
      · rw [show 8 * (bs.length + 1) - 1 - (7 - b.toNat.log2) = 8 * bs.length + b.toNat.log2
          by omega, hpow]
        exact (Nat.mul_le_mul_right _ hlow).trans (Nat.le_add_right _ _)
      · rw [show 8 * (bs.length + 1) - (7 - b.toNat.log2) = 8 * bs.length + (b.toNat.log2 + 1)
          by omega, hpow]
        calc b.toNat * 2 ^ (8 * bs.length) + value 8 bs
            < b.toNat * 2 ^ (8 * bs.length) + 2 ^ (8 * bs.length) := Nat.add_lt_add_left hrest _
          _ = (b.toNat + 1) * 2 ^ (8 * bs.length) := by rw [Nat.add_mul, Nat.one_mul]
          _ ≤ 2 ^ (b.toNat.log2 + 1) * 2 ^ (8 * bs.length) := Nat.mul_le_mul_right _ hhigh

/-- Sixteen bits of the distance to each bucket. -/
theorem bucketIndex_spec {localId remote : Address} (h : remote ≠ localId) :
    2 ^ (16 * (bucketIndex localId remote).val) ≤ (xorDistance localId remote).toNat
      ∧ (xorDistance localId remote).toNat
        < 2 ^ (16 * ((bucketIndex localId remote).val + 1)) := by
  have hne : (xorDistance localId remote).toNat ≠ 0 := by
    intro hz
    have hxor : localId ^^^ remote = 0#256 := BitVec.eq_of_toNat_eq hz
    exact h (BitVec.xor_eq_zero_iff.1 hxor).symm
  have hvalue : value 8 (hashBytes (xorDistance localId remote)) ≠ 0 := by rwa [value_hashBytes]
  obtain ⟨hlt, hlow, hhigh⟩ := leadingBits_spec hvalue
  rw [value_hashBytes, length_hashBytes] at hlow hhigh
  rw [length_hashBytes] at hlt
  have hval : (bucketIndex localId remote).val
      = (255 - leadingBits (hashBytes (xorDistance localId remote))) / 16 := by
    unfold bucketIndex
    rw [if_neg (by omega)]
    rfl
  rw [hval]
  constructor
  · exact (Nat.pow_le_pow_right (by decide) (by omega)).trans hlow
  · exact hhigh.trans_le (Nat.pow_le_pow_right (by decide) (by omega))

/-! ## Contacts with derived overlay ids -/

/-- The overlay id is the one of the id. -/
def Derived (p : Peer) : Prop := p.overlayId = fromAddress p.id

/-- Whom a handshake returns. -/
theorem derived_infoFrom (P : Primitives) (pk : LatticePublicKey) (role : PeerRole)
    (deviceClass : DeviceClass) (addr : SocketAddr) (score : DeviceScore) :
    Derived (infoFrom P pk role deviceClass addr score).peer := rfl

namespace RoutingTable

variable {t : RoutingTable}

/-- What insertions of contacts with derived overlay ids leave besides. -/
structure Sparse (t : RoutingTable) : Prop where
  derived : ∀ p ∈ t.everyone, Derived p
  slash24_le : ∀ r i net, (t.table r i).countP (inSlash24 net) ≤ maxPerSlash24

theorem sparse_new (localId : Address) (role : PeerRole) : Sparse (new localId role) where
  derived p hp := by
    rw [everyone_new] at hp
    cases hp
  slash24_le r i net := by
    rw [table_new]
    exact Nat.zero_le _

theorem Sparse.removeOverlay (hs : Sparse t) (h : Filed t) (o : Bytes) :
    Sparse (t.removeOverlay o) where
  derived p hp := by
    rw [everyone_removeOverlay h.apart] at hp
    exact hs.derived p (List.mem_of_mem_filter hp)
  slash24_le r i net := by
    rw [table_removeOverlay h.apart]
    exact List.filter_sublist.countP_le.trans (hs.slash24_le r i net)

theorem countP_concat_le {bucket : List Peer} {p : Peer} (h : crowded bucket p.addr = false)
    {net : ℕ} (hle : bucket.countP (inSlash24 net) ≤ maxPerSlash24) :
    (bucket ++ [p]).countP (inSlash24 net) ≤ maxPerSlash24 := by
  rw [List.countP_append, List.countP_singleton]
  split_ifs with hin
  · rcases hip : ipv4Octets p.addr with _ | ip
    · rw [inSlash24, hip] at hin
      cases hin
    · rw [inSlash24, hip, Option.any_some, beq_iff_eq] at hin
      simp only [crowded, hip, decide_eq_false_iff_not, Nat.not_le] at h
      rw [hin] at h
      exact h
  · exact hle

theorem Sparse.insert (hs : Sparse t) (h : Filed t) {p : Peer} (hp : Derived p) :
    Sparse (t.insert p).1 := by
  unfold RoutingTable.insert
  split_ifs with hlocal
  · exact hs
  · have hout := h.removeOverlay p.overlayId
    have hsparse := hs.removeOverlay h p.overlayId
    rcases hout.file_cases { p with state := .live } with
      ⟨hrefused, -⟩ | ⟨rest, hset, -, hrest, -, hcrowded⟩
    · rw [hrefused]
      exact hsparse
    · -- nobody of this id is left, for their overlay id was the same
      have hnone : ∀ q ∈ (t.removeOverlay p.overlayId).bucketOf { p with state := .live },
          q.id ≠ p.id := by
        intro q hq hid
        have hmem : q ∈ (t.removeOverlay p.overlayId).everyone := mem_everyone.2 ⟨_, _, hq⟩
        have hq' := hsparse.derived q hmem
        rw [everyone_removeOverlay h.apart, List.mem_filter, decide_eq_true_eq] at hmem
        exact hmem.2 (hq'.trans ((congrArg fromAddress hid).trans hp.symm))
      rw [hset]
      constructor
      · intro q hq
        obtain ⟨r, i, hq⟩ := mem_everyone.1 hq
        rw [table_setBucket] at hq
        split_ifs at hq with hplace
        · rcases List.mem_append.1 hq with hq | hq
          · exact hsparse.derived q (mem_everyone.2 ⟨_, _, hrest.subset hq⟩)
          · obtain rfl := List.mem_singleton.1 hq
            exact hp
        · exact hsparse.derived q (mem_everyone.2 ⟨_, _, hq⟩)
      · intro r i net
        rw [table_setBucket]
        split_ifs
        · exact countP_concat_le (hcrowded hnone)
            (hrest.countP_le.trans (hsparse.slash24_le _ _ net))
        · exact hsparse.slash24_le r i net

/-! ## Over any run -/

theorem run_preserves (Inv : RoutingTable → Prop) (good : Peer → Prop)
    (hstep : ∀ t p, Inv t → good p → Inv (t.insert p).1) :
    ∀ {peers : List Peer} {t : RoutingTable}, Inv t → (∀ p ∈ peers, good p) →
      Inv (t.insertAll peers)
  | [], _, h, _ => h
  | p :: peers, t, h, hgood => by
    obtain ⟨hp, hpeers⟩ := List.forall_mem_cons.1 hgood
    change Inv ((t.insert p).1.insertAll peers)
    exact run_preserves Inv good hstep (hstep t p h hp) hpeers

theorem filed_insertAll (localId : Address) (role : PeerRole) (peers : List Peer) :
    Filed ((new localId role).insertAll peers) :=
  run_preserves Filed (fun _ => True) (fun _ p h _ => h.insert p) (filed_new localId role)
    fun _ _ => trivial

theorem sparse_insertAll (localId : Address) (role : PeerRole) {peers : List Peer}
    (h : ∀ p ∈ peers, Derived p) : Sparse ((new localId role).insertAll peers) :=
  have hboth := run_preserves (fun t => Filed t ∧ Sparse t) Derived
    (fun _ p ht hp => ⟨ht.1.insert p, ht.2.insert ht.1 hp⟩)
    ⟨filed_new localId role, sparse_new localId role⟩ h
  hboth.2

theorem localId_insert (t : RoutingTable) (p : Peer) : (t.insert p).1.localId = t.localId := by
  have hfile : ∀ (t : RoutingTable) (p : Peer), (t.file p).1.localId = t.localId := by
    intro t p
    unfold file
    simp only []
    split_ifs <;> simp only [localId_setBucket]
  unfold insert
  split_ifs
  · rfl
  · rw [hfile, localId_removeOverlay]

theorem localId_insertAll (localId : Address) (role : PeerRole) (peers : List Peer) :
    ((new localId role).insertAll peers).localId = localId :=
  run_preserves (fun t => t.localId = localId) (fun _ => True)
    (fun t p h _ => (localId_insert t p).trans h) rfl fun _ _ => trivial

/-- Ids are told apart by the overlay ids that they derive. -/
theorem nodup_ids (h : Filed t) (hs : Sparse t) : (t.everyone.map Peer.id).Nodup := by
  refine List.pairwise_map.2 (h.apart.imp_of_mem fun hp hq hne hid => hne ?_)
  exact (hs.derived _ hp).trans ((congrArg fromAddress hid).trans (hs.derived _ hq).symm)

/-- How many contacts share the /24 of an address. -/
def countSlash24 (bucket : List Peer) (ip : Ipv4) : ℕ :=
  bucket.countP fun p => (ipv4Octets p.addr).any fun o => o.a = ip.a ∧ o.b = ip.b ∧ o.c = ip.c

theorem countSlash24_eq (bucket : List Peer) (ip : Ipv4) :
    countSlash24 bucket ip = bucket.countP (inSlash24 (slash24 ip)) := by
  have hsame : ∀ o : Ipv4, (o.a = ip.a ∧ o.b = ip.b ∧ o.c = ip.c) ↔ slash24 o = slash24 ip := by
    intro o
    have := o.b.toNat_lt
    have := o.c.toNat_lt
    have := ip.b.toNat_lt
    have := ip.c.toNat_lt
    unfold slash24
    rw [← UInt8.toNat_inj, ← UInt8.toNat_inj, ← UInt8.toNat_inj]
    omega
  unfold countSlash24
  refine List.countP_congr fun p _ => ?_
  unfold inSlash24
  simp only [hsame, beq_eq_decide]

/-- In every table that insertions of contacts with derived overlay ids leave, a bucket holds at
most eight and at most two of a /24, everyone is live, stands in the table of their role and in the
bucket of their distance, and is not the local one, and no id occurs twice. -/
theorem insertAll_sound (localId : Address) (role : PeerRole) (peers : List Peer)
    (h : ∀ p ∈ peers, p.overlayId = fromAddress p.id) :
    (∀ r i, (((new localId role).insertAll peers).table r i).length ≤ 8
        ∧ ∀ ip, countSlash24 (((new localId role).insertAll peers).table r i) ip ≤ 2)
      ∧ (∀ r i, ∀ p ∈ ((new localId role).insertAll peers).table r i, p.role = r ∧ p.state = .live
        ∧ 2 ^ (16 * i.val) ≤ (xorDistance localId p.id).toNat
        ∧ (xorDistance localId p.id).toNat < 2 ^ (16 * (i.val + 1)))
      ∧ (∀ p ∈ ((new localId role).insertAll peers).everyone, p.id ≠ localId)
      ∧ (((new localId role).insertAll peers).everyone.map Peer.id).Nodup := by
  have hfiled := filed_insertAll localId role peers
  have hsparse := sparse_insertAll localId role h
  have hlocal := localId_insertAll localId role peers
  refine ⟨fun r i => ⟨hfiled.length_le r i, fun ip => ?_⟩, fun r i p hp => ?_, fun p hp => ?_,
    nodup_ids hfiled hsparse⟩
  · rw [countSlash24_eq]
    exact hsparse.slash24_le r i _
  · have hb := hfiled.belongs r i p hp
    rw [hlocal] at hb
    have hspec := bucketIndex_spec hb.remote
    rw [hb.index] at hspec
    exact ⟨hb.role, hb.live, hspec⟩
  · obtain ⟨r, i, hp⟩ := mem_everyone.1 hp
    rw [← hlocal]
    exact (hfiled.belongs r i p hp).remote

/-- Whom a handshake with one and the same key returns. -/
def metAt (role : PeerRole) (ip : Ipv4) : Peer :=
  (infoFrom StandIn.primitives ⟨[]⟩ role .iotSensor (.v4 ip 9000) ⟨850, 800, 0, []⟩).peer

theorem insertAll_sound_moved : (((new 0 .edgeMiner).insertAll
    [metAt .edgeMiner ⟨192, 168, 1, 50⟩,
      metAt .coreValidator ⟨10, 0, 0, 9⟩]).everyone.map Peer.id).Nodup := by
  refine (insertAll_sound 0 .edgeMiner _ ?_).2.2.2
  simp only [List.forall_mem_cons]
  exact ⟨derived_infoFrom _ _ _ _ _ _, derived_infoFrom _ _ _ _ _ _, nofun⟩

/-! ## A refused contact -/

/-- The tables stay when nobody is filed under the overlay id. -/
theorem removeOverlay_unchanged_iff (h : Filed t) (id : Bytes) :
    ((t.removeOverlay id).core = t.core ∧ (t.removeOverlay id).edge = t.edge)
      ↔ ∀ q ∈ t.everyone, q.overlayId ≠ id := by
  constructor
  · rintro ⟨hcore, hedge⟩ q hq
    have hsame : (t.removeOverlay id).everyone = t.everyone := by
      rw [everyone, everyone, hcore, hedge]
    rw [everyone_removeOverlay h.apart] at hsame
    exact of_decide_eq_true (List.filter_eq_self.1 hsame q hq)
  · intro hnone
    have hkeep : ∀ r i, (t.removeOverlay id).table r i = t.table r i := by
      intro r i
      rw [table_removeOverlay h.apart]
      exact List.filter_eq_self.2 fun q hq => decide_eq_true (hnone q (mem_everyone.2 ⟨r, i, hq⟩))
    exact ⟨funext (hkeep .coreValidator), funext (hkeep .edgeMiner)⟩

/-- A refusal leaves the tables as they were exactly when the contact is the local one, when nothing
is filed under its overlay id, or when its bucket, without what is filed so, takes it. -/
theorem insert_refused_unchanged_iff (localId : Address) (role : PeerRole) (peers : List Peer)
    (peer : Peer) :
    let t := (new localId role).insertAll peers
    ((t.insert peer).2 = .error .routingDenied →
        (t.insert peer).1.core = t.core ∧ (t.insert peer).1.edge = t.edge)
      ↔ (peer.id = localId ∨ peer.overlayId = fromAddress localId)
        ∨ (∀ q ∈ t.everyone, q.overlayId ≠ peer.overlayId)
        ∨ Takes ((t.bucketOf peer).filter fun q => q.overlayId ≠ peer.overlayId) peer := by
  intro t
  have hfiled : Filed t := filed_insertAll localId role peers
  have hlocalId : t.localId = localId := localId_insertAll localId role peers
  have hoverlay : t.localOverlay = fromAddress localId := by rw [hfiled.localOverlay, hlocalId]
  have hbucket : (t.removeOverlay peer.overlayId).bucketOf { peer with state := .live }
      = (t.bucketOf peer).filter fun q => q.overlayId ≠ peer.overlayId := by
    rw [bucketOf, table_removeOverlay hfiled.apart, localId_removeOverlay, bucketOf]
  by_cases hlocal : peer.id = localId ∨ peer.overlayId = fromAddress localId
  · have hsame : t.insert peer = (t, .error .routingDenied) := by
      rw [insert, hlocalId, hoverlay, if_pos hlocal]
    rw [hsame]
    exact iff_of_true (fun _ => ⟨rfl, rfl⟩) (.inl hlocal)
  · have hrun : t.insert peer
        = (t.removeOverlay peer.overlayId).file { peer with state := .live } := by
      rw [insert, hlocalId, hoverlay, if_neg hlocal]
    rw [hrun, or_iff_right hlocal]
    rcases (hfiled.removeOverlay peer.overlayId).file_cases { peer with state := .live } with
      ⟨hrefused, hnot⟩ | ⟨rest, hset, htakes, -⟩
    · rw [hbucket] at hnot
      have hnotTakes : ¬ Takes ((t.bucketOf peer).filter fun q => q.overlayId ≠ peer.overlayId)
          peer := hnot
      rw [hrefused, or_iff_left hnotTakes, ← removeOverlay_unchanged_iff hfiled]
      exact forall_prop_of_true rfl
    · rw [hbucket] at htakes
      rw [hset]
      exact iff_of_true (fun h => by cases h) (.inr htakes)

/-- A contact at port 9000 of an IPv4 address. -/
def contactAt (id : Address) (role : PeerRole) (ip : Ipv4) : Peer where
  id := id
  overlayId := fromAddress id
  publicKey := ⟨[]⟩
  addr := .v4 ip 9000
  role := role
  deviceClass := .iotSensor
  reputation := 100
  state := .live

/-- A core anchor asks to be an edge miner, at an address whose /24 has its share of the bucket: it
is refused, and the phone has no anchor left. -/
theorem refused_anchor_lost :
    let t := (new 0 .edgeMiner).insertAll
      [contactAt (1#256 <<< 250) .edgeMiner ⟨86, 10, 10, 1⟩,
        contactAt (2#256 <<< 250) .edgeMiner ⟨86, 10, 10, 2⟩,
        contactAt (3#256 <<< 250) .coreValidator ⟨10, 0, 0, 9⟩]
    let moved := contactAt (3#256 <<< 250) .edgeMiner ⟨86, 10, 10, 3⟩
    (t.insert moved).2 = .error .routingDenied ∧ t.coreCount = 1
      ∧ (t.insert moved).1.coreCount = 0
      ∧ ¬ ((t.insert moved).1.core = t.core ∧ (t.insert moved).1.edge = t.edge) := by
  intro t moved
  have hbefore : t.coreCount = 1 := by decide +kernel
  have hafter : (t.insert moved).1.coreCount = 0 := by decide +kernel
  refine ⟨by decide +kernel, hbefore, hafter, fun h => ?_⟩
  have hsame : (t.insert moved).1.coreCount = t.coreCount := by
    rw [coreCount, h.1]
    rfl
  rw [hafter, hbefore] at hsame
  cases hsame

end RoutingTable

end KronMesh.Routing
