import KronMesh.Handshake
import KronMesh.Lib.Groups
import KronMesh.Lib.Nearest
import KronMesh.Lib.Outcome

/-!
# The routing table

A dual Kademlia table, core validators and edge miners apart, with sixteen buckets each by the
distance to the local id. A contact is known by its overlay id; whatever was filed under it goes
before the new entry is looked at.
-/

namespace KronMesh.Routing

open Wire Groups Handshake

abbrev bucketCount : ℕ := 16

/-- `K`. -/
def bucketSize : ℕ := 8

def maxPerSlash24 : ℕ := 2

def minCoreAnchors : ℕ := 4

/-- `NetworkError::RoutingDenied`, the one error of the table. -/
inductive RoutingError
  | routingDenied
  deriving DecidableEq, Repr

/-- `NodeOverlayId::from_address`. -/
def fromAddress (addr : Address) : Bytes := 0xfd :: (hashBytes addr).take 15

def slash24 (ip : Ipv4) : ℕ := ((ip.a.toNat * 256 + ip.b.toNat) * 256 + ip.c.toNat) * 256

/-- Byte by byte; the order of the distances is the order of the bytes. -/
def xorDistance (a b : Address) : Address := a ^^^ b

/-- `u8::leading_zeros`. -/
def leadingZeros (b : UInt8) : ℕ := if b = 0 then 8 else 7 - b.toNat.log2

/-- The zero bits in front. -/
def leadingBits : Bytes → ℕ
  | [] => 0
  | b :: bs => if b = 0 then 8 + leadingBits bs else leadingZeros b

def bucketIndex (localId remote : Address) : Fin bucketCount :=
  let bits := leadingBits (hashBytes (xorDistance localId remote))
  if 256 ≤ bits then 0
  else ⟨(255 - bits) / (256 / bucketCount), by
    have h : (255 - bits) / (256 / bucketCount) ≤ 255 / (256 / bucketCount) :=
      Nat.div_le_div_right (Nat.sub_le _ _)
    exact h.trans_lt (by decide)⟩

abbrev Buckets := Fin bucketCount → List Peer

/-- `buckets.iter().flatten()`. -/
def contacts (b : Buckets) : List Peer := (List.finRange bucketCount).flatMap b

/-- The first contact of the kind goes, in the first bucket that has one. -/
def removeFirst (kind : Peer → Bool) (b : Buckets) : Option Buckets :=
  ((List.finRange bucketCount).find? fun i => (b i).any kind).map fun i =>
    Function.update b i ((b i).eraseP kind)

def inSlash24 (net : ℕ) (p : Peer) : Bool := (ipv4Octets p.addr).any fun o => slash24 o == net

/-- Whether the address is an IPv4 one whose /24 has its share of the bucket. -/
def crowded (bucket : List Peer) (addr : SocketAddr) : Bool :=
  match ipv4Octets addr with
  | none => false
  | some ip => maxPerSlash24 ≤ bucket.countP (inSlash24 (slash24 ip))

structure RoutingTable where
  localId : Address
  localOverlay : Bytes
  localRole : PeerRole
  core : Buckets
  edge : Buckets

namespace RoutingTable

def new (localId : Address) (localRole : PeerRole) : RoutingTable where
  localId := localId
  localOverlay := fromAddress localId
  localRole := localRole
  core _ := []
  edge _ := []

/-- The table of a role. -/
def table (t : RoutingTable) : PeerRole → Buckets
  | .coreValidator => t.core
  | .edgeMiner => t.edge

def setBucket (t : RoutingTable) (role : PeerRole) (i : Fin bucketCount) (bucket : List Peer) :
    RoutingTable :=
  match role with
  | .coreValidator => { t with core := Function.update t.core i bucket }
  | .edgeMiner => { t with edge := Function.update t.edge i bucket }

def coreCount (t : RoutingTable) : ℕ := ((List.finRange bucketCount).map fun i =>
  (t.core i).length).sum

/-- `core.iter().chain(edge.iter()).flatten()`. -/
def everyone (t : RoutingTable) : List Peer := contacts t.core ++ contacts t.edge

def livePeers (t : RoutingTable) : List Peer := t.everyone.filter fun p => p.state = .live

def containsOverlay (t : RoutingTable) (id : Bytes) : Bool :=
  id = t.localOverlay || t.livePeers.any fun p => p.overlayId = id

/-- Whatever is filed first under this overlay id goes. -/
def removeOverlay (t : RoutingTable) (id : Bytes) : RoutingTable :=
  match removeFirst (fun p => p.overlayId = id) t.core with
  | some core => { t with core := core }
  | none =>
    match removeFirst (fun p => p.overlayId = id) t.edge with
    | some edge => { t with edge := edge }
    | none => t

/-- What `insert` does with a live contact when nothing else is filed under its overlay id. -/
def file (t : RoutingTable) (peer : Peer) : Outcome RoutingTable RoutingError :=
  let idx := bucketIndex t.localId peer.id
  let bucket := t.table peer.role idx
  if bucket.any fun p => p.id = peer.id then
    (t.setBucket peer.role idx (bucket.eraseP (fun p => p.id = peer.id) ++ [peer]), .ok ())
  else if crowded bucket peer.addr then (t, .error .routingDenied)
  else if bucket.length < bucketSize then (t.setBucket peer.role idx (bucket ++ [peer]), .ok ())
  else if bucket.any fun p => p.state = .dead ∨ p.state = .quarantined then
    (t.setBucket peer.role idx
      (bucket.eraseP (fun p => p.state = .dead ∨ p.state = .quarantined) ++ [peer]), .ok ())
  else if t.localRole = .edgeMiner ∧ peer.role = .edgeMiner ∧ t.coreCount < minCoreAnchors then
    (t, .error .routingDenied)
  else if peer.role = .coreValidator ∧ bucket.any fun p => p.role = .edgeMiner then
    (t.setBucket peer.role idx (bucket.eraseP (fun p => p.role = .edgeMiner) ++ [peer]), .ok ())
  else (t, .error .routingDenied)

def insert (t : RoutingTable) (peer : Peer) : Outcome RoutingTable RoutingError :=
  if peer.id = t.localId ∨ peer.overlayId = t.localOverlay then (t, .error .routingDenied)
  else (t.removeOverlay peer.overlayId).file { peer with state := .live }

/-- Insertions one after the other, whatever they return. -/
def insertAll (t : RoutingTable) (peers : List Peer) : RoutingTable :=
  peers.foldl (fun t peer => (t.insert peer).1) t

/-- Fan-out set for gossip. Phones talk to a few cores and one or two edge neighbours. -/
def gossipTargets (t : RoutingTable) : PeerRole → List Peer
  | .edgeMiner =>
    ((contacts t.core).filter fun p => p.state = .live).take 3
      ++ ((contacts t.edge).filter fun p => p.state = .live).take 2
  | .coreValidator => t.livePeers.take 8

end RoutingTable

/-! ## Buckets -/

/-- The contacts stand around those of any one bucket. -/
theorem contacts_update (b : Buckets) (i : Fin bucketCount) : ∃ front back,
    contacts b = front ++ b i ++ back
      ∧ ∀ bucket, contacts (Function.update b i bucket) = front ++ bucket ++ back := by
  obtain ⟨is, js, hsplit⟩ := List.append_of_mem (List.mem_finRange i)
  have hnodup := List.nodup_finRange bucketCount
  rw [hsplit] at hnodup
  have hother : ∀ {j}, j ∈ is ∨ j ∈ js → j ≠ i := by
    rintro j hj rfl
    rw [List.nodup_middle, List.nodup_cons, List.mem_append] at hnodup
    exact hnodup.1 hj
  refine ⟨is.flatMap b, js.flatMap b, ?_, fun bucket => ?_⟩
  · rw [contacts, hsplit, List.flatMap_append, List.flatMap_cons, List.append_assoc]
  · rw [contacts, hsplit, List.flatMap_append, List.flatMap_cons, Function.update_self,
      List.append_assoc]
    refine congrArg₂ _ (List.flatMap_congr fun j hj => ?_) (congrArg _ (List.flatMap_congr
      fun j hj => ?_))
    · exact Function.update_of_ne (hother (.inl hj)) _ _
    · exact Function.update_of_ne (hother (.inr hj)) _ _

theorem mem_contacts {b : Buckets} {p : Peer} : p ∈ contacts b ↔ ∃ i, p ∈ b i := by
  rw [contacts, List.mem_flatMap]
  exact ⟨fun ⟨i, _, h⟩ => ⟨i, h⟩, fun ⟨i, h⟩ => ⟨i, List.mem_finRange i, h⟩⟩

/-- Where at most one contact is of the kind, to take the first one out is to take them all out. -/
theorem eraseP_eq_filter {kind : Peer → Bool} : ∀ {ps : List Peer},
    ps.Pairwise (fun p q => ¬ (kind p = true ∧ kind q = true)) →
      ps.eraseP kind = ps.filter fun p => !kind p
  | [], _ => rfl
  | p :: ps, h => by
    obtain ⟨hp, hps⟩ := List.pairwise_cons.1 h
    by_cases hk : kind p = true
    · have hkeep : ps.filter (fun p => !kind p) = ps := by
        refine List.filter_eq_self.2 fun q hq => ?_
        rw [Bool.not_eq_true', Bool.eq_false_iff]
        exact fun hkq => hp q hq ⟨hk, hkq⟩
      rw [List.eraseP_cons_of_pos hk, List.filter_cons_of_neg (by simp [hk]), hkeep]
    · rw [List.eraseP_cons_of_neg hk, List.filter_cons_of_pos (by simp [hk]), eraseP_eq_filter hps]

/-- The first contact of the kind is the only one where all of them are told apart. -/
theorem removeFirst_spec {kind : Peer → Bool} {b : Buckets}
    (h : (contacts b).Pairwise fun p q => ¬ (kind p = true ∧ kind q = true)) :
    match removeFirst kind b with
    | some b' => (∃ p ∈ contacts b, kind p = true) ∧ ∀ i, b' i = (b i).filter fun p => !kind p
    | none => ∀ p ∈ contacts b, kind p = false := by
  unfold removeFirst
  rcases hfind : (List.finRange bucketCount).find? fun i => (b i).any kind with _ | i
  · intro p hp
    obtain ⟨i, hi⟩ := mem_contacts.1 hp
    have hnone := List.find?_eq_none.1 hfind i (List.mem_finRange i)
    rw [List.any_eq_true] at hnone
    exact Bool.eq_false_iff.2 fun hk => hnone ⟨p, hi, hk⟩
  · have hany : (b i).any kind = true := List.find?_some (p := fun i => (b i).any kind) hfind
    obtain ⟨p, hp, hk⟩ := List.any_eq_true.1 hany
    rw [contacts, List.pairwise_flatMap] at h
    refine ⟨⟨p, mem_contacts.2 ⟨i, hp⟩, hk⟩, fun j => ?_⟩
    by_cases hij : j = i
    · subst hij
      change Function.update b j ((b j).eraseP kind) j = _
      rw [Function.update_self, eraseP_eq_filter (h.1 j (List.mem_finRange j))]
    · have hne : ∀ q ∈ b j, (!kind q) = true := by
        intro q hq
        rw [Bool.not_eq_true', Bool.eq_false_iff]
        intro hkq
        have hsymm : Std.Symm fun i j => ∀ x ∈ b i, ∀ y ∈ b j, ¬ (kind x = true ∧ kind y = true) :=
          ⟨fun _ _ hxy x hx y hy hk => hxy y hy x hx ⟨hk.2, hk.1⟩⟩
        exact h.2.forall (List.mem_finRange j) (List.mem_finRange i) hij q hq p hp ⟨hkq, hk⟩
      change Function.update b i ((b i).eraseP kind) j = _
      rw [Function.update_of_ne hij, List.filter_eq_self.2 hne]

namespace RoutingTable

variable {t : RoutingTable}

@[simp] theorem localId_setBucket (t : RoutingTable) (r : PeerRole) (i : Fin bucketCount)
    (bucket : List Peer) : (t.setBucket r i bucket).localId = t.localId := by
  cases r <;> rfl

@[simp] theorem localOverlay_setBucket (t : RoutingTable) (r : PeerRole) (i : Fin bucketCount)
    (bucket : List Peer) : (t.setBucket r i bucket).localOverlay = t.localOverlay := by
  cases r <;> rfl

@[simp] theorem localRole_setBucket (t : RoutingTable) (r : PeerRole) (i : Fin bucketCount)
    (bucket : List Peer) : (t.setBucket r i bucket).localRole = t.localRole := by
  cases r <;> rfl

theorem table_setBucket (t : RoutingTable) (r : PeerRole) (i : Fin bucketCount)
    (bucket : List Peer) (r' : PeerRole) (i' : Fin bucketCount) :
    (t.setBucket r i bucket).table r' i' = if r' = r ∧ i' = i then bucket else t.table r' i' := by
  cases r <;> cases r' <;> simp [setBucket, table, Function.update_apply]

theorem mem_everyone {p : Peer} : p ∈ t.everyone ↔ ∃ r i, p ∈ t.table r i := by
  rw [everyone, List.mem_append, mem_contacts, mem_contacts]
  constructor
  · rintro (⟨i, h⟩ | ⟨i, h⟩)
    · exact ⟨.coreValidator, i, h⟩
    · exact ⟨.edgeMiner, i, h⟩
  · rintro ⟨_ | _, i, h⟩
    · exact .inl ⟨i, h⟩
    · exact .inr ⟨i, h⟩

/-- Everyone stands around the contacts of any one bucket. -/
theorem everyone_setBucket (t : RoutingTable) (r : PeerRole) (i : Fin bucketCount) :
    ∃ front back, t.everyone = front ++ t.table r i ++ back
      ∧ ∀ bucket, (t.setBucket r i bucket).everyone = front ++ bucket ++ back := by
  cases r with
  | coreValidator =>
    obtain ⟨front, back, h, hset⟩ := contacts_update t.core i
    refine ⟨front, back ++ contacts t.edge, ?_, fun bucket => ?_⟩
    · rw [everyone, h, table, List.append_assoc, List.append_assoc]
    · change contacts (Function.update t.core i bucket) ++ contacts t.edge = _
      rw [hset, List.append_assoc]
  | edgeMiner =>
    obtain ⟨front, back, h, hset⟩ := contacts_update t.edge i
    refine ⟨contacts t.core ++ front, back, ?_, fun bucket => ?_⟩
    · rw [everyone, h, table, ← List.append_assoc, ← List.append_assoc]
    · change contacts t.core ++ contacts (Function.update t.edge i bucket) = _
      rw [hset, ← List.append_assoc, ← List.append_assoc]

/-- Who is told apart from everyone may stand in a bucket, in place of some. -/
theorem pairwise_setBucket {R : Peer → Peer → Prop} (hR : ∀ {p q}, R p q → R q p)
    (h : t.everyone.Pairwise R) {r : PeerRole} {i : Fin bucketCount} {rest : List Peer}
    (hrest : rest.Sublist (t.table r i)) {p : Peer} (hp : ∀ q ∈ t.everyone, R p q) :
    (t.setBucket r i (rest ++ [p])).everyone.Pairwise R := by
  obtain ⟨front, back, heq, hset⟩ := t.everyone_setBucket r i
  have hperm : (front ++ (rest ++ [p]) ++ back).Perm (p :: (front ++ rest ++ back)) := by
    rw [← List.append_assoc, List.append_assoc, List.singleton_append]
    exact List.perm_middle
  have hsub : (front ++ rest ++ back).Sublist t.everyone := by
    rw [heq]
    exact ((List.Sublist.refl _).append hrest).append (List.Sublist.refl _)
  rw [hset, hperm.pairwise_iff hR, List.pairwise_cons]
  exact ⟨fun q hq => hp q (hsub.subset hq), h.sublist hsub⟩

/-! ## What is filed under an overlay id -/

@[simp] theorem localId_removeOverlay (t : RoutingTable) (o : Bytes) :
    (t.removeOverlay o).localId = t.localId := by
  unfold removeOverlay
  split
  · rfl
  · split <;> rfl

@[simp] theorem localOverlay_removeOverlay (t : RoutingTable) (o : Bytes) :
    (t.removeOverlay o).localOverlay = t.localOverlay := by
  unfold removeOverlay
  split
  · rfl
  · split <;> rfl

@[simp] theorem localRole_removeOverlay (t : RoutingTable) (o : Bytes) :
    (t.removeOverlay o).localRole = t.localRole := by
  unfold removeOverlay
  split
  · rfl
  · split <;> rfl

/-- Everyone is filed under an overlay id of their own. -/
def OverlaysApart (t : RoutingTable) : Prop :=
  t.everyone.Pairwise fun p q => p.overlayId ≠ q.overlayId

theorem table_removeOverlay (h : t.OverlaysApart) (o : Bytes) (r : PeerRole)
    (i : Fin bucketCount) :
    (t.removeOverlay o).table r i = (t.table r i).filter fun p => p.overlayId ≠ o := by
  obtain ⟨hcore, hedge, hcross⟩ := List.pairwise_append.1 h
  have hone : ∀ {p q : Peer}, p.overlayId ≠ q.overlayId →
      ¬ (decide (p.overlayId = o) = true ∧ decide (q.overlayId = o) = true) := by
    rintro p q hne ⟨hp, hq⟩
    exact hne ((of_decide_eq_true hp).trans (of_decide_eq_true hq).symm)
  have hnot : ∀ ps : List Peer,
      ps.filter (fun p => !decide (p.overlayId = o)) = ps.filter fun p => p.overlayId ≠ o :=
    fun ps => List.filter_congr fun p _ => decide_not.symm
  have hkeep : ∀ {b : Buckets}, (∀ p ∈ contacts b, decide (p.overlayId = o) = false) → ∀ i,
      b i = (b i).filter fun p => p.overlayId ≠ o := by
    intro b hb i
    refine (List.filter_eq_self.2 fun p hp => ?_).symm
    exact decide_eq_true (of_decide_eq_false (hb p (mem_contacts.2 ⟨i, hp⟩)))
  have hfirst := removeFirst_spec (hcore.imp hone)
  have hsecond := removeFirst_spec (hedge.imp hone)
  unfold removeOverlay
  rcases hc : removeFirst (fun p => p.overlayId = o) t.core with _ | core
  · rw [hc] at hfirst
    rcases he : removeFirst (fun p => p.overlayId = o) t.edge with _ | edge
    · rw [he] at hsecond
      cases r
      · exact hkeep hfirst i
      · exact hkeep hsecond i
    · rw [he] at hsecond
      cases r
      · exact hkeep hfirst i
      · exact (hsecond.2 i).trans (hnot _)
  · rw [hc] at hfirst
    obtain ⟨⟨p, hp, hpo⟩, hfilter⟩ := hfirst
    cases r
    · exact (hfilter i).trans (hnot _)
    · -- the other table has nobody of this id
      refine hkeep (fun q hq => decide_eq_false fun hqo => ?_) i
      exact hcross p hp q hq ((of_decide_eq_true hpo).trans hqo.symm)

theorem everyone_removeOverlay (h : t.OverlaysApart) (o : Bytes) :
    (t.removeOverlay o).everyone = t.everyone.filter fun p => p.overlayId ≠ o := by
  have htable := table_removeOverlay h o
  have hcore : (t.removeOverlay o).core = fun i => (t.core i).filter fun p => p.overlayId ≠ o :=
    funext fun i => htable .coreValidator i
  have hedge : (t.removeOverlay o).edge = fun i => (t.edge i).filter fun p => p.overlayId ≠ o :=
    funext fun i => htable .edgeMiner i
  rw [everyone, everyone, hcore, hedge, List.filter_append, contacts, contacts, contacts, contacts,
    List.filter_flatMap, List.filter_flatMap]

/-! ## What one insertion does -/

/-- A live contact other than the local one, in the table of its role and by its distance. -/
structure Belongs (localId : Address) (r : PeerRole) (i : Fin bucketCount) (p : Peer) : Prop where
  role : p.role = r
  index : bucketIndex localId p.id = i
  live : p.state = .live
  remote : p.id ≠ localId

/-- What any insertions leave. -/
structure Filed (t : RoutingTable) : Prop where
  localOverlay : t.localOverlay = fromAddress t.localId
  belongs : ∀ r i, ∀ p ∈ t.table r i, Belongs t.localId r i p
  length_le : ∀ r i, (t.table r i).length ≤ bucketSize
  apart : t.OverlaysApart

/-- The bucket that a contact belongs into. -/
def bucketOf (t : RoutingTable) (p : Peer) : List Peer :=
  t.table p.role (bucketIndex t.localId p.id)

/-- Whether a bucket takes a contact: in the place of one with its id, or as one more. -/
def Takes (bucket : List Peer) (p : Peer) : Prop :=
  (∃ q ∈ bucket, q.id = p.id) ∨ bucket.length < bucketSize ∧ crowded bucket p.addr = false

/-- With live contacts only, filed by role, nobody is thrown out for a contact. -/
theorem file_of_live {p : Peer} (hlive : ∀ q ∈ t.bucketOf p, q.state = .live)
    (hrole : ∀ q ∈ t.bucketOf p, q.role = p.role) : t.file p =
      if (t.bucketOf p).any fun q => q.id = p.id then
        (t.setBucket p.role (bucketIndex t.localId p.id)
          ((t.bucketOf p).eraseP (fun q => q.id = p.id) ++ [p]), .ok ())
      else if crowded (t.bucketOf p) p.addr then (t, .error .routingDenied)
      else if (t.bucketOf p).length < bucketSize then
        (t.setBucket p.role (bucketIndex t.localId p.id) (t.bucketOf p ++ [p]), .ok ())
      else (t, .error .routingDenied) := by
  have hdead : (t.bucketOf p).any (fun q => q.state = .dead ∨ q.state = .quarantined) = false := by
    rw [List.any_eq_false]
    intro q hq
    rw [hlive q hq]
    decide
  have hminer : ¬ (p.role = .coreValidator
      ∧ (t.bucketOf p).any (fun q => q.role = .edgeMiner) = true) := by
    rintro ⟨hcore, hany⟩
    obtain ⟨q, hq, he⟩ := List.any_eq_true.1 hany
    rw [decide_eq_true_eq, hrole q hq, hcore] at he
    cases he
  simp only [bucketOf] at hdead hminer
  simp only [file, bucketOf, hdead, if_neg hminer, Bool.false_eq_true, if_false, ite_self]
  rfl

/-- So a contact is refused or goes to the end of its bucket. -/
theorem file_cases {p : Peer} (hlive : ∀ q ∈ t.bucketOf p, q.state = .live)
    (hrole : ∀ q ∈ t.bucketOf p, q.role = p.role) :
    t.file p = (t, .error .routingDenied) ∧ ¬ Takes (t.bucketOf p) p
      ∨ ∃ rest, t.file p
          = (t.setBucket p.role (bucketIndex t.localId p.id) (rest ++ [p]), .ok ())
        ∧ Takes (t.bucketOf p) p
        ∧ ((∃ q ∈ t.bucketOf p, q.id = p.id) ∧ rest = (t.bucketOf p).eraseP (fun q => q.id = p.id)
          ∨ (∀ q ∈ t.bucketOf p, q.id ≠ p.id) ∧ rest = t.bucketOf p
            ∧ rest.length < bucketSize ∧ crowded rest p.addr = false) := by
  have hid : (t.bucketOf p).any (fun q => q.id = p.id) = true
      ↔ ∃ q ∈ t.bucketOf p, q.id = p.id := by
    simp only [List.any_eq_true, decide_eq_true_eq]
  rw [file_of_live hlive hrole]
  split_ifs with hsame hcrowded hroom
  · rw [hid] at hsame
    exact .inr ⟨_, rfl, .inl hsame, .inl ⟨hsame, rfl⟩⟩
  · rw [hid] at hsame
    refine .inl ⟨rfl, ?_⟩
    rintro (h | h)
    · exact hsame h
    · rw [h.2] at hcrowded
      cases hcrowded
  · rw [hid] at hsame
    rw [Bool.not_eq_true] at hcrowded
    exact .inr ⟨_, rfl, .inr ⟨hroom, hcrowded⟩,
      .inr ⟨fun q hq he => hsame ⟨q, hq, he⟩, rfl, hroom, hcrowded⟩⟩
  · rw [hid] at hsame
    refine .inl ⟨rfl, ?_⟩
    rintro (h | h)
    · exact hsame h
    · exact hroom h.1

/-! ## What holds whoever is inserted -/

theorem table_new (localId : Address) (role r : PeerRole) (i : Fin bucketCount) :
    (new localId role).table r i = [] := by
  cases r <;> rfl

theorem everyone_new (localId : Address) (role : PeerRole) : (new localId role).everyone = [] := by
  refine List.eq_nil_iff_forall_not_mem.2 fun p hp => ?_
  obtain ⟨r, i, h⟩ := mem_everyone.1 hp
  rw [table_new] at h
  cases h

theorem filed_new (localId : Address) (role : PeerRole) : Filed (new localId role) where
  localOverlay := rfl
  belongs r i p hp := by
    rw [table_new] at hp
    cases hp
  length_le r i := by
    rw [table_new]
    exact Nat.zero_le _
  apart := by
    rw [OverlaysApart, everyone_new]
    exact .nil

namespace Filed

theorem removeOverlay (h : Filed t) (o : Bytes) : Filed (t.removeOverlay o) where
  localOverlay := by rw [localOverlay_removeOverlay, localId_removeOverlay, h.localOverlay]
  belongs r i p hp := by
    rw [table_removeOverlay h.apart] at hp
    rw [localId_removeOverlay]
    exact h.belongs r i p (List.mem_of_mem_filter hp)
  length_le r i := by
    rw [table_removeOverlay h.apart]
    exact (List.length_filter_le _ _).trans (h.length_le r i)
  apart := by
    rw [OverlaysApart, everyone_removeOverlay h.apart]
    exact List.Pairwise.filter _ h.apart

theorem setBucket (h : Filed t) {p : Peer} (hlive : p.state = .live) (hid : p.id ≠ t.localId)
    (hoverlay : ∀ q ∈ t.everyone, p.overlayId ≠ q.overlayId) {rest : List Peer}
    (hrest : rest.Sublist (t.bucketOf p)) (hlen : rest.length < bucketSize) :
    Filed (t.setBucket p.role (bucketIndex t.localId p.id) (rest ++ [p])) where
  localOverlay := by rw [localOverlay_setBucket, localId_setBucket, h.localOverlay]
  belongs r i q hq := by
    rw [table_setBucket] at hq
    rw [localId_setBucket]
    split_ifs at hq with hplace
    · obtain ⟨rfl, rfl⟩ := hplace
      rcases List.mem_append.1 hq with hq | hq
      · exact h.belongs _ _ q (hrest.subset hq)
      · obtain rfl := List.mem_singleton.1 hq
        exact ⟨rfl, rfl, hlive, hid⟩
    · exact h.belongs r i q hq
  length_le r i := by
    rw [table_setBucket]
    split_ifs
    · rw [List.length_append, List.length_singleton]
      exact hlen
    · exact h.length_le r i
  apart := pairwise_setBucket Ne.symm h.apart hrest hoverlay

/-- In a filed table a contact is refused, or goes to the end of the bucket that takes it. -/
theorem file_cases (h : Filed t) (p : Peer) :
    t.file p = (t, .error .routingDenied) ∧ ¬ Takes (t.bucketOf p) p
      ∨ ∃ rest, t.file p
          = (t.setBucket p.role (bucketIndex t.localId p.id) (rest ++ [p]), .ok ())
        ∧ Takes (t.bucketOf p) p ∧ rest.Sublist (t.bucketOf p) ∧ rest.length < bucketSize
        ∧ ((∀ q ∈ t.bucketOf p, q.id ≠ p.id) → crowded rest p.addr = false) := by
  rcases RoutingTable.file_cases (fun q hq => (h.belongs _ _ q hq).live)
      (fun q hq => (h.belongs _ _ q hq).role) with hrefused | ⟨rest, hset, htakes, hrest⟩
  · exact .inl hrefused
  · refine .inr ⟨rest, hset, htakes, ?_⟩
    rcases hrest with ⟨⟨q, hq, hid⟩, rfl⟩ | ⟨-, rfl, hlen, hcrowded⟩
    · refine ⟨List.eraseP_sublist, ?_, fun hnone => absurd hid (hnone q hq)⟩
      have hlen := h.length_le p.role (bucketIndex t.localId p.id)
      have hpos : 0 < (t.bucketOf p).length := List.length_pos_of_mem hq
      rw [List.length_eraseP_of_mem hq (decide_eq_true hid)]
      exact (Nat.sub_lt hpos Nat.one_pos).trans_le hlen
    · exact ⟨List.Sublist.refl _, hlen, fun _ => hcrowded⟩

theorem insert (h : Filed t) (p : Peer) : Filed (t.insert p).1 := by
  unfold RoutingTable.insert
  split_ifs with hlocal
  · exact h
  · rw [not_or] at hlocal
    have hout := h.removeOverlay p.overlayId
    rcases hout.file_cases { p with state := .live } with
      ⟨hrefused, -⟩ | ⟨rest, hset, -, hrest, hlen, -⟩
    · rw [hrefused]
      exact hout
    · rw [hset]
      refine hout.setBucket (p := { p with state := .live }) rfl ?_ (fun q hq => ?_) hrest hlen
      · rw [localId_removeOverlay]
        exact hlocal.1
      · rw [everyone_removeOverlay h.apart] at hq
        exact (of_decide_eq_true (List.mem_filter.1 hq).2).symm

end Filed

end RoutingTable

end KronMesh.Routing
