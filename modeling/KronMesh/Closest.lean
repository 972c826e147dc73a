import KronMesh.Eclipse

/-!
# The closest contacts

A core node answers with the nearest live contacts. An edge node puts its nearest core anchors in
front and fills up with the nearest of the others: the loop that does it adds nobody twice, and what
it leaves out when it stops early is cut off anyway.
-/

namespace KronMesh.Routing

open Handshake

/-- How far from the target a contact is; the order of the bytes is the order of the numbers. -/
def distance (target : Address) (p : Peer) : ℕ := (xorDistance p.id target).toNat

/-- The loop of `closest`: contacts that are not there yet are added until there are `k`. -/
def fill (k : ℕ) : List Peer → List Peer → List Peer
  | out, [] => out
  | out, p :: rest =>
    let grown := if out.all fun q => q.id ≠ p.id then out ++ [p] else out
    if k ≤ grown.length then grown else fill k grown rest

namespace RoutingTable

/-- The `k` closest contacts. Edge queriers always receive core anchors first so they cannot be
trapped in an IoT-only partition. -/
def closest (t : RoutingTable) (target : Address) (k : ℕ) : List Peer :=
  let all := sortByKey (distance target) t.livePeers
  match t.localRole with
  | .edgeMiner =>
    let anchors := (sortByKey (distance target)
      ((contacts t.core).filter fun p => p.state = .live)).take minCoreAnchors
    (fill k anchors all).take k
  | .coreValidator => all.take k

end RoutingTable

/-! ## The loop -/

/-- Those whose ids are not there yet. -/
def others (out ps : List Peer) : List Peer := ps.filter fun p => p.id ∉ out.map Peer.id

/-- Cut to `k`, the loop gives what was there and, behind it, the others. -/
theorem take_fill (k : ℕ) : ∀ (rest out : List Peer), (rest.map Peer.id).Nodup →
    (fill k out rest).take k = (out ++ others out rest).take k
  | [], out, _ => by rw [fill, others, List.filter_nil, List.append_nil]
  | p :: rest, out, hnodup => by
    obtain ⟨hp, hrest⟩ := List.nodup_cons.1 hnodup
    have hnew : (out.all fun q => q.id ≠ p.id) = true ↔ p.id ∉ out.map Peer.id := by
      rw [List.all_eq_true, List.mem_map]
      constructor
      · rintro h ⟨q, hq, he⟩
        exact of_decide_eq_true (h q hq) he
      · exact fun h q hq => decide_eq_true fun he => h ⟨q, hq, he⟩
    -- one turn appends the head when it is new, and then none of the rest has its id
    have hturn : out ++ others out (p :: rest)
        = (if out.all fun q => q.id ≠ p.id then out ++ [p] else out)
          ++ others (if out.all fun q => q.id ≠ p.id then out ++ [p] else out) rest := by
      by_cases h : p.id ∉ out.map Peer.id
      · have hsame : others (out ++ [p]) rest = others out rest := by
          refine List.filter_congr fun q hq => decide_eq_decide.2 ?_
          rw [List.map_append, List.mem_append, not_or, List.map_singleton, List.mem_singleton,
            and_iff_left]
          exact fun he => hp (List.mem_map.2 ⟨q, hq, he⟩)
        have hhead : others out (p :: rest) = p :: others out rest :=
          List.filter_cons_of_pos (by simpa using h)
        rw [if_pos (hnew.2 h), hsame, hhead, List.append_assoc, List.singleton_append]
      · have hskip : others out (p :: rest) = others out rest :=
          List.filter_cons_of_neg (by simpa using h)
        rw [if_neg (mt hnew.1 h), hskip]
    rw [hturn, fill]
    split_ifs with hfull hlen hlen
    · exact (List.take_append_of_le_length hlen).symm
    · exact take_fill k rest _ hrest
    · exact (List.take_append_of_le_length hlen).symm
    · exact take_fill k rest _ hrest

/-! ## The answer -/

namespace RoutingTable

variable {t : RoutingTable}

theorem localRole_insertAll (localId : Address) (role : PeerRole) (peers : List Peer) :
    ((new localId role).insertAll peers).localRole = role := by
  have hfile : ∀ (t : RoutingTable) (p : Peer), (t.file p).1.localRole = t.localRole := by
    intro t p
    unfold file
    simp only []
    split_ifs <;> simp only [localRole_setBucket]
  have hinsert : ∀ (t : RoutingTable) (p : Peer), (t.insert p).1.localRole = t.localRole := by
    intro t p
    unfold insert
    split_ifs
    · rfl
    · rw [hfile, localRole_removeOverlay]
  exact run_preserves (fun t => t.localRole = role) (fun _ => True)
    (fun t p h _ => (hinsert t p).trans h) rfl fun _ _ => trivial

theorem coreCount_eq (t : RoutingTable) : t.coreCount = (contacts t.core).length := by
  rw [coreCount, contacts, List.length_flatMap]

theorem livePeers_eq (h : Filed t) : t.livePeers = t.everyone := by
  refine List.filter_eq_self.2 fun p hp => decide_eq_true ?_
  obtain ⟨r, i, hp⟩ := mem_everyone.1 hp
  exact (h.belongs r i p hp).live

theorem liveCores_eq (h : Filed t) :
    (contacts t.core).filter (fun p => p.state = .live) = contacts t.core := by
  refine List.filter_eq_self.2 fun p hp => decide_eq_true ?_
  obtain ⟨i, hp⟩ := mem_contacts.1 hp
  exact (h.belongs .coreValidator i p hp).live

/-- Ids are told apart by their distances. -/
theorem nodup_distance (target : Address) {ps : List Peer} (h : (ps.map Peer.id).Nodup) :
    (ps.map (distance target)).Nodup := by
  refine List.pairwise_map.2 ((List.pairwise_map.1 h).imp fun hne he => hne ?_)
  have hxor : _ ^^^ target = _ ^^^ target := BitVec.eq_of_toNat_eq he
  exact (BitVec.xor_left_inj target).1 hxor

/-- The anchors in front and the others behind them are everyone. -/
theorem anchors_others_perm {anchors ps sorted : List Peer} (hps : (ps.map Peer.id).Nodup)
    (hsorted : sorted.Perm ps) (hanchors : (anchors.map Peer.id).Nodup)
    (hsub : ∀ p ∈ anchors, p ∈ ps) : (anchors ++ others anchors sorted).Perm ps := by
  have hmem : ∀ {p}, p ∈ others anchors sorted ↔ p ∈ ps ∧ p.id ∉ anchors.map Peer.id := by
    intro p
    rw [others, List.mem_filter, decide_eq_true_eq, hsorted.mem_iff]
  have hsortedNodup : sorted.Nodup := List.Nodup.of_map _ ((hsorted.map _).nodup_iff.2 hps)
  refine (List.perm_ext_iff_of_nodup ?_ (List.Nodup.of_map _ hps)).2 fun p => ?_
  · refine List.nodup_append.2 ⟨List.Nodup.of_map _ hanchors, hsortedNodup.filter _, ?_⟩
    rintro p hp q hq rfl
    exact (hmem.1 hq).2 (List.mem_map_of_mem hp)
  · rw [List.mem_append, hmem]
    constructor
    · rintro (hp | hp)
      · exact hsub p hp
      · exact hp.1
    · intro hp
      by_cases hid : p.id ∈ anchors.map Peer.id
      · obtain ⟨q, hq, he⟩ := List.mem_map.1 hid
        rw [← List.inj_on_of_nodup_map hps (hsub q hq) hp he]
        exact .inl hq
      · exact .inr ⟨hp, hid⟩

theorem take_of_perm {xs ps : List Peer} (h : xs.Perm ps) (hps : (ps.map Peer.id).Nodup) (k : ℕ) :
    (xs.take k).length = min k ps.length ∧ ((xs.take k).map Peer.id).Nodup := by
  refine ⟨by rw [List.length_take, h.length_eq], ?_⟩
  exact ((h.map _).nodup_iff.2 hps).sublist ((List.take_sublist k xs).map _)

/-- The nearest core anchors, up to four. -/
def anchors (t : RoutingTable) (target : Address) : List Peer :=
  (sortByKey (distance target) (contacts t.core)).take minCoreAnchors

theorem nodup_cores (h : Filed t) (hids : (t.livePeers.map Peer.id).Nodup) :
    ((contacts t.core).map Peer.id).Nodup := by
  rw [livePeers_eq h, everyone, List.map_append] at hids
  exact (List.nodup_append.1 hids).1

theorem anchors_subset (h : Filed t) {target : Address} :
    ∀ p ∈ t.anchors target, p ∈ t.livePeers := by
  intro p hp
  have hcore : p ∈ contacts t.core :=
    (sortByKey_perm (distance target) _).mem_iff.1 (List.mem_of_mem_take hp)
  rw [livePeers_eq h]
  exact List.mem_append_left _ hcore

theorem nearest_anchors (h : Filed t) (hids : (t.livePeers.map Peer.id).Nodup) (target : Address)
    (k : ℕ) :
    Nearest (distance target) (min k 4) (contacts t.core) ((t.anchors target).take k) := by
  have hincreasing := sortByKey_increasing (nodup_distance target (nodup_cores h hids))
  rw [anchors, List.take_take]
  exact .of_perm (sortByKey_perm _ _) hincreasing

theorem closest_core (hrole : t.localRole = .coreValidator) (target : Address) (k : ℕ) :
    t.closest target k = (sortByKey (distance target) t.livePeers).take k := by
  rw [closest, hrole]

theorem closest_edge (h : Filed t) (hids : (t.livePeers.map Peer.id).Nodup)
    (hrole : t.localRole = .edgeMiner) (target : Address) (k : ℕ) : t.closest target k
      = (t.anchors target
          ++ others (t.anchors target) (sortByKey (distance target) t.livePeers)).take k := by
  have hsorted := sortByKey_perm (distance target) t.livePeers
  rw [← take_fill k _ _ ((hsorted.map _).nodup_iff.2 hids), closest, hrole, liveCores_eq h]
  rfl

/-- Either way everyone who is live is put in an order and cut off. -/
theorem closest_perm (h : Filed t) (hids : (t.livePeers.map Peer.id).Nodup) (target : Address)
    (k : ℕ) : ∃ xs : List Peer, xs.Perm t.livePeers ∧ t.closest target k = xs.take k := by
  have hsorted := sortByKey_perm (distance target) t.livePeers
  cases hrole : t.localRole with
  | coreValidator => exact ⟨_, hsorted, closest_core hrole target k⟩
  | edgeMiner =>
    have hcores := sortByKey_perm (distance target) (contacts t.core)
    have hanchors : ((t.anchors target).map Peer.id).Nodup :=
      (take_of_perm hcores (nodup_cores h hids) _).2
    exact ⟨_, anchors_others_perm hids hsorted hanchors (anchors_subset h),
      closest_edge h hids hrole target k⟩

/-- In every table that insertions of contacts with derived overlay ids leave, `closest` gives as
many live contacts as asked for or as there are, nobody twice. They are the nearest ones for a core
node; for an edge node the nearest core anchors, up to four, and behind them the nearest of the
others. -/
theorem closest_exact (localId : Address) (role : PeerRole) (peers : List Peer)
    (h : ∀ p ∈ peers, p.overlayId = fromAddress p.id) (target : Address) (k : ℕ) :
    let t := (new localId role).insertAll peers
    (t.closest target k).length = min k t.livePeers.length
      ∧ ((t.closest target k).map Peer.id).Nodup
      ∧ (role = .coreValidator → Nearest (distance target) k t.livePeers (t.closest target k))
      ∧ (role = .edgeMiner → ∃ anchors rest, t.closest target k = anchors ++ rest
        ∧ anchors.length = min k (min 4 t.coreCount)
        ∧ Nearest (distance target) (min k 4) (contacts t.core) anchors
        ∧ Nearest (distance target) (k - anchors.length) (others anchors t.livePeers) rest) := by
  intro t
  have hfiled : Filed t := filed_insertAll localId role peers
  have hids : (t.livePeers.map Peer.id).Nodup := by
    rw [livePeers_eq hfiled]
    exact nodup_ids hfiled (sparse_insertAll localId role h)
  have hrole : t.localRole = role := localRole_insertAll localId role peers
  have hsorted := sortByKey_perm (distance target) t.livePeers
  have hincreasing := sortByKey_increasing (nodup_distance target hids)
  obtain ⟨xs, hperm, hxs⟩ := closest_perm hfiled hids target k
  obtain ⟨hlength, hnodup⟩ := take_of_perm hperm hids k
  rw [← hxs] at hlength hnodup
  refine ⟨hlength, hnodup, fun hcore => ?_, fun hedge => ?_⟩
  · rw [closest_core (hrole.trans hcore)]
    exact .of_perm hsorted hincreasing
  · have hanchors := nearest_anchors hfiled hids target k
    refine ⟨(t.anchors target).take k, (others (t.anchors target)
      (sortByKey (distance target) t.livePeers)).take (k - (t.anchors target).length), ?_, ?_,
      hanchors, ?_⟩
    · rw [closest_edge hfiled hids (hrole.trans hedge), List.take_append]
    · rw [hanchors.length_eq, coreCount_eq, min_assoc]
    · -- either all anchors are there, or there is no place left behind them
      have hrest : ∀ out n, Nearest (distance target) n (others out t.livePeers)
          ((others out (sortByKey (distance target) t.livePeers)).take n) :=
        fun _ _ => .of_perm (hsorted.filter _) (hincreasing.filter _)
      by_cases hk : (t.anchors target).length ≤ k
      · rw [List.take_of_length_le hk]
        exact hrest _ _
      · have hzero : k - (t.anchors target).length = 0 := by omega
        have hcut : k - ((t.anchors target).take k).length = 0 := by
          rw [List.length_take]
          omega
        rw [hzero, hcut, List.take_zero]
        exact hrest _ 0

theorem closest_exact_anchor : ∃ anchors rest, ((new 0 .edgeMiner).insertAll
    [contactAt (1#256 <<< 250) .edgeMiner ⟨192, 168, 1, 50⟩,
      contactAt (3#256 <<< 250) .coreValidator ⟨10, 0, 0, 9⟩]).closest (1#256 <<< 250) 2
        = anchors ++ rest ∧ anchors.length = 1 := by
  obtain ⟨-, -, -, hedge⟩ := closest_exact 0 .edgeMiner
    [contactAt (1#256 <<< 250) .edgeMiner ⟨192, 168, 1, 50⟩,
      contactAt (3#256 <<< 250) .coreValidator ⟨10, 0, 0, 9⟩] (by
        simp only [List.forall_mem_cons]
        exact ⟨rfl, rfl, nofun⟩) (1#256 <<< 250) 2
  obtain ⟨anchors, rest, hclosest, hlength, -, -⟩ := hedge rfl
  exact ⟨anchors, rest, hclosest, hlength.trans (by decide)⟩

end RoutingTable

end KronMesh.Routing
