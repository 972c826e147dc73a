import Mathlib.Data.Finset.Image
import KronMesh.MeshWire
import KronMesh.Routing
import KronMesh.Lib.Once

/-!
# Beacons on the local network

Stations that share a network announce themselves in datagrams and dial whom they hear. A datagram
may be lost, doubled or late, and anyone may send one with any source. A station dials an overlay
once: at its first usable beacon, and only when no contact of its table has that overlay then.
-/

namespace KronMesh.Discovery

open Wire Handshake Routing

/-- `b"KRD1"`. -/
def discoveryMagic : Bytes := [75, 82, 68, 49]

def discoveryVersion : UInt8 := 1

def maxKron1Prefix : ℕ := 80

/-- `p2p_port.saturating_add(1)`. -/
def beaconPort (p2pPort : UInt16) : UInt16 := if p2pPort = 65535 then p2pPort else p2pPort + 1

/-- `[u8; 16]`. -/
abbrev NodeOverlayId : Type := { bs : Bytes // bs.length = 16 }

structure LanBeacon where
  overlayId : NodeOverlayId
  p2pPort : UInt16
  kron1Prefix : String
  deriving DecidableEq

structure DiscoveredPeer where
  overlayId : NodeOverlayId
  p2pAddr : SocketAddr
  kron1Prefix : String
  deriving DecidableEq

/-! ## Beacons -/

/-- The characters that `room` bytes have place for. -/
def truncateChars : ℕ → List Char → List Char
  | _, [] => []
  | room, c :: cs => if room < c.utf8Size then [] else c :: truncateChars (room - c.utf8Size) cs

def truncatePrefix (s : String) : String := String.ofList (truncateChars maxKron1Prefix s.toList)

def encodeBeacon (b : LanBeacon) : Bytes :=
  let kron1 := asBytes (truncatePrefix b.kron1Prefix)
  discoveryMagic ++ [discoveryVersion] ++ b.overlayId.val ++ leBytes 2 b.p2pPort.toNat
    ++ [UInt8.ofNat kron1.length] ++ kron1

def decodeBeacon (bytes : Bytes) : Option LanBeacon :=
  if h : bytes.length < 24 then none
  else if bytes.take 4 ≠ discoveryMagic ∨ bytes.getD 4 0 ≠ discoveryVersion then none
  else
    let n := (bytes.getD 23 0).toNat
    if bytes.length ≠ 24 + n ∨ maxKron1Prefix < n then none
    else some
      { overlayId := ⟨(bytes.drop 5).take 16, by
          rw [List.length_take, List.length_drop]
          omega⟩
        p2pPort := UInt16.ofNat (leNat ((bytes.drop 21).take 2))
        kron1Prefix := fromUtf8Lossy ((bytes.drop 24).take n) }

theorem length_truncateChars_le (room : ℕ) (cs : List Char) :
    ((truncateChars room cs).flatMap String.utf8EncodeChar).length ≤ room := by
  induction cs generalizing room with
  | nil => exact Nat.zero_le _
  | cons c cs ih =>
    rw [truncateChars]
    split
    · exact Nat.zero_le _
    · have hrest := ih (room - c.utf8Size)
      rw [List.flatMap_cons, List.length_append, String.length_utf8EncodeChar]
      omega

theorem length_truncatePrefix_le (s : String) :
    (asBytes (truncatePrefix s)).length ≤ maxKron1Prefix := by
  rw [asBytes, truncatePrefix, String.toList_ofList]
  exact length_truncateChars_le _ _

/-- A beacon is heard as it was sent, with as much of the text as is sent. -/
theorem decodeBeacon_encodeBeacon (b : LanBeacon) :
    decodeBeacon (encodeBeacon b)
      = some { b with kron1Prefix := truncatePrefix b.kron1Prefix } := by
  have hlen := length_truncatePrefix_le b.kron1Prefix
  have htotal : (encodeBeacon b).length = 24 + (asBytes (truncatePrefix b.kron1Prefix)).length := by
    simp only [encodeBeacon, List.length_append, length_leBytes, b.overlayId.2,
      List.length_singleton]
    rfl
  have hback := fromUtf8Lossy_asBytes (truncatePrefix b.kron1Prefix)
  have hat : At (encodeBeacon b) 0 (discoveryMagic ++ [discoveryVersion] ++ b.overlayId.val
      ++ leBytes 2 b.p2pPort.toNat ++ [UInt8.ofNat (asBytes (truncatePrefix b.kron1Prefix)).length]
      ++ asBytes (truncatePrefix b.kron1Prefix)) := At.refl _
  generalize encodeBeacon b = bytes at hat htotal ⊢
  generalize asBytes (truncatePrefix b.kron1Prefix) = kron1 at hlen hat htotal hback ⊢
  have hid := b.overlayId.2
  have hmagic : bytes.take 4 = discoveryMagic := take_drop_at hat.left.left.left.left.left rfl
  have hversion : bytes.getD 4 0 = discoveryVersion := getD_at hat.left.left.left.left.right
  have hoverlay : (bytes.drop 5).take 16 = b.overlayId.val :=
    take_drop_at hat.left.left.left.right hid
  have hport : (bytes.drop 21).take 2 = leBytes 2 b.p2pPort.toNat :=
    take_drop_at (hat.left.left.right.at_eq (by simp [hid, discoveryMagic])) (length_leBytes 2 _)
  have hn : bytes.getD 23 0 = UInt8.ofNat kron1.length :=
    getD_at (hat.left.right.at_eq (by simp [hid, discoveryMagic]))
  have hkron1 : (bytes.drop 24).take kron1.length = kron1 :=
    take_drop_at (hat.right.at_eq (by simp [hid, discoveryMagic])) rfl
  have hbyte : (UInt8.ofNat kron1.length).toNat = kron1.length :=
    UInt8.toNat_ofNat_of_lt' (hlen.trans_lt (by decide))
  have hpt : UInt16.ofNat (leNat (leBytes 2 b.p2pPort.toNat)) = b.p2pPort := by
    rw [leNat_leBytes 2 _ b.p2pPort.toNat_lt, UInt16.ofNat_toNat]
  rw [decodeBeacon, dif_neg (by omega),
    if_neg (not_or_intro (not_not_intro hmagic) (not_not_intro hversion)), hn, hbyte,
    if_neg (by omega)]
  simp only [hoverlay, hport, hpt, hkron1, hback]

theorem length_encodeBeacon_le (b : LanBeacon) : (encodeBeacon b).length ≤ 104 := by
  have hkron1 := length_truncatePrefix_le b.kron1Prefix
  simp only [encodeBeacon, List.length_append, length_leBytes, b.overlayId.2, List.length_singleton]
  exact Nat.add_le_add_left hkron1 24

/-! ## What a station makes of a datagram -/

def isUsableLanIpv4 (ip : Ipv4) : Bool :=
  !(ip == ⟨0, 0, 0, 0⟩) && !(ip.a == 127) && !(224 ≤ ip.a && ip.a ≤ 239)
    && !(ip == ⟨255, 255, 255, 255⟩)

/-- The addresses that are dialed. -/
def dialable (ip : Ipv4) : Bool := isUsableLanIpv4 ip || ip.a == 127

def discoveredFrom (beacon : LanBeacon) (source : SocketAddr) (localId : NodeOverlayId) :
    Option DiscoveredPeer :=
  if beacon.overlayId = localId then none
  else match source with
    | .v4 ip _ =>
      if dialable ip then some ⟨beacon.overlayId, .v4 ip beacon.p2pPort, beacon.kron1Prefix⟩
      else none
    | .v6 _ _ => none

theorem discoveredFrom_v4 (b : LanBeacon) (ip : Ipv4) (port : UInt16) (o : NodeOverlayId) :
    discoveredFrom b (.v4 ip port) o
      = if b.overlayId ≠ o ∧ dialable ip = true then
          some ⟨b.overlayId, .v4 ip b.p2pPort, b.kron1Prefix⟩
        else none := by
  unfold discoveredFrom
  by_cases hown : b.overlayId = o
  · rw [if_pos hown, if_neg fun h => h.1 hown]
  · by_cases hip : dialable ip = true
    · rw [if_neg hown, if_pos ⟨hown, hip⟩]
      exact if_pos hip
    · rw [if_neg hown, if_neg fun h => hip h.2]
      exact if_neg hip

structure DiscoveryConfig where
  overlay : NodeOverlayId
  kron1 : String
  p2pPort : UInt16
  lan : Option Ipv4

namespace DiscoveryConfig

def port (cfg : DiscoveryConfig) : UInt16 := beaconPort cfg.p2pPort

def beacon (cfg : DiscoveryConfig) : LanBeacon := ⟨cfg.overlay, cfg.p2pPort, cfg.kron1⟩

end DiscoveryConfig

/-- Where beacons go: to everyone, and to everyone of the /24. -/
def broadcastTargets (beacon : UInt16) (lan : Option Ipv4) : List SocketAddr :=
  match lan with
  | some ip =>
    let subnet := SocketAddr.v4 { ip with d := 255 } beacon
    if subnet = .v4 ⟨255, 255, 255, 255⟩ beacon then [.v4 ⟨255, 255, 255, 255⟩ beacon]
    else [.v4 ⟨255, 255, 255, 255⟩ beacon, subnet]
  | none => [.v4 ⟨255, 255, 255, 255⟩ beacon]

def portOf : SocketAddr → UInt16
  | .v4 _ port => port
  | .v6 _ port => port

structure Datagram where
  payload : Bytes
  source : SocketAddr
  dest : SocketAddr

/-- `recv`, which has room for 256 bytes, and `discovered_from`. -/
def discovered (cfg : DiscoveryConfig) (d : Datagram) : Option DiscoveredPeer :=
  (decodeBeacon (d.payload.take 256)).bind fun b => discoveredFrom b d.source cfg.overlay

/-- The routing table of a node, the overlays its discovery has seen, and whom it has dialed
for. -/
structure Station where
  table : RoutingTable
  seen : Finset NodeOverlayId
  links : List DiscoveredPeer

namespace Station

def start (cfg : DiscoveryConfig) (table : RoutingTable) : Station := ⟨table, {cfg.overlay}, []⟩

/-- A turn of `discovery_loop` with a datagram. -/
def hear (cfg : DiscoveryConfig) (s : Station) (d : Datagram) : Station :=
  match discovered cfg d with
  | some peer =>
    if peer.overlayId ∈ s.seen then s
    else
      let s := { s with seen := insert peer.overlayId s.seen }
      if s.table.containsOverlay peer.overlayId.val then s
      else { s with links := s.links ++ [peer] }
  | none => s

variable {cfg : DiscoveryConfig} {s : Station} {d : Datagram}

/-- All that a datagram may do. -/
theorem hear_cases (cfg : DiscoveryConfig) (s : Station) (d : Datagram) :
    (discovered cfg d = none ∧ s.hear cfg d = s)
    ∨ (∃ p, discovered cfg d = some p ∧ p.overlayId ∈ s.seen ∧ s.hear cfg d = s)
    ∨ (∃ p, discovered cfg d = some p ∧ p.overlayId ∉ s.seen
        ∧ s.table.containsOverlay p.overlayId.val = true
        ∧ s.hear cfg d = { s with seen := insert p.overlayId s.seen })
    ∨ ∃ p, discovered cfg d = some p ∧ p.overlayId ∉ s.seen
        ∧ s.table.containsOverlay p.overlayId.val = false
        ∧ s.hear cfg d = ⟨s.table, insert p.overlayId s.seen, s.links ++ [p]⟩ := by
  rcases hd : discovered cfg d with _ | p
  · exact .inl ⟨rfl, by simp only [hear, hd]⟩
  · by_cases hseen : p.overlayId ∈ s.seen
    · exact .inr (.inl ⟨p, rfl, hseen, by simp only [hear, hd, if_pos hseen]⟩)
    · rcases htable : s.table.containsOverlay p.overlayId.val
      · exact .inr (.inr (.inr ⟨p, rfl, hseen, htable, by
          simp only [hear, hd, if_neg hseen, htable, Bool.false_eq_true, if_false]⟩))
      · exact .inr (.inr (.inl ⟨p, rfl, hseen, htable, by
          simp only [hear, hd, if_neg hseen, htable, if_true]⟩))

end Station

/-! ## The network -/

variable {ι : Type*}

/-- A station as it is set up, and the address its datagrams come from. -/
structure Setup where
  cfg : DiscoveryConfig
  ip : Ipv4

/-- The datagrams of one announcement. -/
def Setup.announce (v : Setup) : List Datagram :=
  (broadcastTargets v.cfg.port v.cfg.lan).map fun dest =>
    ⟨encodeBeacon v.cfg.beacon, .v4 v.ip v.cfg.port, dest⟩

/-- Whom those dial that hear of a station. -/
def Setup.peer (v : Setup) : DiscoveredPeer :=
  ⟨v.cfg.overlay, .v4 v.ip v.cfg.p2pPort, truncatePrefix v.cfg.kron1⟩

theorem portOf_broadcastTargets {port : UInt16} {lan : Option Ipv4} {dest : SocketAddr}
    (h : dest ∈ broadcastTargets port lan) : portOf dest = port := by
  unfold broadcastTargets at h
  rcases lan with _ | ip
  · cases List.mem_singleton.1 h
    rfl
  · dsimp only at h
    split_ifs at h
    · cases List.mem_singleton.1 h
      rfl
    · rcases List.mem_pair.1 h with rfl | rfl
      · rfl
      · rfl

/-- What another station makes of an announcement. -/
theorem discovered_announce {v : Setup} {d : Datagram} (h : d ∈ v.announce)
    (cfg : DiscoveryConfig) : discovered cfg d
      = if v.cfg.overlay ≠ cfg.overlay ∧ dialable v.ip = true then some v.peer else none := by
  obtain ⟨dest, -, rfl⟩ := List.mem_map.1 h
  have hwhole : (encodeBeacon v.cfg.beacon).take 256 = encodeBeacon v.cfg.beacon :=
    List.take_of_length_le ((length_encodeBeacon_le _).trans (by decide))
  unfold discovered
  dsimp only
  rw [hwhole, decodeBeacon_encodeBeacon, Option.bind_some]
  exact discoveredFrom_v4 _ _ _ _

/-- What a station has heard, and the routing table that it had then. -/
structure Heard where
  table : RoutingTable
  datagram : Datagram

/-- All stations, and all datagrams ever sent; each may yet come, and come again. What each station
has heard is written down. -/
structure Lan (ι : Type*) where
  station : ι → Station
  air : List Datagram
  heard : ι → List Heard

inductive Action (ι : Type*)
  | announce (v : ι)
  /-- anyone sends anything -/
  | forge (d : Datagram)
  /-- a datagram comes to a station -/
  | hear (u : ι) (i : ℕ)
  /-- a node puts a contact in its table -/
  | contact (u : ι) (peer : Peer)

variable (net : ι → Setup)

namespace Lan

def start (table : ι → RoutingTable) : Lan ι where
  station u := Station.start (net u).cfg (table u)
  air := []
  heard _ := []

variable [DecidableEq ι]

/-- A datagram comes to the port it is sent to. -/
def step (s : Lan ι) : Action ι → Option (Lan ι)
  | .announce v => some { s with air := s.air ++ (net v).announce }
  | .forge d => some { s with air := s.air ++ [d] }
  | .hear u i =>
    match s.air[i]? with
    | some d =>
      if portOf d.dest = (net u).cfg.port then
        some { s with
          station := Function.update s.station u ((s.station u).hear (net u).cfg d)
          heard := Function.update s.heard u (s.heard u ++ [⟨(s.station u).table, d⟩]) }
      else none
    | none => none
  | .contact u peer =>
    some { s with
      station := Function.update s.station u
        { s.station u with table := ((s.station u).table.insert peer).1 } }

def run (s : Lan ι) : List (Action ι) → Option (Lan ι)
  | [] => some s
  | a :: acts => (s.step net a).bind fun s => s.run acts

/-! ### What a turn and a run leave -/

variable {net} {s s' : Lan ι} {a : Action ι}

/-- All that an action may do to a station, and to what it has heard. -/
theorem step_station (h : s.step net a = some s') (u : ι) :
    (s'.heard u = s.heard u ∧ (s'.station u).seen = (s.station u).seen
        ∧ (s'.station u).links = (s.station u).links)
    ∨ ∃ d ∈ s.air, s'.heard u = s.heard u ++ [⟨(s.station u).table, d⟩]
        ∧ portOf d.dest = (net u).cfg.port
        ∧ s'.station u = (s.station u).hear (net u).cfg d := by
  cases a with
  | announce v =>
    cases h
    exact .inl ⟨rfl, rfl, rfl⟩
  | forge d =>
    cases h
    exact .inl ⟨rfl, rfl, rfl⟩
  | hear v i =>
    simp only [step] at h
    rcases hd : s.air[i]? with _ | d
    · simp only [hd] at h
      exact nomatch h
    · simp only [hd] at h
      split_ifs at h with hport
      cases h
      by_cases hu : u = v
      · subst hu
        exact .inr ⟨d, List.mem_of_getElem? hd, Function.update_self .., hport,
          Function.update_self ..⟩
      · exact .inl ⟨Function.update_of_ne hu ..,
          congrArg Station.seen (Function.update_of_ne hu ..),
          congrArg Station.links (Function.update_of_ne hu ..)⟩
  | contact v peer =>
    cases h
    by_cases hu : u = v
    · subst hu
      exact .inl ⟨rfl, by simp only [Function.update_self], by simp only [Function.update_self]⟩
    · exact .inl ⟨rfl, congrArg Station.seen (Function.update_of_ne hu ..),
        congrArg Station.links (Function.update_of_ne hu ..)⟩

/-- The overlay that an item of what was heard may have a station dial. -/
def key (cfg : DiscoveryConfig) (h : Heard) : Option NodeOverlayId :=
  (discovered cfg h.datagram).map DiscoveredPeer.overlayId

/-- Whom a station dials for the first that it hears of an overlay. -/
def dialed (cfg : DiscoveryConfig) (h : Heard) : Option DiscoveredPeer :=
  (discovered cfg h.datagram).filter fun p => !h.table.containsOverlay p.overlayId.val

/-- A station has seen itself and whom it has heard, and has dialed for the first that it heard of
each of them. -/
def Sound (net : ι → Setup) (s : Lan ι) : Prop := ∀ u,
  (s.station u).seen = Once.known (key (net u).cfg) {(net u).cfg.overlay} (s.heard u)
  ∧ (s.station u).links
      = (Once.firsts (key (net u).cfg) {(net u).cfg.overlay} (s.heard u)).filterMap
          (dialed (net u).cfg)

omit [DecidableEq ι] in
theorem sound_start (table : ι → RoutingTable) : Sound net (start net table) :=
  fun _ => ⟨rfl, rfl⟩

theorem sound_step (h : s.step net a = some s') (hs : Sound net s) : Sound net s' := by
  intro u
  obtain ⟨hseen, hlinks⟩ := hs u
  rcases step_station h u with ⟨hh, hseen', hlinks'⟩ | ⟨d, -, hh, -, hstation⟩
  · rw [hh, hseen', hlinks']
    exact ⟨hseen, hlinks⟩
  · rw [hh, hstation]
    generalize s.station u = st at hseen hlinks ⊢
    rcases st.hear_cases (net u).cfg d with ⟨hd, he⟩ | ⟨p, hd, hp, he⟩ | ⟨p, hd, hp, ht, he⟩
      | ⟨p, hd, hp, ht, he⟩
    · have hkey : key (net u).cfg ⟨st.table, d⟩ = none := by rw [key, hd]; rfl
      rw [he, Once.known_concat_none hkey, Once.firsts_concat_none hkey]
      exact ⟨hseen, hlinks⟩
    · have hkey : key (net u).cfg ⟨st.table, d⟩ = some p.overlayId := by rw [key, hd]; rfl
      rw [he, Once.known_concat_some hkey, Once.firsts_concat_known hkey (hseen ▸ hp),
        Finset.insert_eq_of_mem (hseen ▸ hp)]
      exact ⟨hseen, hlinks⟩
    · have hkey : key (net u).cfg ⟨st.table, d⟩ = some p.overlayId := by rw [key, hd]; rfl
      have hdial : dialed (net u).cfg ⟨st.table, d⟩ = none := by
        simp [dialed, hd, ht]
      rw [he, Once.known_concat_some hkey, Once.firsts_concat_new hkey (hseen ▸ hp),
        List.filterMap_append, List.filterMap_cons_none hdial, ← hseen, ← hlinks]
      exact ⟨rfl, (List.append_nil _).symm⟩
    · have hkey : key (net u).cfg ⟨st.table, d⟩ = some p.overlayId := by rw [key, hd]; rfl
      have hdial : dialed (net u).cfg ⟨st.table, d⟩ = some p := by
        simp [dialed, hd, ht]
      rw [he, Once.known_concat_some hkey, Once.firsts_concat_new hkey (hseen ▸ hp),
        List.filterMap_append, List.filterMap_cons_some hdial, ← hseen, ← hlinks]
      exact ⟨rfl, rfl⟩

/-- An invariant of every step is one of every run. -/
theorem run_induct {motive : Lan ι → Prop} {acts : List (Action ι)}
    (hstep : ∀ {s s' a}, a ∈ acts → s.step net a = some s' → motive s → motive s')
    (h : s.run net acts = some s') (hs : motive s) : motive s' := by
  induction acts generalizing s with
  | nil =>
    cases h
    exact hs
  | cons a acts ih =>
    obtain ⟨s₁, h₁, h⟩ := Option.bind_eq_some_iff.1 h
    exact ih (fun hmem => hstep (List.mem_cons_of_mem _ hmem)) h (hstep List.mem_cons_self h₁ hs)

variable {table : ι → RoutingTable} {acts : List (Action ι)}

theorem sound_run (h : (start net table).run net acts = some s) : Sound net s :=
  run_induct (fun _ => sound_step) h (sound_start table)

theorem key_eq_some {cfg : DiscoveryConfig} {h : Heard} {o : NodeOverlayId} :
    key cfg h = some o ↔ ∃ p, discovered cfg h.datagram = some p ∧ p.overlayId = o :=
  Option.map_eq_some_iff

theorem dialed_eq_some {cfg : DiscoveryConfig} {h : Heard} {p : DiscoveredPeer} :
    dialed cfg h = some p ↔ discovered cfg h.datagram = some p
      ∧ h.table.containsOverlay p.overlayId.val = false := by
  rw [dialed, Option.filter_eq_some_iff, Bool.not_eq_true']

theorem discovered_ne {cfg : DiscoveryConfig} {d : Datagram} {p : DiscoveredPeer}
    (h : discovered cfg d = some p) : p.overlayId ≠ cfg.overlay := by
  obtain ⟨b, -, h⟩ := Option.bind_eq_some_iff.1 h
  unfold discoveredFrom at h
  split_ifs at h with hown
  split at h
  · split_ifs at h
    cases h
    exact hown
  · exact nomatch h

omit [DecidableEq ι] in
theorem nodup_links (h : Sound net s) (u : ι) :
    ((s.station u).links.map DiscoveredPeer.overlayId).Nodup := by
  rw [(h u).2, List.Nodup, List.pairwise_map, List.pairwise_filterMap]
  refine (Once.pairwise_firsts _).imp fun hne p hp q hq heq => hne ?_
  rw [key_eq_some.2 ⟨p, (dialed_eq_some.1 hp).1, rfl⟩,
    key_eq_some.2 ⟨q, (dialed_eq_some.1 hq).1, heq.symm⟩]

/-- The first usable beacon with an overlay that a station has heard. -/
structure FirstHeard (cfg : DiscoveryConfig) (heard : List Heard) (o : NodeOverlayId)
    (first : Heard) : Prop where
  keyed : key cfg first = some o
  before : ∃ l l', heard = l ++ first :: l' ∧ ∀ e ∈ l, key cfg e ≠ some o

theorem firstHeard_iff {cfg : DiscoveryConfig} {heard : List Heard} {o : NodeOverlayId}
    {first : Heard} (ho : o ≠ cfg.overlay) : FirstHeard cfg heard o first
      ↔ key cfg first = some o ∧ first ∈ Once.firsts (key cfg) {cfg.overlay} heard := by
  have hknown : ∀ l : List Heard, o ∉ Once.known (key cfg) {cfg.overlay} l
      ↔ ∀ e ∈ l, key cfg e ≠ some o := by
    intro l
    rw [Once.mem_known, not_or, Finset.mem_singleton, and_iff_right ho]
    exact ⟨fun h e he hk => h ⟨e, he, hk⟩, fun h ⟨e, he, hk⟩ => h e he hk⟩
  rw [Once.mem_firsts_iff]
  constructor
  · rintro ⟨hkey, l, l', he, hl⟩
    exact ⟨hkey, o, l, l', hkey, he, (hknown l).2 hl⟩
  · rintro ⟨hkey, o', l, l', hkey', he, hl⟩
    cases hkey.symm.trans hkey'
    exact ⟨hkey, l, l', he, (hknown l).1 hl⟩

theorem FirstHeard.unique {cfg : DiscoveryConfig} {heard : List Heard} {o : NodeOverlayId}
    {first first' : Heard} (ho : o ≠ cfg.overlay) (h : FirstHeard cfg heard o first)
    (h' : FirstHeard cfg heard o first') : first = first' :=
  Once.eq_of_mem_firsts ((firstHeard_iff ho).1 h).2 ((firstHeard_iff ho).1 h').2
    (h.keyed.trans h'.keyed.symm)

omit [DecidableEq ι] in
/-- A station dials for the first beacon with an overlay, and for no other one. -/
theorem mem_links_iff (h : Sound net s) (u : ι) (p : DiscoveredPeer) :
    p ∈ (s.station u).links ↔ ∃ first, FirstHeard (net u).cfg (s.heard u) p.overlayId first
      ∧ discovered (net u).cfg first.datagram = some p
      ∧ first.table.containsOverlay p.overlayId.val = false := by
  rw [(h u).2, List.mem_filterMap]
  constructor
  · rintro ⟨first, hfirst, hp⟩
    obtain ⟨hd, ht⟩ := dialed_eq_some.1 hp
    have hheard := (firstHeard_iff (discovered_ne hd)).2 ⟨key_eq_some.2 ⟨p, hd, rfl⟩, hfirst⟩
    exact ⟨first, hheard, hd, ht⟩
  · rintro ⟨first, hfirst, hd, ht⟩
    exact ⟨first, ((firstHeard_iff (discovered_ne hd)).1 hfirst).2, dialed_eq_some.2 ⟨hd, ht⟩⟩

/-- No overlay is dialed twice. Whom a station dials for an overlay is settled by the first usable
beacon with this overlay that it hears, whoever has sent it: it dials where that one says, unless a
contact of its table has the overlay then. -/
theorem dials_first (h : (start net table).run net acts = some s) (u : ι) :
    ((s.station u).links.map DiscoveredPeer.overlayId).Nodup
    ∧ ∀ p, p ∈ (s.station u).links ↔ ∃ first l l', s.heard u = l ++ first :: l'
        ∧ (∀ e ∈ l, key (net u).cfg e ≠ some p.overlayId)
        ∧ discovered (net u).cfg first.datagram = some p
        ∧ first.table.containsOverlay p.overlayId.val = false := by
  have hs := sound_run h
  refine ⟨nodup_links hs u, fun p => ?_⟩
  rw [mem_links_iff hs]
  constructor
  · rintro ⟨first, ⟨-, l, l', he, hl⟩, hd, ht⟩
    exact ⟨first, l, l', he, hl, hd, ht⟩
  · rintro ⟨first, l, l', he, hl, hd, ht⟩
    exact ⟨first, ⟨key_eq_some.2 ⟨p, hd, rfl⟩, l, l', he, hl⟩, hd, ht⟩

/-- All that is sent, and all that was heard, are announcements, and those that were heard come from
stations on the same port. -/
def Honest (net : ι → Setup) (s : Lan ι) : Prop :=
  (∀ d ∈ s.air, ∃ v, d ∈ (net v).announce)
  ∧ ∀ u, ∀ e ∈ s.heard u, ∃ v, e.datagram ∈ (net v).announce
      ∧ (net v).cfg.port = (net u).cfg.port

theorem honest_step (hforge : ∀ d, a ≠ .forge d) (h : s.step net a = some s')
    (hs : Honest net s) : Honest net s' := by
  obtain ⟨hair, hheard⟩ := hs
  constructor
  · cases a with
    | announce v =>
      cases h
      exact fun d hd => (List.mem_append.1 hd).elim (hair d) fun hd => ⟨v, hd⟩
    | forge d => exact absurd rfl (hforge d)
    | hear v i =>
      simp only [step] at h
      split at h
      · split_ifs at h
        cases h
        exact hair
      · exact nomatch h
    | contact v peer =>
      cases h
      exact hair
  · intro u e he
    rcases step_station h u with ⟨hh, -⟩ | ⟨d, hd, hh, hport, -⟩
    · exact hheard u e (hh ▸ he)
    · rcases List.mem_append.1 (hh ▸ he) with he | he
      · exact hheard u e he
      · cases List.mem_singleton.1 he
        obtain ⟨v, hv⟩ := hair d hd
        obtain ⟨dest, hdest, rfl⟩ := List.mem_map.1 hv
        exact ⟨v, hv, (portOf_broadcastTargets hdest).symm.trans hport⟩

/-- When all datagrams are announcements, a station dials only others on its port, each overlay once
and where that station listens. And when it has heard another one that can be dialed, it has dialed
for that overlay, unless a contact of its table had the overlay when it first heard of it. -/
theorem lan_dials (hforge : ∀ d, Action.forge d ∉ acts)
    (h : (start net table).run net acts = some s) (u : ι) :
    ((s.station u).links.map DiscoveredPeer.overlayId).Nodup
    ∧ (∀ p ∈ (s.station u).links, ∃ v, p = (net v).peer ∧ (net v).cfg.overlay ≠ (net u).cfg.overlay
        ∧ dialable (net v).ip = true ∧ (net v).cfg.port = (net u).cfg.port)
    ∧ ∀ v, ∀ e ∈ s.heard u, e.datagram ∈ (net v).announce →
        (net v).cfg.overlay ≠ (net u).cfg.overlay → dialable (net v).ip = true →
        ∃ first, FirstHeard (net u).cfg (s.heard u) (net v).cfg.overlay first
          ∧ ((∃ p ∈ (s.station u).links, p.overlayId = (net v).cfg.overlay)
            ↔ first.table.containsOverlay (net v).cfg.overlay.val = false) := by
  have hhonest : Honest net s := run_induct
    (fun hmem => honest_step fun d hd => hforge d (hd ▸ hmem)) h
    ⟨fun _ hd => absurd hd List.not_mem_nil, fun _ _ he => absurd he List.not_mem_nil⟩
  have hs := sound_run h
  refine ⟨nodup_links hs u, fun p hp => ?_, fun v e he hv hne hip => ?_⟩
  · obtain ⟨first, ⟨-, l, l', hl, -⟩, hd, -⟩ := (mem_links_iff hs u p).1 hp
    obtain ⟨v, hv, hport⟩ := hhonest.2 u first (hl ▸ List.mem_append_right _ List.mem_cons_self)
    rw [discovered_announce hv] at hd
    split_ifs at hd with hok
    cases hd
    exact ⟨v, rfl, hok.1, hok.2, hport⟩
  · have hkey : key (net u).cfg e = some (net v).cfg.overlay := by
      rw [key, discovered_announce hv, if_pos ⟨hne, hip⟩]
      rfl
    obtain ⟨first, hfirst, hkey'⟩ :=
      Once.exists_mem_firsts he hkey (Finset.notMem_singleton.2 hne)
    have hheard := (firstHeard_iff hne).2 ⟨hkey', hfirst⟩
    refine ⟨first, hheard, ?_⟩
    constructor
    · rintro ⟨p, hp, hov⟩
      obtain ⟨first', hheard', -, ht⟩ := (mem_links_iff hs u p).1 hp
      rw [hov] at hheard' ht
      rwa [hheard.unique hne hheard']
    · intro ht
      obtain ⟨p, hd, hp⟩ := key_eq_some.1 hkey'
      exact ⟨p, (mem_links_iff hs u p).2 ⟨first, hp ▸ hheard, hd, hp ▸ ht⟩, hp⟩

/-! ### Two phones -/

/-- Two phones on one network. -/
def phones (b : Bool) : Setup where
  cfg :=
    { overlay := ⟨0xfd :: List.replicate 15 (if b then 2 else 1), rfl⟩
      kron1 := "kron1"
      p2pPort := 8000
      lan := none }
  ip := ⟨192, 168, 1, if b then 3 else 2⟩

/-- Someone who announces the first phone from elsewhere. -/
def impostor : Setup := { phones false with ip := ⟨192, 168, 1, 66⟩ }

def noContacts : RoutingTable := RoutingTable.new 0 .edgeMiner

theorem not_containsOverlay (b : Bool) :
    noContacts.containsOverlay (phones b).cfg.overlay.val = false := by
  cases b
  · decide
  · decide

theorem mem_announce (v : Setup) (h : v.cfg.lan = none) :
    ⟨encodeBeacon v.cfg.beacon, .v4 v.ip v.cfg.port, .v4 ⟨255, 255, 255, 255⟩ v.cfg.port⟩
      ∈ v.announce := by
  rw [Setup.announce, h]
  exact List.mem_singleton.2 rfl

/-- The announcement of a phone, seen by the one who hears it. -/
theorem heard_announce (v : Setup) (h : v.cfg.overlay = (phones false).cfg.overlay)
    (hip : dialable v.ip = true) {d : Datagram} (hd : d ∈ v.announce) :
    discovered (phones true).cfg d = some v.peer := by
  rw [discovered_announce hd, h, if_pos ⟨by decide, hip⟩]

/-- Who was first with the overlay of the other phone is dialed, and that phone is not. -/
theorem dials_first_impostor : ∃ s, (start phones fun _ => noContacts).run phones
      [.announce false, .forge ⟨encodeBeacon impostor.cfg.beacon, .v4 impostor.ip impostor.cfg.port,
        .v4 ⟨255, 255, 255, 255⟩ impostor.cfg.port⟩, .hear true 1, .hear true 0] = some s
    ∧ impostor.peer ∈ (s.station true).links ∧ (phones false).peer ∉ (s.station true).links := by
  have hrun : (start phones fun _ => noContacts).run phones
      [.announce false, .forge ⟨encodeBeacon impostor.cfg.beacon, .v4 impostor.ip impostor.cfg.port,
        .v4 ⟨255, 255, 255, 255⟩ impostor.cfg.port⟩, .hear true 1, .hear true 0] = some _ := rfl
  obtain ⟨honce, hlinks⟩ := dials_first hrun true
  have himpostor : impostor.peer ∈ _ := (hlinks impostor.peer).2 ⟨_, [], _, rfl,
    fun e he => absurd he List.not_mem_nil,
    heard_announce impostor rfl (by decide) (mem_announce impostor rfl), not_containsOverlay false⟩
  refine ⟨_, hrun, himpostor, fun hreal => ?_⟩
  have heq : impostor.peer = (phones false).peer :=
    List.inj_on_of_nodup_map honce himpostor hreal rfl
  exact absurd (congrArg DiscoveredPeer.p2pAddr heq) (by decide)

theorem lan_dials_phones : ∃ s, (start phones fun _ => noContacts).run phones
      [.announce false, .hear true 0] = some s
    ∧ (phones false).peer ∈ (s.station true).links := by
  have hrun : (start phones fun _ => noContacts).run phones [.announce false, .hear true 0]
      = some _ := rfl
  obtain ⟨-, hpeer, hdials⟩ := lan_dials (fun d => by simp) hrun true
  obtain ⟨first, hfirst, hdialed⟩ :=
    hdials false _ List.mem_cons_self (mem_announce _ rfl) (by decide) rfl
  obtain ⟨l, l', hheard, -⟩ := hfirst.before
  have hmem : first ∈ [_] := hheard ▸ List.mem_append_right l List.mem_cons_self
  cases List.mem_singleton.1 hmem
  obtain ⟨p, hp, -⟩ := hdialed.2 (not_containsOverlay false)
  obtain ⟨v, rfl, hne, -⟩ := hpeer p hp
  refine ⟨_, hrun, ?_⟩
  cases v
  · exact hp
  · exact absurd rfl hne

end Lan

end KronMesh.Discovery
