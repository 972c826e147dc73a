import KronMesh.Lattice

/-!
# The quote of a device

What a handshake carries about the hardware of a peer: measurements, and a digest of them. A quote
is read back from its bytes when no list of it is longer than its length byte reaches
(`fromBytes_toBytes`). The check computes mean and variance in double precision.
-/

namespace KronMesh

open Wire

inductive DeviceClass
  | iotSensor
  | legacyMobile
  | personalComputer
  deriving DecidableEq, Repr

namespace DeviceClass

def toU8 : DeviceClass → UInt8
  | iotSensor => 0
  | legacyMobile => 1
  | personalComputer => 2

def fromU8 (v : UInt8) : Option DeviceClass :=
  if v = 0 then some iotSensor else if v = 1 then some legacyMobile
  else if v = 2 then some personalComputer else none

@[simp] theorem fromU8_toU8 (c : DeviceClass) : fromU8 c.toU8 = some c := by
  cases c <;> rfl

end DeviceClass

/-- What the check of a quote returns of `SecurityError`. -/
inductive SecurityError
  | attestationInvalid
  | virtualMachineFingerprint
  | emulatorTiming
  | datacenterCluster
  | impossibleCadence
  deriving DecidableEq, Repr

structure DeviceScore where
  authenticity : ℕ
  residential : ℕ
  extraDifficultyBits : ℕ
  flags : List String
  deriving DecidableEq, Repr

/-- `[u8; 4]`. -/
structure Ipv4 where
  a : UInt8
  b : UInt8
  c : UInt8
  d : UInt8
  deriving DecidableEq, Repr

namespace Ipv4

def bytes (ip : Ipv4) : Bytes := [ip.a, ip.b, ip.c, ip.d]

def ofBytes (bs : Bytes) : Ipv4 := ⟨bs.getD 0 0, bs.getD 1 0, bs.getD 2 0, bs.getD 3 0⟩

@[simp] theorem ofBytes_bytes (ip : Ipv4) : ofBytes ip.bytes = ip := rfl

end Ipv4

structure DeviceAttestation where
  miner : Address
  deviceClass : DeviceClass
  logicalCores : UInt16
  advertisedMhz : UInt32
  latticeProbeNs : List UInt64
  cacheProbeNs : List UInt64
  clockSkewPpm : List Int32
  ipv4 : Ipv4
  adjacencyRttMs : List UInt16
  miningDurationNs : UInt64
  quote : Hash
  deriving DecidableEq

def minSamples : ℕ := 4

/-! ## Bytes -/

/-- A length byte, which wraps, and the values. -/
def pushU64s (xs : List UInt64) : Bytes :=
  UInt8.ofNat xs.length :: xs.flatMap fun x => leBytes 8 x.toNat

/-- The values in front, and how long they are. -/
def readU64s (bytes : Bytes) : Except (Fault SecurityError) (List UInt64 × ℕ) := do
  rejectIf bytes.isEmpty .attestationInvalid
  let n ← byteAt bytes 0
  rejectIf (bytes.length < 1 + n.toNat * 8) .attestationInvalid
  let v ← readEach (readU64 bytes) 8 n.toNat 1
  return (v, 1 + n.toNat * 8)

/-- `Option::ok_or`. -/
def okOr {ε β : Type} (x : Option β) (e : ε) : Except (Fault ε) β :=
  match x with
  | some b => .ok b
  | none => .error (.err e)

theorem okOr_eq_ok {ε β : Type} {x : Option β} {e : ε} {b : β} : okOr x e = .ok b ↔ x = some b := by
  rcases x with _ | a
  · simp [okOr]
  · simp [okOr]

namespace DeviceAttestation

def canonicalBytes (att : DeviceAttestation) : Bytes :=
  hashBytes att.miner ++ [att.deviceClass.toU8] ++ leBytes 2 att.logicalCores.toNat
    ++ leBytes 4 att.advertisedMhz.toNat ++ pushU64s att.latticeProbeNs
    ++ pushU64s att.cacheProbeNs
    ++ (UInt8.ofNat att.clockSkewPpm.length
      :: att.clockSkewPpm.flatMap fun s => leBytes 4 s.toUInt32.toNat)
    ++ att.ipv4.bytes
    ++ (UInt8.ofNat att.adjacencyRttMs.length
      :: att.adjacencyRttMs.flatMap fun r => leBytes 2 r.toNat)
    ++ leBytes 8 att.miningDurationNs.toNat

def toBytes (att : DeviceAttestation) : Bytes := att.canonicalBytes ++ hashBytes att.quote

/-- The quote in front, and where it ends. -/
def fromBytes (bytes : Bytes) : Except (Fault SecurityError) (DeviceAttestation × ℕ) := do
  rejectIf (bytes.length < 32 + 1 + 2 + 4 + 1) .attestationInvalid
  let miner ← slice bytes 0 32
  let tag ← byteAt bytes 32
  let deviceClass ← okOr (DeviceClass.fromU8 tag) .attestationInvalid
  let logicalCores ← readU16 bytes 33
  let advertisedMhz ← readU32 bytes 35
  let rest ← slice bytes 39 (bytes.length - 39)
  let (latticeProbeNs, n1) ← readU64s rest
  let off := 39 + n1
  let rest ← slice bytes off (bytes.length - off)
  let (cacheProbeNs, n2) ← readU64s rest
  let off := off + n2
  rejectIf (bytes.length < off + 1) .attestationInvalid
  let nskew ← byteAt bytes off
  let off := off + 1
  rejectIf (bytes.length < off + nskew.toNat * 4 + 4 + 1) .attestationInvalid
  let clockSkewPpm ← readEach (readI32 bytes) 4 nskew.toNat off
  let off := off + nskew.toNat * 4
  let ipv4 ← slice bytes off 4
  let off := off + 4
  let nrtt ← byteAt bytes off
  let off := off + 1
  rejectIf (bytes.length < off + nrtt.toNat * 2 + 8 + 32) .attestationInvalid
  let adjacencyRttMs ← readEach (readU16 bytes) 2 nrtt.toNat off
  let off := off + nrtt.toNat * 2
  let miningDurationNs ← readU64 bytes off
  let off := off + 8
  let quote ← slice bytes off 32
  return (⟨hashOfBytes miner, deviceClass, logicalCores, UInt32.ofNat advertisedMhz,
    latticeProbeNs, cacheProbeNs, clockSkewPpm, Ipv4.ofBytes ipv4, adjacencyRttMs,
    miningDurationNs, hashOfBytes quote⟩, off + 32)

end DeviceAttestation

/-! ## Reading a quote back -/

section ReadBack

variable {bytes : Bytes} {off : ℕ}

/-- The list lengths of a quote that its length bytes reach. -/
structure DeviceAttestation.Short (att : DeviceAttestation) : Prop where
  lattice : att.latticeProbeNs.length < 256
  cache : att.cacheProbeNs.length < 256
  skew : att.clockSkewPpm.length < 256
  rtt : att.adjacencyRttMs.length < 256

theorem toNat_lengthByte {n : ℕ} (h : n < 256) : (UInt8.ofNat n).toNat = n :=
  UInt8.toNat_ofNat_of_lt' h

theorem length_fields {β : Type} {field : β → Bytes} {width : ℕ}
    (h : ∀ b, (field b).length = width) (bs : List β) :
    (bs.flatMap field).length = bs.length * width := by
  induction bs with
  | nil => simp
  | cons b bs ih =>
    rw [List.flatMap_cons, List.length_append, h, ih, List.length_cons]
    ring

theorem length_pushU64s (xs : List UInt64) : (pushU64s xs).length = 1 + xs.length * 8 := by
  rw [pushU64s, List.length_cons, length_fields fun _ => length_leBytes 8 _, Nat.add_comm]

/-- Values that stand at an offset are read from the rest of the bytes there. -/
theorem readU64s_at {xs : List UInt64} (h : At bytes off (pushU64s xs)) (hx : xs.length < 256) :
    ∃ rest, slice (ε := SecurityError) bytes off (bytes.length - off) = .ok rest
      ∧ readU64s rest = .ok (xs, 1 + xs.length * 8) := by
  have hle := h.le
  obtain ⟨suf, hdrop⟩ := (at_iff_drop (by omega)).1 h
  have hrest : slice (ε := SecurityError) bytes off (bytes.length - off)
      = .ok (pushU64s xs ++ suf) := by
    rw [slice, if_pos (by omega), List.take_of_length_le (by rw [List.length_drop]), hdrop]
  refine ⟨_, hrest, ?_⟩
  have hat : At (pushU64s xs ++ suf) 0 (pushU64s xs) := (At.refl _).append_right suf
  have hle := hat.le
  generalize pushU64s xs ++ suf = rest at hat hle ⊢
  obtain ⟨hcount, hvalues⟩ := hat.uncons
  rw [length_pushU64s] at hle
  have hread : readEach (readU64 (ε := SecurityError) rest) 8 xs.length 1 = .ok xs :=
    readEach_at (fun x => length_leBytes 8 x.toNat) (fun _ _ h => readU64_at h) xs 1 hvalues
  have h0 : ¬ rest.isEmpty = true := by
    rw [List.isEmpty_iff_length_eq_zero]
    omega
  have h1 : ¬ rest.length < 1 + xs.length * 8 := by omega
  simp only [readU64s, rejectIf_of_not h0, byteAt_at hcount, ok_bind, toNat_lengthByte hx,
    rejectIf_of_not h1, hread]
  rfl

/-- Where the parts of a quote stand. -/
theorem DeviceAttestation.at_parts {att : DeviceAttestation} (hat : At bytes 0 att.toBytes) :
    (At bytes 0 (hashBytes att.miner) ∧ At bytes 32 [att.deviceClass.toU8]
      ∧ At bytes 33 (leBytes 2 att.logicalCores.toNat)
      ∧ At bytes 35 (leBytes 4 att.advertisedMhz.toNat)) ∧
    ∃ n1 n2 n3 n4, n1 = 1 + att.latticeProbeNs.length * 8 ∧ n2 = 1 + att.cacheProbeNs.length * 8
      ∧ n3 = att.clockSkewPpm.length * 4 ∧ n4 = att.adjacencyRttMs.length * 2
      ∧ At bytes 39 (pushU64s att.latticeProbeNs) ∧ At bytes (39 + n1) (pushU64s att.cacheProbeNs)
      ∧ At bytes (39 + n1 + n2) [UInt8.ofNat att.clockSkewPpm.length]
      ∧ At bytes (39 + n1 + n2 + 1)
        (att.clockSkewPpm.flatMap fun s => leBytes 4 s.toUInt32.toNat)
      ∧ At bytes (39 + n1 + n2 + 1 + n3) att.ipv4.bytes
      ∧ At bytes (39 + n1 + n2 + 1 + n3 + 4) [UInt8.ofNat att.adjacencyRttMs.length]
      ∧ At bytes (39 + n1 + n2 + 1 + n3 + 4 + 1)
        (att.adjacencyRttMs.flatMap fun r => leBytes 2 r.toNat)
      ∧ At bytes (39 + n1 + n2 + 1 + n3 + 4 + 1 + n4) (leBytes 8 att.miningDurationNs.toNat)
      ∧ At bytes (39 + n1 + n2 + 1 + n3 + 4 + 1 + n4 + 8) (hashBytes att.quote) := by
  unfold toBytes canonicalBytes at hat
  have hclass := hat.left.left.left.left.left.left.left.left.left.right
  have hcores := hat.left.left.left.left.left.left.left.left.right
  have hmhz := hat.left.left.left.left.left.left.left.right
  have hlat := hat.left.left.left.left.left.left.right
  have hcache := hat.left.left.left.left.left.right
  have hskew := hat.left.left.left.left.right
  have hip := hat.left.left.left.right
  have hrtt := hat.left.left.right
  have hdur := hat.left.right
  have hquote := hat.right
  have hs := length_fields (fun s : Int32 => length_leBytes 4 s.toUInt32.toNat) att.clockSkewPpm
  have hr := length_fields (fun r : UInt16 => length_leBytes 2 r.toNat) att.adjacencyRttMs
  have hi : att.ipv4.bytes.length = 4 := rfl
  simp only [List.length_append, List.length_cons, List.length_nil, length_hashBytes,
    length_leBytes, length_pushU64s, hs, hi] at hclass hcores hmhz hlat hcache hskew hip hrtt
  simp only [List.length_append, List.length_cons, List.length_nil, length_hashBytes,
    length_leBytes, length_pushU64s, hs, hr, hi] at hdur hquote
  refine ⟨⟨hat.left.left.left.left.left.left.left.left.left.left, hclass, hcores, hmhz⟩,
    _, _, _, _, rfl, rfl, rfl, rfl, hlat, hcache.at_eq (by omega),
    (hskew.uncons.1).at_eq (by omega), (hskew.uncons.2).at_eq (by omega), hip.at_eq (by omega),
    (hrtt.uncons.1).at_eq (by omega), (hrtt.uncons.2).at_eq (by omega), hdur.at_eq (by omega),
    hquote.at_eq (by omega)⟩

theorem DeviceAttestation.length_toBytes (att : DeviceAttestation) : att.toBytes.length
    = 87 + att.latticeProbeNs.length * 8 + att.cacheProbeNs.length * 8
      + att.clockSkewPpm.length * 4 + att.adjacencyRttMs.length * 2 := by
  have hs := length_fields (fun s : Int32 => length_leBytes 4 s.toUInt32.toNat) att.clockSkewPpm
  have hr := length_fields (fun r : UInt16 => length_leBytes 2 r.toNat) att.adjacencyRttMs
  have hi : att.ipv4.bytes.length = 4 := rfl
  simp only [toBytes, canonicalBytes, List.length_append, List.length_cons, List.length_nil,
    length_hashBytes, length_leBytes, length_pushU64s, hs, hr, hi]
  omega

theorem DeviceAttestation.Short.length_le {att : DeviceAttestation} (h : att.Short) :
    att.toBytes.length ≤ 5697 := by
  have h1 := h.lattice
  have h2 := h.cache
  have h3 := h.skew
  have h4 := h.rtt
  rw [length_toBytes]
  omega

/-- A quote is read back. -/
theorem DeviceAttestation.fromBytes_toBytes {att : DeviceAttestation} (h : att.Short) :
    fromBytes att.toBytes = .ok (att, att.toBytes.length) := by
  obtain ⟨⟨hminer, hclass, hcores, hmhz⟩, n1, n2, n3, n4, h1, h2, h3, h4, hlat, hcache, hnskew,
    hskew, hip, hnrtt, hrtt, hdur, hquote⟩ := at_parts (At.refl att.toBytes)
  have hi : att.ipv4.bytes.length = 4 := rfl
  have hlen : att.toBytes.length = 39 + n1 + n2 + 1 + n3 + 4 + 1 + n4 + 8 + 32 := by
    rw [length_toBytes]
    omega
  generalize att.toBytes = bytes at *
  obtain ⟨rest1, hs1, hr1⟩ := readU64s_at hlat h.lattice
  obtain ⟨rest2, hs2, hr2⟩ := readU64s_at hcache h.cache
  rw [← h1] at hr1
  rw [← h2] at hr2
  have c1 : ¬ bytes.length < 32 + 1 + 2 + 4 + 1 := by omega
  have c2 : ¬ bytes.length < 39 + n1 + n2 + 1 := by omega
  have c3 : ¬ bytes.length < 39 + n1 + n2 + 1 + n3 + 4 + 1 := by omega
  have c4 : ¬ bytes.length < 39 + n1 + n2 + 1 + n3 + 4 + 1 + n4 + 8 + 32 := by omega
  have hskews : readEach (readI32 (ε := SecurityError) bytes) 4 att.clockSkewPpm.length
      (39 + n1 + n2 + 1) = .ok att.clockSkewPpm :=
    readEach_at (fun s => length_leBytes 4 s.toUInt32.toNat) (fun _ _ h => readI32_at h) _ _ hskew
  have hrtts : readEach (readU16 (ε := SecurityError) bytes) 2 att.adjacencyRttMs.length
      (39 + n1 + n2 + 1 + n3 + 4 + 1) = .ok att.adjacencyRttMs :=
    readEach_at (fun r => length_leBytes 2 r.toNat) (fun _ _ h => readU16_at h) _ _ hrtt
  have hok : okOr (ε := SecurityError) (DeviceClass.fromU8 att.deviceClass.toU8)
      .attestationInvalid = .ok att.deviceClass := by
    rw [DeviceClass.fromU8_toU8]
    rfl
  simp only [fromBytes, rejectIf_of_not c1, ok_bind, slice_at hminer (length_hashBytes _),
    byteAt_at hclass, hok, readU16_at hcores, readU32_at hmhz att.advertisedMhz.toNat_lt, hs1, hr1,
    hs2, hr2, rejectIf_of_not c2, byteAt_at hnskew, toNat_lengthByte h.skew, ← h3,
    rejectIf_of_not c3, hskews, slice_at hip hi, byteAt_at hnrtt, toNat_lengthByte h.rtt, ← h4,
    rejectIf_of_not c4, hrtts, readU64_at hdur, slice_at hquote (length_hashBytes _),
    hashOfBytes_hashBytes, Ipv4.ofBytes_bytes, UInt32.ofNat_toNat]
  exact congrArg (fun n => Except.ok (att, n)) hlen.symm

end ReadBack

/-! ## The check -/

def meanU64 (xs : List UInt64) : Float :=
  if xs.isEmpty then 0 else (xs.map UInt64.toFloat).foldl (· + ·) 0 / xs.length.toFloat

def varianceU64 (xs : List UInt64) : Float :=
  if xs.length < 2 then 0
  else
    let m := meanU64 xs
    (xs.map fun x => (x.toFloat - m) * (x.toFloat - m)).foldl (· + ·) 0 / xs.length.toFloat

def isDatacenterIpv4 (ip : Ipv4) : Bool := [3, 13, 18, 34, 35, 52, 54, 104].contains ip.a

def minDurationNs : DeviceClass → ℕ
  | .iotSensor => 20000
  | .legacyMobile => 15000
  | .personalComputer => 8000

def maxCores : DeviceClass → ℕ
  | .iotSensor => 2
  | .legacyMobile => 8
  | .personalComputer => 32

def minProbe : DeviceClass → Float
  | .iotSensor => 20000
  | .legacyMobile => 8000
  | .personalComputer => 400

/-- `b"tee-quote-v1"`. -/
def quoteTag : Bytes := [116, 101, 101, 45, 113, 117, 111, 116, 101, 45, 118, 49]

/-- A list that was read has 255 values at most, so the sum of the round trips is a word. -/
def verifyHardwareAuthenticity (P : Primitives) (att : DeviceAttestation) :
    Except (Fault SecurityError) DeviceScore := do
  rejectIf (P.sha256 (quoteTag ++ att.canonicalBytes) ≠ att.quote) .attestationInvalid
  rejectIf (att.latticeProbeNs.length < minSamples ∨ att.cacheProbeNs.length < minSamples
    ∨ att.clockSkewPpm.length < 2 ∨ att.adjacencyRttMs.length < 2) .attestationInvalid
  let latVar := varianceU64 att.latticeProbeNs
  let cacheVar := varianceU64 att.cacheProbeNs
  rejectIf (latVar < 1 ∨ cacheVar < 1) .virtualMachineFingerprint
  rejectIf (att.clockSkewPpm.all (· == 0)) .virtualMachineFingerprint
  rejectIf (att.logicalCores = 0 ∨ maxCores att.deviceClass < att.logicalCores.toNat)
    .emulatorTiming
  rejectIf (meanU64 att.latticeProbeNs < minProbe att.deviceClass) .emulatorTiming
  rejectIf (isDatacenterIpv4 att.ipv4) .datacenterCluster
  rejectIf (att.adjacencyRttMs.all (· ≤ 2) ∧ minSamples ≤ att.adjacencyRttMs.length)
    .datacenterCluster
  rejectIf (att.miningDurationNs.toNat < minDurationNs att.deviceClass) .impossibleCadence
  let lowJitter := decide (latVar < 500)
  let rttMean := (att.adjacencyRttMs.map UInt16.toNat).sum / att.adjacencyRttMs.length
  let lowRtt := decide (rttMean < 8)
  let prefixed := [86, 92, 188].contains att.ipv4.a
  return {
    authenticity := if lowJitter then 850 - 120 else 850
    residential := if lowRtt then 800 - 200 else 800
    extraDifficultyBits := 0
    flags := (if lowJitter then ["low-jitter"] else []) ++ (if lowRtt then ["low-rtt"] else [])
      ++ if prefixed then ["residential-prefix"] else [] }

/-- Past the digest, the check does not look at whose quote it is. -/
theorem verifyHardwareAuthenticity_of_quote {P : Primitives} {att : DeviceAttestation}
    {miner : Address} {quote : Hash} (h : ¬ P.sha256 (quoteTag ++ att.canonicalBytes) ≠ att.quote)
    (h' : ¬ P.sha256 (quoteTag ++ { att with miner := miner, quote := quote }.canonicalBytes)
      ≠ quote) :
    verifyHardwareAuthenticity P { att with miner := miner, quote := quote }
      = verifyHardwareAuthenticity P att := by
  unfold verifyHardwareAuthenticity
  rw [rejectIf_of_not h, rejectIf_of_not h']

end KronMesh
