import KronMesh.Lib.Wire
import Mathlib.Data.BitVec

/-!
# Display addresses

The Bech32 encoder behind `kron1…`: eight-bit groups regrouped into five-bit ones, and the
six-character checksum.
-/

namespace KronMesh

open Wire

/-- A `[u8; 32]`, read as one big-endian number: its order is the order of the bytes. -/
abbrev Hash := BitVec 256

abbrev Address := Hash

abbrev TxHash := Hash

/-- The 32 bytes of a hash. -/
def hashBytes (h : Hash) : Bytes := (leBytes 32 h.toNat).reverse

/-- The hash with these 32 bytes. -/
def hashOfBytes (bs : Bytes) : Hash := BitVec.ofNat 256 (leNat bs.reverse)

@[simp] theorem length_hashBytes (h : Hash) : (hashBytes h).length = 32 := by
  rw [hashBytes, List.length_reverse, length_leBytes]

@[simp] theorem hashOfBytes_hashBytes (h : Hash) : hashOfBytes (hashBytes h) = h := by
  have hlt : h.toNat < 256 ^ 32 := h.isLt
  rw [hashOfBytes, hashBytes, List.reverse_reverse, leNat_leBytes 32 _ hlt, BitVec.ofNat_toNat,
    BitVec.setWidth_eq]

theorem hashBytes_hashOfBytes {bs : Bytes} (h : bs.length = 32) :
    hashBytes (hashOfBytes bs) = bs := by
  have hlt := leNat_lt bs.reverse
  have hlen : bs.reverse.length = 32 := by rw [List.length_reverse, h]
  rw [hlen] at hlt
  have hnat : (hashOfBytes bs).toNat = leNat bs.reverse := by
    rw [hashOfBytes, BitVec.toNat_ofNat]
    exact Nat.mod_eq_of_lt hlt
  have hback := leBytes_leNat bs.reverse
  rw [hlen] at hback
  rw [hashBytes, hnat, hback, List.reverse_reverse]

def charset : List Char := "qpzry9x8gf2tvdw0s3jn54khce6mua7l".toList

/-- The BIP-173 generator. -/
def gen : List (BitVec 32) := [0x3b6a57b2, 0x26508e6d, 0x1ea119fa, 0x3d4233dd, 0x2a1462b3]

def hrp : String := "kron"

/-- One value of `polymod`. -/
def polymodStep (chk : BitVec 32) (v : UInt8) : BitVec 32 :=
  let b := chk >>> 25
  let chk := ((chk &&& 0x1ffffff#32) <<< 5) ^^^ BitVec.ofNat 32 v.toNat
  gen.zipIdx.foldl (fun chk g => if (b >>> g.2) &&& 1#32 = 1#32 then chk ^^^ g.1 else chk) chk

def polymod (values : Bytes) : BitVec 32 := values.foldl polymodStep 1#32

def hrpExpand (hrp : Bytes) : Bytes :=
  hrp.map (fun b : UInt8 => b >>> 5) ++ [0] ++ hrp.map (fun b : UInt8 => b &&& 31)

def hrpBytes : Bytes := hrp.toList.map fun c => UInt8.ofNat c.toNat

def createChecksum (hrp data : Bytes) : Bytes :=
  let p := polymod (hrpExpand hrp ++ data ++ [0, 0, 0, 0, 0, 0]) ^^^ 1#32
  (List.range 6).map fun i => UInt8.ofNat ((p >>> (5 * (5 - i))) &&& 31#32).toNat

/-- The groups given up by `while bits >= toBits`, and the bits left. -/
def drain (toBits acc : ℕ) : ℕ → ℕ → Bytes × ℕ
  | 0, bits => ([], bits)
  | fuel + 1, bits =>
    if toBits ≤ bits then
      let (out, rest) := drain toBits acc fuel (bits - toBits)
      (UInt8.ofNat ((acc >>> (bits - toBits)) &&& (1 <<< toBits - 1)) :: out, rest)
    else ([], bits)

/-- The regrouping loop: accumulator, bits held and groups out so far. -/
def convertLoop (frBits toBits : ℕ) : Bytes → ℕ → ℕ → Option (Bytes × ℕ × ℕ)
  | [], acc, bits => some ([], acc, bits)
  | value :: data, acc, bits =>
    let v := value.toNat
    if v >>> frBits ≠ 0 then none
    else
      let acc := ((acc <<< frBits) ||| v) &&& (1 <<< (frBits + toBits - 1) - 1)
      -- every turn of the inner loop takes `toBits` bits, so the bits held bound its turns
      let (out, bits) := drain toBits acc (bits + frBits) (bits + frBits)
      (convertLoop frBits toBits data acc bits).map fun (rest, acc, bits) =>
        (out ++ rest, acc, bits)

/-- Regroups `frBits`-bit values into `toBits`-bit ones. -/
def convertBits (data : Bytes) (frBits toBits : ℕ) (pad : Bool) : Option Bytes :=
  match convertLoop frBits toBits data 0 0 with
  | none => none
  | some (out, acc, bits) =>
    let last := (acc <<< (toBits - bits)) &&& (1 <<< toBits - 1)
    if pad then
      if 0 < bits then some (out ++ [UInt8.ofNat last]) else some out
    else if frBits ≤ bits ∨ last ≠ 0 then none
    else some out

/-- The `kron1…` spelling of an address. -/
def encodeKron (payload : Hash) : String :=
  let data := (convertBits (hashBytes payload) 8 5 true).getD []
  let checksum := createChecksum hrpBytes data
  hrp ++ "1" ++ String.ofList ((data ++ checksum).map fun v => charset.getD v.toNat 'q')

end KronMesh
