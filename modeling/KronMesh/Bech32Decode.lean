import KronMesh.Attestation
import KronMesh.Lib.Text
import KronMesh.MeshWire
import KronMesh.Regroup

/-!
# Reading a display address

The decoder of `kron1…`. What a terminal puts into a pasted line is dropped first; then the case,
the separator, the human-readable part, the characters, the checksum and the padding are checked.
-/

namespace KronMesh

open Wire

inductive Bech32Error
  | empty
  | mixedCase
  | missingSeparator
  | invalidHrp
  | invalidCharset
  | invalidChecksum
  | invalidPadding
  | invalidPayloadLength
  deriving DecidableEq, Repr

/-- `char::is_whitespace`: the Unicode property `White_Space`. -/
def isWhitespace (c : Char) : Bool :=
  let n := c.toNat
  (9 ≤ n && n ≤ 13) || (0x2000 ≤ n && n ≤ 0x200a)
    || [0x20, 0x85, 0xa0, 0x1680, 0x2028, 0x2029, 0x202f, 0x205f, 0x3000].contains n

theorem isWhitespace_of_graphic {c : Char} (h : 33 ≤ c.toNat) (h' : c.toNat ≤ 126) :
    isWhitespace c = false := by
  unfold isWhitespace
  simp
  omega

/-- `str::trim`. -/
def trimText (s : String) : String := String.ofList (Text.trim isWhitespace s.toList)

theorem trimText_of_none {s : String} (h : ∀ c ∈ s.toList, isWhitespace c = false) :
    trimText s = s := by
  rw [trimText, Text.trim_of_none h, String.ofList_toList]

/-- What `hex::encode` writes in, and what `hex::decode` reads. -/
def hexDigits : List Char := "0123456789abcdefABCDEF".toList

def isIgnorableAddressChar (c : Char) : Bool :=
  let n := c.toNat
  isWhitespace c
    -- soft hyphen, zero-width space and joiners, word joiner, byte order mark, direction marks
    || [0xad, 0x200b, 0x200c, 0x200d, 0x2060, 0xfeff, 0x200e, 0x200f].contains n
    -- bidi embeddings and isolates
    || (0x202a ≤ n && n ≤ 0x202e) || (0x2066 ≤ n && n ≤ 0x2069)

/-- Drops what a terminal wraps a pasted line with. -/
def normalizeBech32Input (s : String) : String :=
  String.ofList (s.toList.filter fun c => !isIgnorableAddressChar c)

def isAsciiLowercase (b : UInt8) : Bool := 97 ≤ b && b ≤ 122

def isAsciiUppercase (b : UInt8) : Bool := 65 ≤ b && b ≤ 90

/-- `str::to_ascii_lowercase`; `Char.toLower` moves the letters of ASCII only. -/
def toAsciiLowercase (s : String) : String := String.ofList (s.toList.map Char.toLower)

/-- `str::rfind` of an ASCII character: where the last byte `b` is. -/
def rfind (b : UInt8) (bytes : Bytes) : Option ℕ :=
  (bytes.reverse.findIdx? (· == b)).map fun i => bytes.length - 1 - i

/-- `b'1'`. -/
def separator : UInt8 := 49

def charsetIndex (c : UInt8) : Option UInt8 :=
  (charset.findIdx? fun x => x.toNat == c.toNat).map UInt8.ofNat

def verifyChecksum (hrp data : Bytes) : Bool := polymod (hrpExpand hrp ++ data) == 1#32

def decodeKron (s : String) : Except (Fault Bech32Error) Hash := do
  let s := normalizeBech32Input s
  rejectIf (s = "") .empty
  let hasLower := (asBytes s).any isAsciiLowercase
  let hasUpper := (asBytes s).any isAsciiUppercase
  rejectIf (hasLower = true ∧ hasUpper = true) .mixedCase
  let lowered := asBytes (toAsciiLowercase s)
  rejectIf (90 < lowered.length) .invalidChecksum
  let sep ← okOr (rfind separator lowered) .missingSeparator
  rejectIf (sep = 0) .invalidHrp
  rejectIf (lowered.take sep ≠ hrpBytes) .invalidHrp
  let dataPart := lowered.drop (sep + 1)
  rejectIf (dataPart.length < 6) .invalidChecksum
  let data ← okOr (dataPart.mapM charsetIndex) .invalidCharset
  rejectIf (verifyChecksum hrpBytes data = false) .invalidChecksum
  let payload5 := data.take (data.length - 6)
  let bytes ← okOr (convertBits payload5 5 8 false) .invalidPadding
  rejectIf (bytes.length ≠ 32) .invalidPayloadLength
  return hashOfBytes bytes

end KronMesh
