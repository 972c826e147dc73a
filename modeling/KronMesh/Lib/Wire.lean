import Mathlib.Data.Nat.Basic
import Mathlib.Tactic.Common
import Mathlib.Tactic.Ring
import Mathlib.Tactic.Linarith

/-!
# Byte strings and readers at an offset

Little-endian words, and reads of a byte string at a running offset. A read that leaves the string
is a `panic`, kept apart from an error the reader reports. A field written in a longer string is
read back where it stands (`slice_at`).
-/

namespace Wire

abbrev Bytes := List UInt8

/-- `v` in `k` bytes, the least significant first. -/
def leBytes : ℕ → ℕ → Bytes
  | 0, _ => []
  | k + 1, v => UInt8.ofNat v :: leBytes k (v / 256)

/-- The number whose bytes these are, the least significant first. -/
def leNat : Bytes → ℕ
  | [] => 0
  | b :: bs => b.toNat + 256 * leNat bs

@[simp] theorem length_leBytes : ∀ k v, (leBytes k v).length = k
  | 0, _ => rfl
  | k + 1, v => by rw [leBytes, List.length_cons, length_leBytes]

theorem leNat_lt : ∀ bs, leNat bs < 256 ^ bs.length
  | [] => Nat.one_pos
  | b :: bs => by
    have hb := b.toNat_lt
    have hbs := leNat_lt bs
    rw [leNat, List.length_cons, pow_succ]
    omega

theorem leNat_leBytes : ∀ k v, v < 256 ^ k → leNat (leBytes k v) = v
  | 0, v, h => by
    have h0 : v = 0 := by simpa using h
    rw [h0]
    rfl
  | k + 1, v, h => by
    have hk : v / 256 < 256 ^ k := by
      rw [Nat.div_lt_iff_lt_mul (by omega)]
      rwa [pow_succ] at h
    rw [leBytes, leNat, leNat_leBytes k _ hk, UInt8.toNat_ofNat']
    omega

/-- A word of `k` bytes holds a number up to its multiples of `256 ^ k`. -/
theorem leNat_leBytes_mod : ∀ k v, leNat (leBytes k v) = v % 256 ^ k
  | 0, v => by
    rw [Nat.pow_zero, Nat.mod_one]
    rfl
  | k + 1, v => by
    have hbyte : (UInt8.ofNat v).toNat = v % 256 := UInt8.toNat_ofNat'
    rw [leBytes, leNat, leNat_leBytes_mod k, hbyte, Nat.pow_succ', Nat.mod_mul]

theorem leBytes_leNat : ∀ bs, leBytes bs.length (leNat bs) = bs
  | [] => rfl
  | b :: bs => by
    have hb := b.toNat_lt
    have hmod : (b.toNat + 256 * leNat bs) % 2 ^ 8 = b.toNat := by omega
    have hdiv : (b.toNat + 256 * leNat bs) / 256 = leNat bs := by omega
    have hbyte : UInt8.ofNat (b.toNat + 256 * leNat bs) = b := by
      rw [← UInt8.toNat_inj, UInt8.toNat_ofNat', hmod]
    rw [List.length_cons, leNat, leBytes, hbyte, hdiv, leBytes_leNat bs]

/-- How a reader ends without a result: with an error of its own, or by a read out of bounds. -/
inductive Fault (ε : Type*)
  | err (e : ε)
  | panic
  deriving DecidableEq, Repr

/-- Kept from `dsimp`, so that a reader's run is rewritten step by step and not evaluated. -/
theorem ok_bind {ε : Type*} {β γ : Type} (b : β) (f : β → Except ε γ) :
    (Except.ok b >>= f) = f b := by
  simp only [bind, Except.bind]

theorem bind_eq_ok {ε : Type*} {β γ : Type} {x : Except ε β} {f : β → Except ε γ} {c : γ} :
    (x >>= f) = .ok c ↔ ∃ b, x = .ok b ∧ f b = .ok c := by
  rcases x with e | b
  · simp [bind, Except.bind]
  · simp [bind, Except.bind]

/-- `bytes[off..off + n]`. -/
def slice {ε : Type*} (bytes : Bytes) (off n : ℕ) : Except (Fault ε) Bytes :=
  if off + n ≤ bytes.length then .ok ((bytes.drop off).take n) else .error .panic

/-- `bytes[off]`. -/
def byteAt {ε : Type*} (bytes : Bytes) (off : ℕ) : Except (Fault ε) UInt8 :=
  match bytes[off]? with
  | some b => .ok b
  | none => .error .panic

/-- `if c { return Err(e) }`. -/
def rejectIf {ε : Type*} (c : Prop) [Decidable c] (e : ε) : Except (Fault ε) Unit :=
  if c then .error (.err e) else .ok ()

/-- `u32::from_le_bytes(bytes[off..off + 4].try_into().unwrap()) as usize`. -/
def readU32 {ε : Type*} (bytes : Bytes) (off : ℕ) : Except (Fault ε) ℕ := do
  let b ← slice bytes off 4
  return leNat b

/-- `u64::from_le_bytes(bytes[off..off + 8].try_into().unwrap())`. -/
def readU64 {ε : Type*} (bytes : Bytes) (off : ℕ) : Except (Fault ε) UInt64 := do
  let b ← slice bytes off 8
  return UInt64.ofNat (leNat b)

/-- `u16::from_le_bytes(bytes[off..off + 2].try_into().unwrap())`. -/
def readU16 {ε : Type*} (bytes : Bytes) (off : ℕ) : Except (Fault ε) UInt16 := do
  let b ← slice bytes off 2
  return UInt16.ofNat (leNat b)

/-- `i32::from_le_bytes(bytes[off..off + 4].try_into().unwrap())`. -/
def readI32 {ε : Type*} (bytes : Bytes) (off : ℕ) : Except (Fault ε) Int32 := do
  let b ← slice bytes off 4
  return (UInt32.ofNat (leNat b)).toInt32

/-- `n` fields of `width` bytes each, from `off` on. -/
def readEach {ε : Type*} {β : Type} (read : ℕ → Except (Fault ε) β) (width : ℕ) :
    ℕ → ℕ → Except (Fault ε) (List β)
  | 0, _ => .ok []
  | n + 1, off => do
    let b ← read off
    let rest ← readEach read width n (off + width)
    return b :: rest

section At

variable {ε : Type*}

/-- `xs` stands in `bytes` at offset `off`. -/
def At (bytes : Bytes) (off : ℕ) (xs : Bytes) : Prop :=
  ∃ pre suf, bytes = pre ++ xs ++ suf ∧ pre.length = off

theorem At.le {bytes xs : Bytes} {off : ℕ} (h : At bytes off xs) :
    off + xs.length ≤ bytes.length := by
  obtain ⟨pre, suf, rfl, rfl⟩ := h
  simp only [List.length_append]
  omega

theorem At.of_eq {bytes xs : Bytes} (h : bytes = xs) : At bytes 0 xs := ⟨[], [], by simp [h], rfl⟩

theorem At.refl (bytes : Bytes) : At bytes 0 bytes := At.of_eq rfl

theorem At.left {bytes xs ys : Bytes} {off : ℕ} (h : At bytes off (xs ++ ys)) :
    At bytes off xs := by
  obtain ⟨pre, suf, rfl, rfl⟩ := h
  exact ⟨pre, ys ++ suf, by simp only [List.append_assoc], rfl⟩

theorem At.right {bytes xs ys : Bytes} {off : ℕ} (h : At bytes off (xs ++ ys)) :
    At bytes (off + xs.length) ys := by
  obtain ⟨pre, suf, rfl, rfl⟩ := h
  exact ⟨pre ++ xs, suf, by simp only [List.append_assoc], by simp⟩

theorem At.at_eq {bytes xs : Bytes} {off off' : ℕ} (h : At bytes off xs) (he : off = off') :
    At bytes off' xs := he ▸ h

/-- A byte, and what stands behind it. -/
theorem At.uncons {bytes xs : Bytes} {off : ℕ} {b : UInt8} (h : At bytes off (b :: xs)) :
    At bytes off [b] ∧ At bytes (off + 1) xs := by
  have h' : At bytes off ([b] ++ xs) := h
  exact ⟨h'.left, h'.right⟩

theorem take_drop_at {bytes xs : Bytes} {off n : ℕ} (h : At bytes off xs) (hn : xs.length = n) :
    (bytes.drop off).take n = xs := by
  obtain ⟨pre, suf, rfl, rfl⟩ := h
  rw [List.append_assoc, List.drop_left, List.take_left' hn]

/-- A field is read back where it stands. -/
theorem slice_at {bytes xs : Bytes} {off n : ℕ} (h : At bytes off xs) (hn : xs.length = n) :
    slice (ε := ε) bytes off n = .ok xs := by
  have hle := h.le
  rw [slice, if_pos (by omega), take_drop_at h hn]

theorem getD_at {bytes : Bytes} {off : ℕ} {b d : UInt8} (h : At bytes off [b]) :
    bytes.getD off d = b := by
  obtain ⟨pre, suf, rfl, rfl⟩ := h
  simp

theorem byteAt_at {bytes : Bytes} {off : ℕ} {b : UInt8} (h : At bytes off [b]) :
    byteAt (ε := ε) bytes off = .ok b := by
  obtain ⟨pre, suf, rfl, rfl⟩ := h
  simp [byteAt]

theorem rejectIf_of_not {c : Prop} [Decidable c] {e : ε} (h : ¬ c) : rejectIf c e = .ok () :=
  if_neg h

theorem rejectIf_eq_ok {c : Prop} [Decidable c] {e : ε} {u : Unit} :
    rejectIf c e = .ok u ↔ ¬ c := by
  unfold rejectIf
  split_ifs with h
  · simp [h]
  · simp [h]

theorem slice_eq_ok {bytes b : Bytes} {off n : ℕ} :
    slice (ε := ε) bytes off n = .ok b ↔ off + n ≤ bytes.length ∧ (bytes.drop off).take n = b := by
  unfold slice
  split_ifs with h
  · simp [h]
  · simp [h]

theorem readU32_lt {bytes : Bytes} {off v : ℕ} (h : readU32 (ε := ε) bytes off = .ok v) :
    v < 2 ^ 32 := by
  obtain ⟨b, hb, h⟩ := bind_eq_ok.1 h
  cases h
  obtain ⟨hle, rfl⟩ := slice_eq_ok.1 hb
  have hlt := leNat_lt ((bytes.drop off).take 4)
  rwa [List.length_take_of_le (by rw [List.length_drop]; omega)] at hlt

theorem readU32_at {bytes : Bytes} {off v : ℕ} (h : At bytes off (leBytes 4 v))
    (hv : v < 2 ^ 32) : readU32 (ε := ε) bytes off = .ok v := by
  rw [readU32, slice_at h (length_leBytes 4 v)]
  exact congrArg Except.ok (leNat_leBytes 4 v (by omega))

theorem readU64_at {bytes : Bytes} {off : ℕ} {v : UInt64} (h : At bytes off (leBytes 8 v.toNat)) :
    readU64 (ε := ε) bytes off = .ok v := by
  have hv := v.toNat_lt
  rw [readU64, slice_at h (length_leBytes 8 _)]
  refine congrArg Except.ok ?_
  rw [leNat_leBytes 8 _ (by omega), UInt64.ofNat_toNat]

theorem readU16_at {bytes : Bytes} {off : ℕ} {v : UInt16} (h : At bytes off (leBytes 2 v.toNat)) :
    readU16 (ε := ε) bytes off = .ok v := by
  have hv := v.toNat_lt
  rw [readU16, slice_at h (length_leBytes 2 _)]
  refine congrArg Except.ok ?_
  rw [leNat_leBytes 2 _ (by omega), UInt16.ofNat_toNat]

theorem readI32_at {bytes : Bytes} {off : ℕ} {v : Int32}
    (h : At bytes off (leBytes 4 v.toUInt32.toNat)) : readI32 (ε := ε) bytes off = .ok v := by
  have hv := v.toUInt32.toNat_lt
  rw [readI32, slice_at h (length_leBytes 4 _)]
  refine congrArg Except.ok ?_
  rw [leNat_leBytes 4 _ (by omega), UInt32.ofNat_toNat]
  rfl

/-- Fields of one width that stand behind each other are read back. -/
theorem readEach_at {β : Type} {bytes : Bytes} {read : ℕ → Except (Fault ε) β} {width : ℕ}
    {field : β → Bytes} (hlen : ∀ b, (field b).length = width)
    (hread : ∀ off b, At bytes off (field b) → read off = .ok b) : ∀ (bs : List β) (off : ℕ),
    At bytes off (bs.flatMap field) → readEach read width bs.length off = .ok bs
  | [], _, _ => rfl
  | b :: bs, off, hat => by
    rw [List.flatMap_cons] at hat
    have hrest := hat.right
    rw [hlen b] at hrest
    simp only [List.length_cons, readEach, hread off b hat.left, ok_bind,
      readEach_at hlen hread bs _ hrest]
    rfl

theorem At.append_right {bytes xs : Bytes} {off : ℕ} (h : At bytes off xs) (suf : Bytes) :
    At (bytes ++ suf) off xs := by
  obtain ⟨pre, suf', rfl, rfl⟩ := h
  exact ⟨pre, suf' ++ suf, by simp only [List.append_assoc], rfl⟩

theorem at_iff_drop {bytes xs : Bytes} {off : ℕ} (hoff : off ≤ bytes.length) :
    At bytes off xs ↔ ∃ rest, bytes.drop off = xs ++ rest := by
  constructor
  · rintro ⟨pre, suf, rfl, rfl⟩
    exact ⟨suf, by rw [List.append_assoc, List.drop_left]⟩
  · rintro ⟨rest, h⟩
    refine ⟨bytes.take off, rest, ?_, List.length_take_of_le hoff⟩
    rw [List.append_assoc, ← h, List.take_append_drop]

theorem At.append {bytes xs ys : Bytes} {off : ℕ} (h : At bytes off xs)
    (h' : At bytes (off + xs.length) ys) : At bytes off (xs ++ ys) := by
  have hle := h.le
  have hle' := h'.le
  obtain ⟨rest, hr⟩ := (at_iff_drop (by omega)).1 h
  obtain ⟨rest', hr'⟩ := (at_iff_drop (by omega)).1 h'
  refine (at_iff_drop (by omega)).2 ⟨rest', ?_⟩
  rw [← List.drop_drop, hr, List.drop_left] at hr'
  rw [hr, hr', List.append_assoc]

/-! ## What is read stands there -/

theorem at_of_slice {bytes b : Bytes} {off n : ℕ} (h : slice (ε := ε) bytes off n = .ok b) :
    At bytes off b ∧ b.length = n := by
  obtain ⟨hle, rfl⟩ := slice_eq_ok.1 h
  refine ⟨(at_iff_drop (by omega)).2 ⟨(bytes.drop off).drop n, ?_⟩, ?_⟩
  · rw [List.take_append_drop]
  · rw [List.length_take_of_le (by rw [List.length_drop]; omega)]

theorem at_of_byteAt {bytes : Bytes} {off : ℕ} {b : UInt8}
    (h : byteAt (ε := ε) bytes off = .ok b) : At bytes off [b] := by
  unfold byteAt at h
  rcases hb : bytes[off]? with _ | c
  · rw [hb] at h
    cases h
  · rw [hb] at h
    cases h
    obtain ⟨hlt, hc⟩ := List.getElem?_eq_some_iff.1 hb
    refine (at_iff_drop hlt.le).2 ⟨bytes.drop (off + 1), ?_⟩
    rw [List.drop_eq_getElem_cons hlt, hc]
    rfl

theorem at_of_readU32 {bytes : Bytes} {off v : ℕ} (h : readU32 (ε := ε) bytes off = .ok v) :
    At bytes off (leBytes 4 v) := by
  obtain ⟨b, hb, h⟩ := bind_eq_ok.1 h
  cases h
  obtain ⟨hat, hlen⟩ := at_of_slice hb
  rwa [← hlen, leBytes_leNat]

theorem at_of_readU64 {bytes : Bytes} {off : ℕ} {v : UInt64}
    (h : readU64 (ε := ε) bytes off = .ok v) : At bytes off (leBytes 8 v.toNat) := by
  obtain ⟨b, hb, h⟩ := bind_eq_ok.1 h
  cases h
  obtain ⟨hat, hlen⟩ := at_of_slice hb
  have hlt := leNat_lt b
  rw [hlen] at hlt
  rwa [UInt64.toNat_ofNat', Nat.mod_eq_of_lt (by omega), ← hlen, leBytes_leNat]

/-- What stands in front of a string and behind nothing is the string. -/
theorem At.eq_of_length {bytes xs : Bytes} (h : At bytes 0 xs) (hlen : bytes.length = xs.length) :
    bytes = xs := by
  obtain ⟨rest, hr⟩ := (at_iff_drop (Nat.zero_le _)).1 h
  rw [List.drop_zero] at hr
  have hrest : rest = [] := by
    rw [hr, List.length_append] at hlen
    exact List.eq_nil_of_length_eq_zero (by omega)
  rw [hr, hrest, List.append_nil]

/-! ## Readers that check before they read -/

variable {β γ : Type}

theorem bind_ne_panic {x : Except (Fault ε) β} {f : β → Except (Fault ε) γ}
    (hx : x ≠ .error .panic) (hf : ∀ b, x = .ok b → f b ≠ .error .panic) :
    (x >>= f) ≠ .error .panic := by
  rcases x with (e | _) | b
  · simp [bind, Except.bind]
  · exact absurd rfl hx
  · exact hf b rfl

theorem rejectIf_ne_panic {c : Prop} [Decidable c] {e : ε} : rejectIf c e ≠ .error .panic := by
  unfold rejectIf
  split_ifs <;> simp

theorem slice_ne_panic {bytes : Bytes} {off n : ℕ} (h : off + n ≤ bytes.length) :
    slice (ε := ε) bytes off n ≠ .error .panic := by
  rw [slice, if_pos h]
  simp

theorem byteAt_ne_panic {bytes : Bytes} {off : ℕ} (h : off < bytes.length) :
    byteAt (ε := ε) bytes off ≠ .error .panic := by
  rw [byteAt, List.getElem?_eq_getElem h]
  simp

theorem readU32_ne_panic {bytes : Bytes} {off : ℕ} (h : off + 4 ≤ bytes.length) :
    readU32 (ε := ε) bytes off ≠ .error .panic :=
  bind_ne_panic (slice_ne_panic h) fun _ _ => nofun

theorem readU64_ne_panic {bytes : Bytes} {off : ℕ} (h : off + 8 ≤ bytes.length) :
    readU64 (ε := ε) bytes off ≠ .error .panic :=
  bind_ne_panic (slice_ne_panic h) fun _ _ => nofun

theorem readU16_ne_panic {bytes : Bytes} {off : ℕ} (h : off + 2 ≤ bytes.length) :
    readU16 (ε := ε) bytes off ≠ .error .panic :=
  bind_ne_panic (slice_ne_panic h) fun _ _ => nofun

theorem readI32_ne_panic {bytes : Bytes} {off : ℕ} (h : off + 4 ≤ bytes.length) :
    readI32 (ε := ε) bytes off ≠ .error .panic :=
  bind_ne_panic (slice_ne_panic h) fun _ _ => nofun

end At

end Wire
