import KronMesh.Lib.Wire

/-!
# Slices and machine words

Offsets are words of 64 bits. A sum or a product that is no such word is a panic, and so is a range,
an index or a copy that does not fit its slice. `Agree` holds a reader on words against one on
numbers, whose offsets have no bound: the two end alike, and neither panics.
-/

namespace Wire

/-- No object of the language is larger than `isize::MAX` bytes. -/
structure Slice where
  bytes : Bytes
  fits : bytes.length < 2 ^ 63

section Words

variable {ε : Type*}

/-- `a + b`. -/
def addWord (a b : ℕ) : Except (Fault ε) ℕ :=
  if a + b < 2 ^ 64 then .ok (a + b) else .error .panic

/-- `a * b`. -/
def mulWord (a b : ℕ) : Except (Fault ε) ℕ :=
  if a * b < 2 ^ 64 then .ok (a * b) else .error .panic

namespace Slice

abbrev len (s : Slice) : ℕ := s.bytes.length

theorem length_range_le (bytes : Bytes) (a n : ℕ) :
    ((bytes.drop a).take n).length ≤ bytes.length := by
  rw [List.length_take, List.length_drop]
  omega

/-- `s[a..b]`. -/
def sub (s : Slice) (a b : ℕ) : Except (Fault ε) Slice :=
  if a ≤ b ∧ b ≤ s.len then
    .ok ⟨(s.bytes.drop a).take (b - a), (length_range_le s.bytes a _).trans_lt s.fits⟩
  else .error .panic

/-- `s[i]`. -/
def index (s : Slice) (i : ℕ) : Except (Fault ε) UInt8 := byteAt s.bytes i

/-- `s[a..b]` in an array of `k` bytes, by `copy_from_slice` or by `try_into().unwrap()`. -/
def array (s : Slice) (a b k : ℕ) : Except (Fault ε) Bytes := do
  let t ← s.sub a b
  if t.len = k then .ok t.bytes else .error .panic

/-- `s[off..off + n]`. -/
def span (s : Slice) (off n : ℕ) : Except (Fault ε) Slice := do
  let stop ← addWord off n
  s.sub off stop

/-- `s[off..off + k]` in an array of `k` bytes. -/
def field (s : Slice) (off k : ℕ) : Except (Fault ε) Bytes := do
  let stop ← addWord off k
  s.array off stop k

/-- `u32::from_le_bytes(s[off..off + 4].try_into().unwrap()) as usize`. -/
def u32 (s : Slice) (off : ℕ) : Except (Fault ε) ℕ := do
  let b ← s.field off 4
  return leNat b

/-- `u64::from_le_bytes(s[off..off + 8].try_into().unwrap())`. -/
def u64 (s : Slice) (off : ℕ) : Except (Fault ε) UInt64 := do
  let b ← s.field off 8
  return UInt64.ofNat (leNat b)

/-- `u16::from_le_bytes(s[off..off + 2].try_into().unwrap())`. -/
def u16 (s : Slice) (off : ℕ) : Except (Fault ε) UInt16 := do
  let b ← s.field off 2
  return UInt16.ofNat (leNat b)

/-- `i32::from_le_bytes(s[off..off + 4].try_into().unwrap())`. -/
def i32 (s : Slice) (off : ℕ) : Except (Fault ε) Int32 := do
  let b ← s.field off 4
  return (UInt32.ofNat (leNat b)).toInt32

end Slice

/-- `n` fields of `width` bytes each from `off` on, and where they end. -/
def eachWord {β : Type} (read : ℕ → Except (Fault ε) β) (width : ℕ) :
    ℕ → ℕ → Except (Fault ε) (List β × ℕ)
  | 0, off => .ok ([], off)
  | n + 1, off => do
    let b ← read off
    let off ← addWord off width
    let (rest, off) ← eachWord read width n off
    return (b :: rest, off)

end Words

/-! ## Two readers that agree -/

/-- The two end alike and without a panic, and what they return is related by `R`. -/
inductive Agree {ε : Type*} {β γ : Type} (R : β → γ → Prop) :
    Except (Fault ε) β → Except (Fault ε) γ → Prop
  | ok {b : β} {c : γ} (h : R b c) : Agree R (.ok b) (.ok c)
  | err (e : ε) : Agree R (.error (.err e)) (.error (.err e))

section Agree

variable {ε : Type*} {β γ β' γ' : Type} {R : β → γ → Prop} {S : β' → γ' → Prop}
  {x : Except (Fault ε) β} {y : Except (Fault ε) γ}

theorem Agree.ne_panic (h : Agree R x y) : x ≠ .error .panic := by
  cases h
  · exact nofun
  · exact nofun

theorem Agree.bind (h : Agree R x y) {f : β → Except (Fault ε) β'} {g : γ → Except (Fault ε) γ'}
    (hf : ∀ b c, R b c → Agree S (f b) (g c)) : Agree S (x >>= f) (y >>= g) := by
  cases h with
  | ok h => exact hf _ _ h
  | err e => exact .err e

theorem Agree.map (h : Agree R x y) {f : β → β'} {g : γ → γ'} (hf : ∀ b c, R b c → S (f b) (g c)) :
    Agree S (x.map f) (y.map g) := by
  cases h with
  | ok h => exact .ok (hf _ _ h)
  | err e => exact .err e

/-- Readers that return the same are the same. -/
theorem Agree.eq {x y : Except (Fault ε) β} (h : Agree Eq x y) : x = y := by
  cases h with
  | ok h => rw [h]
  | err e => rfl

theorem Agree.refl {x : Except (Fault ε) β} (h : x ≠ .error .panic) : Agree Eq x x := by
  rcases x with (e | _) | b
  · exact .err e
  · exact absurd rfl h
  · exact .ok rfl

/-! ### Steps on words alone -/

theorem Agree.add {a b : ℕ} (h : a + b < 2 ^ 64) {f : ℕ → Except (Fault ε) β}
    (hf : Agree R (f (a + b)) y) : Agree R (addWord a b >>= f) y := by
  rw [addWord, if_pos h]
  exact hf

theorem Agree.mul {a b : ℕ} (h : a * b < 2 ^ 64) {f : ℕ → Except (Fault ε) β}
    (hf : Agree R (f (a * b)) y) : Agree R (mulWord a b >>= f) y := by
  rw [mulWord, if_pos h]
  exact hf

/-! ### Steps on either side -/

variable {s : Slice} {off n : ℕ}

theorem Agree.rejectIf {c d : Prop} [Decidable c] [Decidable d] {e : ε} (hcd : c ↔ d)
    {f : Unit → Except (Fault ε) β} {g : Unit → Except (Fault ε) γ}
    (hf : ¬ d → Agree R (f ()) (g ())) :
    Agree R (Wire.rejectIf c e >>= f) (Wire.rejectIf d e >>= g) := by
  by_cases hd : d
  · rw [Wire.rejectIf, Wire.rejectIf, if_pos hd, if_pos (hcd.2 hd)]
    exact .err e
  · rw [rejectIf_of_not hd, rejectIf_of_not (mt hcd.1 hd)]
    exact hf hd

/-- The bound that a reader checks before it reads. -/
theorem Agree.check {k : ℕ} {e : ε} {f : Unit → Except (Fault ε) β}
    {g : Unit → Except (Fault ε) γ} (hf : k ≤ s.bytes.length → Agree R (f ()) (g ())) :
    Agree R (Wire.rejectIf (s.len < k) e >>= f) (Wire.rejectIf (s.bytes.length < k) e >>= g) :=
  .rejectIf Iff.rfl fun h => hf (not_lt.1 h)

/-- Where the two sides run the same reader. -/
theorem Agree.same {z : Except (Fault ε) β'} {f : β' → Except (Fault ε) β}
    {g : β' → Except (Fault ε) γ} (hz : z ≠ .error .panic)
    (hf : ∀ b, z = .ok b → Agree R (f b) (g b)) : Agree R (z >>= f) (z >>= g) := by
  rcases z with (e | _) | b
  · exact .err e
  · exact absurd rfl hz
  · exact hf b rfl

theorem Agree.sub (h : off + n ≤ s.bytes.length) {f : Slice → Except (Fault ε) β}
    {g : Bytes → Except (Fault ε) γ}
    (hf : ∀ t : Slice, t.bytes.length = n → Agree R (f t) (g t.bytes)) :
    Agree R (s.sub off (off + n) >>= f) (slice s.bytes off n >>= g) := by
  have hlen : ((s.bytes.drop off).take n).length = n := by
    rw [List.length_take, List.length_drop]
    omega
  rw [Slice.sub, if_pos ⟨Nat.le_add_right .., h⟩, slice, if_pos h]
  simp only [Nat.add_sub_cancel_left]
  exact hf ⟨(s.bytes.drop off).take n, _⟩ hlen

theorem Agree.span (h : off + n ≤ s.bytes.length) {f : Slice → Except (Fault ε) β}
    {g : Bytes → Except (Fault ε) γ}
    (hf : ∀ t : Slice, t.bytes.length = n → Agree R (f t) (g t.bytes)) :
    Agree R (s.span off n >>= f) (slice s.bytes off n >>= g) := by
  have hs := s.fits
  rw [Slice.span, addWord, if_pos (by omega), ok_bind]
  exact .sub h hf

/-- `s[off..]`. -/
theorem Agree.tail (h : off ≤ s.bytes.length) {f : Slice → Except (Fault ε) β}
    {g : Bytes → Except (Fault ε) γ}
    (hf : ∀ t : Slice, off + t.bytes.length = s.bytes.length → Agree R (f t) (g t.bytes)) :
    Agree R (s.sub off s.len >>= f) (slice s.bytes off (s.bytes.length - off) >>= g) := by
  have hlen : s.len = off + (s.bytes.length - off) := (Nat.add_sub_of_le h).symm
  rw [hlen]
  exact .sub (Nat.add_sub_of_le h).le fun t ht => hf t (ht ▸ Nat.add_sub_of_le h)

theorem Slice.array_eq (h : off + n ≤ s.bytes.length) :
    s.array (ε := ε) off (off + n) n = slice s.bytes off n := by
  rw [Slice.array, ← bind_pure (slice s.bytes off n)]
  refine Agree.eq (.sub h fun t ht => ?_)
  rw [if_pos ht]
  exact .ok rfl

theorem Slice.field_eq (h : off + n ≤ s.bytes.length) :
    s.field (ε := ε) off n = slice s.bytes off n := by
  have hs := s.fits
  rw [Slice.field, addWord, if_pos (by omega), ok_bind, Slice.array_eq h]

theorem Agree.index (h : off < s.bytes.length) {f : UInt8 → Except (Fault ε) β}
    {g : UInt8 → Except (Fault ε) γ} (hf : ∀ b, Agree R (f b) (g b)) :
    Agree R (s.index off >>= f) (byteAt s.bytes off >>= g) :=
  .same (byteAt_ne_panic h) fun b _ => hf b

theorem Agree.field (h : off + n ≤ s.bytes.length) {f : Bytes → Except (Fault ε) β}
    {g : Bytes → Except (Fault ε) γ} (hf : ∀ b, Agree R (f b) (g b)) :
    Agree R (s.field off n >>= f) (slice s.bytes off n >>= g) := by
  rw [Slice.field_eq h]
  exact .same (slice_ne_panic h) fun b _ => hf b

theorem Agree.array (h : off + n ≤ s.bytes.length) {f : Bytes → Except (Fault ε) β}
    {g : Bytes → Except (Fault ε) γ} (hf : ∀ b, b.length = n → Agree R (f b) (g b)) :
    Agree R (s.array off (off + n) n >>= f) (slice s.bytes off n >>= g) := by
  rw [Slice.array_eq h]
  exact .same (slice_ne_panic h) fun b hb => hf b (at_of_slice hb).2

/-- A word that one side reads from an array. -/
theorem Agree.arrayU32 (h : off + 4 ≤ s.bytes.length) {f : Bytes → Except (Fault ε) β}
    {g : ℕ → Except (Fault ε) γ} (hf : ∀ b, Agree R (f b) (g (leNat b))) :
    Agree R (s.array off (off + 4) 4 >>= f) (readU32 s.bytes off >>= g) := by
  rw [readU32, bind_assoc]
  exact .array h fun b _ => hf b

theorem Agree.u32 (h : off + 4 ≤ s.bytes.length) {f : ℕ → Except (Fault ε) β}
    {g : ℕ → Except (Fault ε) γ} (hf : ∀ v, v < 2 ^ 32 → Agree R (f v) (g v)) :
    Agree R (s.u32 off >>= f) (readU32 s.bytes off >>= g) := by
  rw [Slice.u32, Slice.field_eq h]
  exact .same (readU32_ne_panic h) fun v hv => hf v (readU32_lt hv)

theorem Slice.u64_agree (h : off + 8 ≤ s.bytes.length) :
    Agree (ε := ε) Eq (s.u64 off) (readU64 s.bytes off) := by
  rw [Slice.u64, Slice.field_eq h]
  exact .refl (readU64_ne_panic h)

theorem Slice.u16_agree (h : off + 2 ≤ s.bytes.length) :
    Agree (ε := ε) Eq (s.u16 off) (readU16 s.bytes off) := by
  rw [Slice.u16, Slice.field_eq h]
  exact .refl (readU16_ne_panic h)

theorem Slice.i32_agree (h : off + 4 ≤ s.bytes.length) :
    Agree (ε := ε) Eq (s.i32 off) (readI32 s.bytes off) := by
  rw [Slice.i32, Slice.field_eq h]
  exact .refl (readI32_ne_panic h)

theorem Agree.u64 (h : off + 8 ≤ s.bytes.length) {f : UInt64 → Except (Fault ε) β}
    {g : UInt64 → Except (Fault ε) γ} (hf : ∀ v, Agree R (f v) (g v)) :
    Agree R (s.u64 off >>= f) (readU64 s.bytes off >>= g) :=
  (Slice.u64_agree h).bind fun v _ hv => hv ▸ hf v

theorem Agree.u16 (h : off + 2 ≤ s.bytes.length) {f : UInt16 → Except (Fault ε) β}
    {g : UInt16 → Except (Fault ε) γ} (hf : ∀ v, Agree R (f v) (g v)) :
    Agree R (s.u16 off >>= f) (readU16 s.bytes off >>= g) :=
  (Slice.u16_agree h).bind fun v _ hv => hv ▸ hf v

/-- A run of fields that all fit. -/
theorem eachWord_agree {read read' : ℕ → Except (Fault ε) β} {width : ℕ}
    (hread : ∀ off, off + width ≤ s.bytes.length → Agree Eq (read off) (read' off)) :
    ∀ n off, off + n * width ≤ s.bytes.length →
      Agree (fun p bs => p = (bs, off + n * width)) (eachWord read width n off)
        (readEach read' width n off)
  | 0, off, _ => .ok (by rw [Nat.zero_mul, Nat.add_zero])
  | n + 1, off, h => by
    have hs := s.fits
    have hn : (n + 1) * width = width + n * width := by ring
    refine (hread off (by omega)).bind fun b _ hb => hb ▸ .add (by omega) ?_
    refine (eachWord_agree hread n _ (by omega)).bind fun p bs hp => ?_
    subst hp
    exact .ok (by rw [hn, Nat.add_assoc])

end Agree

end Wire
