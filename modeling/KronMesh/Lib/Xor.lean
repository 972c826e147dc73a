import Mathlib.Algebra.Group.Hom.End
import Mathlib.Algebra.Group.Hom.Defs
import Mathlib.Data.Nat.Bitwise
import Mathlib.Tactic.Common

/-!
# Words under exclusive or

A function on numbers that respects exclusive or is told by the powers of two
(`RespectsXor.eq_of_eq_two_pow`), so an identity of such functions is checked bit by bit. On the
words of `n` bits, with exclusive or for addition, it is an additive map (`XorVec.lift`).
-/

/-- Of two numbers, the function makes together what it makes of each. -/
def RespectsXor (f : ℕ → ℕ) : Prop := ∀ a b, f (a ^^^ b) = f a ^^^ f b

namespace RespectsXor

variable {f g : ℕ → ℕ}

theorem zero (hf : RespectsXor f) : f 0 = 0 := by
  have h := hf 0 0
  rwa [Nat.xor_self, Nat.xor_self] at h

theorem comp (hf : RespectsXor f) (hg : RespectsXor g) : RespectsXor fun a => f (g a) := by
  intro a b
  change f (g (a ^^^ b)) = _
  rw [hg, hf]

theorem iterate (hf : RespectsXor f) : ∀ k, RespectsXor f^[k]
  | 0, _, _ => rfl
  | k + 1, a, b => by
    rw [Function.iterate_succ_apply, hf, iterate hf k]
    rfl

theorem xor (hf : RespectsXor f) (hg : RespectsXor g) : RespectsXor fun a => f a ^^^ g a := by
  intro a b
  simp only [hf a b, hg a b]
  ac_rfl

/-- Below a power of two, the bits tell what the function is. -/
theorem eq_of_eq_two_pow (hf : RespectsXor f) (hg : RespectsXor g) : ∀ {k : ℕ},
    (∀ i < k, f (2 ^ i) = g (2 ^ i)) → ∀ {a : ℕ}, a < 2 ^ k → f a = g a
  | 0, _, a, ha => by
    obtain rfl : a = 0 := by simpa using ha
    rw [hf.zero, hg.zero]
  | k + 1, h, a, ha => by
    have ih : ∀ {a : ℕ}, a < 2 ^ k → f a = g a :=
      eq_of_eq_two_pow hf hg fun i hi => h i (hi.trans (Nat.lt_succ_self k))
    by_cases hak : a < 2 ^ k
    · exact ih hak
    · have hbit : a.testBit k = true := by
        rw [Nat.testBit_eq_decide_div_mod_eq, decide_eq_true_eq]
        have hdiv : a / 2 ^ k = 1 := by
          refine Nat.div_eq_of_lt_le (by omega) ?_
          rw [Nat.mul_comm, ← Nat.pow_succ]
          exact ha
        rw [hdiv]
      have hlow : a ^^^ 2 ^ k < 2 ^ k := by
        refine Nat.lt_pow_two_of_testBit _ fun i hi => ?_
        rw [Nat.testBit_xor, Nat.testBit_two_pow]
        rcases hi.eq_or_lt with rfl | hi
        · simp [hbit]
        · rw [Nat.testBit_lt_two_pow (ha.trans_le (Nat.pow_le_pow_right (by omega) hi))]
          simp [hi.ne]
      have hsplit : a = (a ^^^ 2 ^ k) ^^^ 2 ^ k := by
        rw [Nat.xor_assoc, Nat.xor_self, Nat.xor_zero]
      rw [hsplit, hf, hg, ih hlow, h k (Nat.lt_succ_self k)]

end RespectsXor

/-- A word of `n` bits. -/
@[ext] structure XorVec (n : ℕ) where
  bits : BitVec n
  deriving DecidableEq

namespace XorVec

variable {n m : ℕ}

/-- The word that these are the low bits of. -/
def ofNat (n a : ℕ) : XorVec n := ⟨BitVec.ofNat n a⟩

def toNat (v : XorVec n) : ℕ := v.bits.toNat

instance : Add (XorVec n) := ⟨fun v w => ⟨v.bits ^^^ w.bits⟩⟩

instance : Zero (XorVec n) := ⟨⟨0⟩⟩

instance : Neg (XorVec n) := ⟨id⟩

instance : AddCommGroup (XorVec n) where
  add_assoc _ _ _ := XorVec.ext (BitVec.xor_assoc _ _ _)
  add_comm _ _ := XorVec.ext (BitVec.xor_comm _ _)
  zero_add _ := XorVec.ext BitVec.zero_xor
  add_zero _ := XorVec.ext BitVec.xor_zero
  neg_add_cancel _ := XorVec.ext BitVec.xor_self
  nsmul := nsmulRec
  zsmul := zsmulRec

theorem toNat_lt (v : XorVec n) : v.toNat < 2 ^ n := v.bits.isLt

theorem toNat_inj {v w : XorVec n} : v.toNat = w.toNat ↔ v = w :=
  ⟨fun h => XorVec.ext (BitVec.eq_of_toNat_eq h), fun h => h ▸ rfl⟩

@[simp] theorem toNat_add (v w : XorVec n) : (v + w).toNat = v.toNat ^^^ w.toNat :=
  BitVec.toNat_xor _ _

@[simp] theorem toNat_zero : (0 : XorVec n).toNat = 0 := BitVec.toNat_ofNat 0 n

@[simp] theorem ofNat_toNat (v : XorVec n) : ofNat n v.toNat = v :=
  XorVec.ext ((BitVec.ofNat_toNat n v.bits).trans (BitVec.setWidth_eq v.bits))

theorem toNat_ofNat {a : ℕ} (h : a < 2 ^ n) : (ofNat n a).toNat = a :=
  (BitVec.toNat_ofNat a n).trans (Nat.mod_eq_of_lt h)

theorem ofNat_xor (a b : ℕ) : ofNat n (a ^^^ b) = ofNat n a + ofNat n b :=
  XorVec.ext BitVec.ofNat_xor

@[simp] theorem ofNat_zero : ofNat n 0 = 0 := rfl

theorem add_eq_zero_iff {v w : XorVec n} : v + w = 0 ↔ v = w :=
  add_eq_zero_iff_eq_neg

/-- A function on numbers that respects exclusive or, on words. -/
def lift (f : ℕ → ℕ) (hf : RespectsXor f) : XorVec n →+ XorVec m where
  toFun v := ofNat m (f v.toNat)
  map_zero' := by rw [toNat_zero, hf.zero, ofNat_zero]
  map_add' v w := by rw [toNat_add, hf, ofNat_xor]

theorem lift_apply {f : ℕ → ℕ} {hf : RespectsXor f} (v : XorVec n) :
    (lift f hf : XorVec n →+ XorVec m) v = ofNat m (f v.toNat) := rfl

theorem toNat_lift {f : ℕ → ℕ} {hf : RespectsXor f} (h : ∀ a < 2 ^ n, f a < 2 ^ m) (v : XorVec n) :
    (lift f hf v : XorVec m).toNat = f v.toNat := by
  rw [lift_apply, toNat_ofNat (h _ v.toNat_lt)]

theorem toNat_pow {M : AddMonoid.End (XorVec n)} {f : ℕ → ℕ} (h : ∀ v, (M v).toNat = f v.toNat) :
    ∀ (k : ℕ) (v : XorVec n), ((M ^ k) v).toNat = f^[k] v.toNat
  | 0, _ => rfl
  | k + 1, v => by
    rw [pow_succ, Function.iterate_succ_apply, ← h, ← toNat_pow h k]
    rfl

end XorVec
