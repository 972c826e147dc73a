import Mathlib.Data.Int.ModEq
import Mathlib.Data.List.Forall2
import Mathlib.Tactic.Common

/-!
# The matrix-vector product

The product behind proof of useful work, on 64-bit words that wrap: the portable loop, and the fast
path that takes two lanes at a time and the odd entry alone. A load of two lanes that is not inside
its slice is undefined, so the fast path has a result only where every load is.
-/

namespace KronMesh

/-- The modulus shared with Dilithium. -/
def modulusQ : Int64 := 8380417

/-- `centered_mod`. -/
def centeredMod (x q : Int64) : Int64 :=
  let r := x % q
  let r := if r < 0 then r + q else r
  if q / 2 < r then r - q else r

/-! ## The two loops -/

/-- What `zip`, `wrapping_mul` and `sum` make of a row and the vector. -/
def scalarDot (row v : List Int64) : Int64 :=
  ((row.zip v).map fun p => p.1 * p.2).foldl (· + ·) 0

def matrixVecScalar (a : List (List Int64)) (v : List Int64) : List Int64 :=
  a.map fun row => centeredMod (scalarDot row v) modulusQ

/-- `vld1q_s64` at entry `i`: two lanes. -/
def vld1qS64 (s : List Int64) (i : ℕ) : Option (Int64 × Int64) := do
  let lane0 ← s[i]?
  let lane1 ← s[i + 1]?
  return (lane0, lane1)

/-- `while i + 2 <= n`: where the loop stops, and what it has summed. -/
def neonLanes (row v : List Int64) (n i : ℕ) (acc : Int64) : Option (ℕ × Int64) :=
  if i + 2 ≤ n then do
    let a ← vld1qS64 row i
    let b ← vld1qS64 v i
    neonLanes row v n (i + 2) (acc + a.1 * b.1 + a.2 * b.2)
  else some (i, acc)
termination_by n - i

/-- `while i < n`. -/
def neonTail (row v : List Int64) (n i : ℕ) (acc : Int64) : Option Int64 :=
  if i < n then do
    let x ← row[i]?
    let y ← v[i]?
    neonTail row v n (i + 1) (acc + x * y)
  else some acc
termination_by n - i

def neonDot (row v : List Int64) : Option Int64 := do
  let n := min row.length v.length
  let r ← neonLanes row v n 0 0
  neonTail row v n r.1 r.2

def matrixVecNeon (a : List (List Int64)) (v : List Int64) : Option (List Int64) :=
  a.mapM fun row => do
    let acc ← neonDot row v
    return centeredMod acc modulusQ

/-- `matrix_vec`, on an AArch64 host or on another. -/
def matrixVec (aarch64 : Bool) (a : List (List Int64)) (v : List Int64) : Option (List Int64) :=
  if aarch64 then matrixVecNeon a v else some (matrixVecScalar a v)

/-! ## The loops against the sum of what is left -/

/-- What is summed once the entries from `i` on are added to `acc`, one after the other. -/
def dotFrom (row v : List Int64) (i : ℕ) (acc : Int64) : Int64 :=
  (((row.zip v).drop i).map fun p => p.1 * p.2).foldl (· + ·) acc

theorem dotFrom_step {row v : List Int64} {i : ℕ} (h : i < min row.length v.length)
    (acc : Int64) :
    dotFrom row v i acc = dotFrom row v (i + 1) (acc + row[i] * v[i]) := by
  have hi : i < (row.zip v).length := by rwa [List.length_zip]
  rw [dotFrom, List.drop_eq_getElem_cons hi, List.map_cons, List.foldl_cons, List.getElem_zip]
  rfl

theorem dotFrom_end {row v : List Int64} {i : ℕ} (h : min row.length v.length ≤ i)
    (acc : Int64) : dotFrom row v i acc = acc := by
  rw [dotFrom, List.drop_eq_nil_of_le (by rwa [List.length_zip])]
  rfl

theorem scalarDot_eq_dotFrom (row v : List Int64) : scalarDot row v = dotFrom row v 0 0 := rfl

theorem vld1qS64_of_lt {s : List Int64} {i : ℕ} (h : i + 1 < s.length) :
    vld1qS64 s i = some (s[i], s[i + 1]) := by
  simp [vld1qS64, List.getElem?_eq_getElem h, List.getElem?_eq_getElem (show i < s.length by omega)]

/-- No load of the unrolled loop leaves its slice, and what it has summed where it stops is short
of the whole sum by the entries it has not read. -/
theorem neonLanes_spec (row v : List Int64) (i : ℕ) (acc : Int64) :
    ∃ r, neonLanes row v (min row.length v.length) i acc = some r
      ∧ dotFrom row v r.1 r.2 = dotFrom row v i acc := by
  fun_induction neonLanes row v (min row.length v.length) i acc with
  | case1 i acc h ih =>
    have hrow := vld1qS64_of_lt (s := row) (i := i) (by omega)
    have hv := vld1qS64_of_lt (s := v) (i := i) (by omega)
    obtain ⟨r, hr, hdot⟩ := ih (row[i], row[i + 1]) (v[i], v[i + 1])
    refine ⟨r, by simpa [hrow, hv] using hr, ?_⟩
    rw [hdot, dotFrom_step (by omega : i < _), dotFrom_step (by omega : i + 1 < _)]
  | case2 i acc h => exact ⟨(i, acc), rfl, rfl⟩

theorem neonTail_spec (row v : List Int64) (i : ℕ) (acc : Int64) :
    neonTail row v (min row.length v.length) i acc = some (dotFrom row v i acc) := by
  fun_induction neonTail row v (min row.length v.length) i acc with
  | case1 i acc h ih =>
    have hrow : row[i]? = some row[i] := List.getElem?_eq_getElem (by omega)
    have hv : v[i]? = some v[i] := List.getElem?_eq_getElem (by omega)
    rw [hrow, hv, dotFrom_step h]
    exact ih row[i] v[i]
  | case2 i acc h => rw [dotFrom_end (by omega)]

theorem neonDot_eq_scalarDot (row v : List Int64) :
    neonDot row v = some (scalarDot row v) := by
  obtain ⟨r, hr, hdot⟩ := neonLanes_spec row v 0 0
  rw [scalarDot_eq_dotFrom, ← hdot, ← neonTail_spec, neonDot, hr]
  rfl

theorem matrixVecNeon_eq_some (a : List (List Int64)) (v : List Int64) :
    matrixVecNeon a v = some (matrixVecScalar a v) := by
  unfold matrixVecNeon matrixVecScalar
  simp only [neonDot_eq_scalarDot]
  exact List.mapM_pure (m := Option)

/-! ## The entries -/

/-- The scalar product of the row and the vector, over the integers. -/
def dotInt (row v : List Int64) : ℤ := (List.zipWith (fun x y => x.toInt * y.toInt) row v).sum

theorem foldl_wrap (l : List (Int64 × Int64)) (acc : ℤ) :
    (l.map fun p => p.1 * p.2).foldl (· + ·) (Int64.ofInt acc)
      = Int64.ofInt (acc + (l.map fun p => p.1.toInt * p.2.toInt).sum) := by
  induction l generalizing acc with
  | nil => simp
  | cons p l ih =>
    have hstep : Int64.ofInt acc + p.1 * p.2 = Int64.ofInt (acc + p.1.toInt * p.2.toInt) := by
      simp
    rw [List.map_cons, List.foldl_cons, hstep, ih, List.map_cons, List.sum_cons, add_assoc]

/-- The wrapped sum of wrapped products is the integer product, wrapped once. -/
theorem scalarDot_eq_ofInt (row v : List Int64) :
    scalarDot row v = Int64.ofInt (dotInt row v) := by
  have h := foldl_wrap (row.zip v) 0
  rw [zero_add] at h
  rw [dotInt, ← List.map_uncurry_zip_eq_zipWith, scalarDot]
  exact h

/-- The entry is in the class of `x` modulo `Q`, the member of it that is nearest to zero. -/
structure Centered (x r : ℤ) : Prop where
  congr : r ≡ x [ZMOD modulusQ.toInt]
  lower : -((modulusQ.toInt - 1) / 2) ≤ r
  upper : r ≤ (modulusQ.toInt - 1) / 2

theorem modulusQ_toInt : modulusQ.toInt = 8380417 := by decide

theorem toInt_add_of_inRange {x y : Int64} (h : -2 ^ 63 ≤ x.toInt + y.toInt)
    (h' : x.toInt + y.toInt < 2 ^ 63) : (x + y).toInt = x.toInt + y.toInt := by
  rw [Int64.toInt_add, Int.bmod_eq_of_le (by omega) (by omega)]

theorem toInt_sub_of_inRange {x y : Int64} (h : -2 ^ 63 ≤ x.toInt - y.toInt)
    (h' : x.toInt - y.toInt < 2 ^ 63) : (x - y).toInt = x.toInt - y.toInt := by
  rw [Int64.toInt_sub, Int.bmod_eq_of_le (by omega) (by omega)]

/-- The remainder has the sign of `x`, and one modulus more makes it the residue. -/
theorem rem_nonneg (x : Int64) :
    (if x % modulusQ < 0 then x % modulusQ + modulusQ else x % modulusQ).toInt
      = x.toInt % 8380417 := by
  have hq := modulusQ_toInt
  have hrem : (x % modulusQ).toInt = x.toInt.tmod 8380417 := by rw [Int64.toInt_mod, hq]
  have hsum := Int.tmod_add_mul_tdiv x.toInt 8380417
  have hlt := Int.tmod_lt_of_pos x.toInt (show (0 : ℤ) < 8380417 by decide)
  have hgt := Int.lt_tmod_of_pos x.toInt (show (0 : ℤ) < 8380417 by decide)
  have hsign : x % modulusQ < 0 ↔ (x % modulusQ).toInt < 0 := by
    rw [Int64.lt_iff_toInt_lt, Int64.toInt_zero]
  split_ifs with h
  · rw [toInt_add_of_inRange (by omega) (by omega)]
    rw [hsign] at h
    omega
  · rw [hsign] at h
    omega

theorem centeredMod_toInt (x : Int64) :
    (centeredMod x modulusQ).toInt
      = if 4190208 < x.toInt % 8380417 then x.toInt % 8380417 - 8380417
        else x.toInt % 8380417 := by
  have hq := modulusQ_toInt
  have hhalf : (modulusQ / 2).toInt = 4190208 := by decide
  obtain ⟨r, hr⟩ : ∃ r, r = if x % modulusQ < 0 then x % modulusQ + modulusQ else x % modulusQ :=
    ⟨_, rfl⟩
  have hrem : r.toInt = x.toInt % 8380417 := hr ▸ rem_nonneg x
  have hval : centeredMod x modulusQ = if modulusQ / 2 < r then r - modulusQ else r := by
    rw [hr]
    rfl
  rw [hval, ← hrem]
  simp only [Int64.lt_iff_toInt_lt, hhalf]
  split_ifs
  · rw [toInt_sub_of_inRange (by omega) (by omega), hq]
  · rfl

theorem centeredMod_spec (x : Int64) : Centered x.toInt (centeredMod x modulusQ).toInt := by
  have hval := centeredMod_toInt x
  have hcases : (centeredMod x modulusQ).toInt = x.toInt % 8380417 - 8380417
      ∨ (centeredMod x modulusQ).toInt = x.toInt % 8380417 := by
    rw [hval]
    split_ifs
    · exact .inl rfl
    · exact .inr rfl
  constructor <;> rw [modulusQ_toInt]
  · unfold Int.ModEq
    omega
  · split_ifs at hval <;> omega
  · split_ifs at hval <;> omega

/-- What host the node runs on does not show. -/
theorem matrixVec_host (aarch64 : Bool) (a : List (List Int64)) (v : List Int64) :
    matrixVec aarch64 a v = some (matrixVecScalar a v) := by
  cases aarch64
  · rfl
  · exact matrixVecNeon_eq_some a v

/-- The two paths make the same product of any rows and any vector, on every host, and each of its
entries is the wrapped scalar product of its row, modulo `Q` and centred. -/
theorem matrixVec_centered (a : List (List Int64)) (v : List Int64) :
    matrixVecNeon a v = some (matrixVecScalar a v)
      ∧ (∀ aarch64, matrixVec aarch64 a v = some (matrixVecScalar a v))
      ∧ List.Forall₂ (fun row r => Centered (Int64.ofInt (dotInt row v)).toInt r.toInt)
          a (matrixVecScalar a v) := by
  refine ⟨matrixVecNeon_eq_some a v, fun aarch64 => matrixVec_host aarch64 a v, ?_⟩
  rw [matrixVecScalar, List.forall₂_map_right_iff, List.forall₂_same]
  intro row _
  rw [← scalarDot_eq_ofInt]
  exact centeredMod_spec _

end KronMesh
