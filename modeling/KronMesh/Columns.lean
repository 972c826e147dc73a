import KronMesh.Checksum
import KronMesh.Lib.Distance
import Mathlib.Data.List.Iterate
import Mathlib.Tactic.IntervalCases

/-!
# The five constants

The generator of the checksum is over the field of thirty-two elements, with `double` for the
multiplication by the element two. Any four of the 58 columns of the check are independent over it
(`independent_columns`). What the five constants decide is one evaluation (`apart_columns`).
-/

namespace KronMesh

/-! ## The field of thirty-two -/

/-- All six symbols times two. -/
def double (u : ℕ) : ℕ :=
  let top := (u >>> 4) &&& 0x2108421
  ((u &&& 0x1ef7bdef) <<< 1) ^^^ top ^^^ (top <<< 3)

/-- All six symbols of `u` times the symbol `v`. -/
def times (v u : ℕ) : ℕ := pick (List.iterate double u 5) v

theorem respectsXor_double : RespectsXor double := by
  intro a b
  unfold double
  simp only [Nat.and_xor_distrib_right, Nat.shiftLeft_xor_distrib, Nat.shiftRight_xor_distrib]
  ac_rfl

theorem double_lt (u : ℕ) : double u < 2 ^ 30 := by
  have htop : (u >>> 4) &&& 0x2108421 < 2 ^ 27 := Nat.and_le_right.trans_lt (by norm_num)
  have hlow : u &&& 0x1ef7bdef < 2 ^ 29 := Nat.and_le_right.trans_lt (by norm_num)
  unfold double
  simp only [Nat.shiftLeft_eq]
  refine Nat.xor_lt_two_pow (Nat.xor_lt_two_pow ?_ ?_) ?_ <;> omega

theorem iterate_double_lt {u : ℕ} (h : u < 2 ^ 30) : ∀ k, double^[k] u < 2 ^ 30
  | 0 => h
  | k + 1 => by
    rw [Function.iterate_succ_apply']
    exact double_lt _

/-- The thirty-one powers of two. -/
theorem double_order {u : ℕ} (h : u < 2 ^ 30) : double^[31] u = u :=
  (respectsXor_double.iterate 31).eq_of_eq_two_pow (g := id) (fun _ _ => rfl) (by decide +kernel) h

/-- Two is a root of `x ^ 5 + x ^ 3 + 1`. -/
theorem double_five {u : ℕ} (h : u < 2 ^ 30) : double^[5] u = double^[3] u ^^^ u :=
  (respectsXor_double.iterate 5).eq_of_eq_two_pow
    ((respectsXor_double.iterate 3).xor (g := id) fun _ _ => rfl) (by decide) h

theorem double_shiftRight {u : ℕ} (h : u < 2 ^ 30) : double u >>> 5 = double (u >>> 5) := by
  have hshift : RespectsXor fun u => u >>> 5 := fun _ _ => Nat.shiftRight_xor_distrib
  exact (hshift.comp respectsXor_double).eq_of_eq_two_pow (respectsXor_double.comp hshift)
    (by decide) h

theorem shiftStep_double {u : ℕ} (h : u < 2 ^ 30) : shiftStep (double u) = double (shiftStep u) :=
  (respectsXor_shiftStep.comp respectsXor_double).eq_of_eq_two_pow
    (respectsXor_double.comp respectsXor_shiftStep) (by decide) h

theorem pick_map_double : ∀ (gs : List ℕ) (v : ℕ), pick (gs.map double) v = double (pick gs v)
  | [], _ => respectsXor_double.zero.symm
  | g :: gs, v => by
    rw [List.map_cons, pick, pick, respectsXor_double, pick_map_double gs]
    split_ifs
    · rfl
    · rw [respectsXor_double.zero]

theorem times_double_right (v u : ℕ) : times v (double u) = double (times v u) :=
  pick_map_double (List.iterate double u 5) v

theorem times_double_left {v u : ℕ} (hv : v < 2 ^ 5) (hu : u < 2 ^ 30) :
    times (double v) u = double (times v u) := by
  have hpick := respectsXor_pick (List.iterate double u 5)
  refine (hpick.comp respectsXor_double).eq_of_eq_two_pow (respectsXor_double.comp hpick) ?_ hv
  intro i hi
  -- the first four bits move up, and the fifth is what the equation of the field makes of it
  have h1 : double 1 = 2 := by decide
  have h2 : double 2 = 4 := by decide
  have h4 : double 4 = 8 := by decide
  have h8 : double 8 = 16 := by decide
  have h16 : double 16 = 9 := by decide
  have hfive := double_five hu
  simp only [Function.iterate_succ_apply, Function.iterate_zero_apply] at hfive
  interval_cases i <;> simp [h1, h2, h4, h8, h16, List.iterate, pick]
  rw [hfive, Nat.xor_comm]

theorem times_lt {u : ℕ} (v : ℕ) (h : u < 2 ^ 30) : times v u < 2 ^ 30 := by
  refine pick_lt v fun g hg => ?_
  obtain ⟨k, -, rfl⟩ := List.mem_iterate.1 hg
  exact iterate_double_lt h k

/-! ## Multiples of one another -/

/-- One over each symbol, by `double` as multiplication. -/
def inverses : List ℕ :=
  [0, 1, 20, 24, 10, 8, 12, 29, 5, 11, 4, 9, 6, 28, 26, 31,
    22, 18, 17, 23, 2, 25, 16, 19, 3, 21, 14, 30, 13, 7, 27, 15]

/-- Where the first symbol other than zero stands. -/
def place (u : ℕ) : ℕ := u.log2 / 5

/-- The multiple whose first symbol is one. -/
def normal (u : ℕ) : ℕ := times (inverses.getD (u >>> (5 * place u)) 0) u

theorem normal_lt {u : ℕ} (h : u < 2 ^ 30) : normal u < 2 ^ 30 := times_lt _ h

theorem double_shiftRight_mul {u : ℕ} (h : u < 2 ^ 30) : ∀ j,
    double u >>> (5 * j) = double (u >>> (5 * j))
  | 0 => rfl
  | j + 1 => by
    have hlt : u >>> (5 * j) < 2 ^ 30 := (Nat.shiftRight_le u (5 * j)).trans_lt h
    rw [Nat.mul_succ, Nat.shiftRight_add, Nat.shiftRight_add, double_shiftRight_mul h j,
      double_shiftRight hlt]

theorem place_eq {u j : ℕ} (h0 : u >>> (5 * j) ≠ 0) (hlt : u >>> (5 * j) < 2 ^ 5) :
    place u = j := by
  rw [Nat.shiftRight_eq_div_pow] at h0 hlt
  have hlow : 2 ^ (5 * j) ≤ u := by
    by_contra hu
    exact h0 (Nat.div_eq_of_lt (Nat.lt_of_not_le hu))
  have hhigh : u < 2 ^ (5 * j + 5) := by
    rw [Nat.pow_add, Nat.mul_comm]
    exact (Nat.div_lt_iff_lt_mul (Nat.two_pow_pos _)).1 hlt
  have hu : u ≠ 0 := (lt_of_lt_of_le (Nat.two_pow_pos _) hlow).ne'
  have h1 : 5 * j ≤ u.log2 := (Nat.le_log2 hu).2 hlow
  have h2 : u.log2 < 5 * j + 5 := (Nat.log2_lt hu).2 hhigh
  unfold place
  omega

theorem shiftRight_place {u : ℕ} (h : u ≠ 0) :
    u >>> (5 * place u) ≠ 0 ∧ u >>> (5 * place u) < 2 ^ 5 := by
  have hlow : 2 ^ u.log2 ≤ u := Nat.log2_self_le h
  have hhigh : u < 2 ^ (u.log2 + 1) := Nat.lt_log2_self
  rw [Nat.shiftRight_eq_div_pow]
  constructor
  · refine (Nat.div_pos ((Nat.pow_le_pow_right (by decide) ?_).trans hlow) (Nat.two_pow_pos _)).ne'
    unfold place
    omega
  · rw [Nat.div_lt_iff_lt_mul (Nat.two_pow_pos _), ← Nat.pow_add]
    refine hhigh.trans_le (Nat.pow_le_pow_right (by decide) ?_)
    unfold place
    omega

/-- Multiples of one another have one normal form. -/
theorem normal_double {u : ℕ} (h0 : u ≠ 0) (h : u < 2 ^ 30) : normal (double u) = normal u := by
  obtain ⟨hne, hlt⟩ := shiftRight_place h0
  have hfield : ∀ t < 2 ^ 5, t ≠ 0 → double t ≠ 0 ∧ double t < 2 ^ 5
      ∧ inverses.getD (double t) 0 < 2 ^ 5
      ∧ double (inverses.getD (double t) 0) = inverses.getD t 0 := by
    decide
  obtain ⟨hne', hlt', hinv, hdouble⟩ := hfield _ hlt hne
  have hplace : place (double u) = place u := by
    refine place_eq ?_ ?_ <;> rw [double_shiftRight_mul h] <;> assumption
  rw [normal, hplace, double_shiftRight_mul h, times_double_right, ← times_double_left hinv h,
    hdouble, normal]

theorem normal_zero : normal 0 = 0 := by decide

theorem normal_one : normal 1 = 1 := by decide

theorem double_ne_zero {u : ℕ} (h0 : u ≠ 0) (h : u < 2 ^ 30) : double u ≠ 0 := by
  intro hd
  have horder := double_order h
  rw [Function.iterate_succ_apply, hd, (respectsXor_double.iterate 30).zero] at horder
  exact h0 horder.symm

theorem normal_iterate {u : ℕ} (h0 : u ≠ 0) (h : u < 2 ^ 30) : ∀ k, normal (double^[k] u) = normal u
  | 0 => rfl
  | k + 1 => by
    rw [Function.iterate_succ_apply, normal_iterate (double_ne_zero h0 h) (double_lt u) k,
      normal_double h0 h]

/-- Numbers with two normal forms have no multiple together. -/
theorem iterate_double_ne {u v : ℕ} (hu : u < 2 ^ 30) (hv : v < 2 ^ 30) (hu0 : normal u ≠ 0)
    (hv0 : normal v ≠ 0) (h : normal u ≠ normal v) (k l : ℕ) : double^[k] u ≠ double^[l] v := by
  intro he
  have hne : ∀ {w}, normal w ≠ 0 → w ≠ 0 := by
    rintro w hw rfl
    exact hw normal_zero
  apply h
  rw [← normal_iterate (hne hu0) hu k, he, normal_iterate (hne hv0) hv]

/-! ## What drops a column -/

/-- Drops the last symbol and, by a multiple of `w`, the one that `w` starts with. -/
def dropBy (w u : ℕ) : ℕ := (u ^^^ times ((u >>> (5 * place w)) &&& 31) w) >>> 5

theorem respectsXor_dropBy (w : ℕ) : RespectsXor (dropBy w) := by
  intro a b
  have hshift : (a ^^^ b) >>> (5 * place w) = a >>> (5 * place w) ^^^ b >>> (5 * place w) :=
    Nat.shiftRight_xor_distrib
  unfold dropBy times
  rw [hshift, Nat.and_xor_distrib_right, respectsXor_pick, ← Nat.shiftRight_xor_distrib]
  refine congrArg (· >>> 5) ?_
  ac_rfl

theorem dropBy_lt {w u : ℕ} (hw : w < 2 ^ 30) (hu : u < 2 ^ 30) : dropBy w u < 2 ^ 30 :=
  (Nat.shiftRight_le _ 5).trans_lt (Nat.xor_lt_two_pow hu (times_lt _ hw))

theorem dropBy_double {w u : ℕ} (hw : w < 2 ^ 30) (hu : u < 2 ^ 30) :
    dropBy w (double u) = double (dropBy w u) := by
  have hmask : RespectsXor fun a => a &&& 31 := fun _ _ => Nat.and_xor_distrib_right
  have hlow : ∀ {a}, a < 2 ^ 30 → double a &&& 31 = double (a &&& 31) :=
    (hmask.comp respectsXor_double).eq_of_eq_two_pow (respectsXor_double.comp hmask)
      (by decide)
  have hsymbol : (u >>> (5 * place w)) &&& 31 < 2 ^ 5 := Nat.and_le_right.trans_lt (by decide)
  rw [dropBy, double_shiftRight_mul hu, hlow ((Nat.shiftRight_le _ _).trans_lt hu),
    times_double_left hsymbol hw, ← respectsXor_double,
    double_shiftRight (Nat.xor_lt_two_pow hu (times_lt _ hw)), dropBy]

def distinct : List ℕ → Bool
  | [] => true
  | x :: xs => !xs.any (Nat.beq x) && distinct xs

theorem nodup_of_distinct : ∀ {xs : List ℕ}, distinct xs = true → xs.Nodup
  | [], _ => List.nodup_nil
  | x :: xs, h => by
    rw [distinct, Bool.and_eq_true, Bool.not_eq_true', List.any_eq_false] at h
    exact List.nodup_cons.2 ⟨fun hx => h.1 x hx (Nat.beq_refl x), nodup_of_distinct h.2⟩

/-- Dropped are `x` and one, and of the columns behind no two become multiples of each other. -/
def separates (x : ℕ) (rest : List ℕ) : Bool :=
  -- the match makes the kernel compute the form once
  match normal x with
  | 0 => false
  | w + 1 => w != 0 && dropBy (w + 1) 1 == 0 && dropBy (w + 1) x == 0
      && distinct (0 :: rest.map fun y => normal (dropBy (w + 1) y))

theorem separates_spec {x : ℕ} {rest : List ℕ} (h : separates x rest = true) :
    normal x ≠ 0 ∧ normal x ≠ 1 ∧ dropBy (normal x) 1 = 0 ∧ dropBy (normal x) x = 0
      ∧ (0 :: rest.map fun y => normal (dropBy (normal x) y)).Nodup := by
  unfold separates at h
  split at h
  · cases h
  · rename_i w hw
    simp only [Bool.and_eq_true, bne_iff_ne, beq_iff_eq] at h
    obtain ⟨⟨⟨hw0, hone⟩, hx⟩, hrest⟩ := h
    rw [hw]
    exact ⟨Nat.succ_ne_zero w, fun h => hw0 (Nat.succ.inj h), hone, hx, nodup_of_distinct hrest⟩

/-- Each of the columns from `x` on separates those behind it. -/
def apart : ℕ → ℕ → Bool
  | 0, _ => true
  | n + 1, x => separates x (List.iterate shiftStep (shiftStep x) n) && apart n (shiftStep x)

theorem apart_spec : ∀ {n x : ℕ}, apart n x = true → ∀ q < n,
    separates (shiftStep^[q] x) (List.iterate shiftStep (shiftStep^[q + 1] x) (n - 1 - q)) = true
  | n + 1, x, h, 0, _ => (Bool.and_eq_true_iff.1 h).1
  | n + 1, x, h, q + 1, hq => by
    have ih := apart_spec (Bool.and_eq_true_iff.1 h).2 q (Nat.lt_of_succ_lt_succ hq)
    rw [Function.iterate_succ_apply, Function.iterate_succ_apply shiftStep (q + 1)]
    rwa [show n + 1 - 1 - (q + 1) = n - 1 - q by omega]

set_option maxRecDepth 4000 in
/-- What the five constants decide. -/
theorem apart_columns : apart 57 (shiftStep 1) = true := by
  decide +kernel

/-! ## The columns -/

/-- The check in five bits for each of six symbols. -/
abbrev Held := XorVec 30

def shiftHom : AddMonoid.End Held := XorVec.lift shiftStep respectsXor_shiftStep

def doubleHom : AddMonoid.End Held := XorVec.lift double respectsXor_double

def dropHom (w : ℕ) : AddMonoid.End Held := XorVec.lift (dropBy w) (respectsXor_dropBy w)

theorem toNat_shiftHom (v : Held) : (shiftHom v).toNat = shiftStep v.toNat :=
  XorVec.toNat_lift (fun a _ => shiftStep_lt a) v

theorem toNat_doubleHom (v : Held) : (doubleHom v).toNat = double v.toNat :=
  XorVec.toNat_lift (fun a _ => double_lt a) v

theorem toNat_dropHom {w : ℕ} (hw : w < 2 ^ 30) (v : Held) :
    (dropHom w v).toNat = dropBy w v.toNat :=
  XorVec.toNat_lift (fun _ => dropBy_lt hw) v

/-- Nothing is lost while a symbol comes in: the constants tell the five bits that leave apart. -/
theorem shiftHom_injective : Function.Injective shiftHom := by
  refine (injective_iff_map_eq_zero _).2 fun v hv => ?_
  have hzero : shiftStep v.toNat = 0 := by rw [← toNat_shiftHom, hv, XorVec.toNat_zero]
  have htop : v.toNat >>> 25 < 32 := by
    rw [Nat.shiftRight_eq_div_pow]
    exact Nat.div_lt_of_lt_mul v.toNat_lt
  have hleave : ∀ b < 32, pick (gen.map BitVec.toNat) b % 2 ^ 5 = 0 → b = 0 := by decide
  have hlow : v.toNat >>> 25 = 0 := by
    refine hleave _ htop ?_
    have hmod := congrArg (· % 2 ^ 5) hzero
    simp only [shiftStep] at hmod
    rwa [Nat.xor_mod_two_pow, Nat.shiftLeft_eq, Nat.mul_mod_left, Nat.zero_xor] at hmod
  have hlt : v.toNat < 2 ^ 25 := by
    rw [Nat.shiftRight_eq_div_pow] at hlow
    exact (Nat.div_eq_zero_iff_lt (by norm_num)).1 hlow
  rw [shiftStep_of_lt hlt] at hzero
  rw [← XorVec.toNat_inj, XorVec.toNat_zero]
  omega

theorem doubleHom_injective : Function.Injective doubleHom := by
  refine (injective_iff_map_eq_zero _).2 fun v hv => ?_
  by_contra hne
  have h0 : v.toNat ≠ 0 := fun h => hne (XorVec.toNat_inj.1 (h.trans XorVec.toNat_zero.symm))
  refine double_ne_zero h0 v.toNat_lt ?_
  rw [← toNat_doubleHom, hv, XorVec.toNat_zero]

/-- The multiples of one: the symbols. -/
def symbolSet : Set Held := {v | v = 0 ∨ ∃ k, v = (doubleHom ^ k) (XorVec.ofNat 30 1)}

/-- What a symbol of one leaves when `q` zeros have followed. -/
def column (q : ℕ) : ℕ := shiftStep^[q] 1

/-- Drops the first column and this one. -/
def columnDrop (q : ℕ) : AddMonoid.End Held := dropHom (normal (column q))

theorem toNat_column (q : ℕ) : ((shiftHom ^ q) (XorVec.ofNat 30 1)).toNat = column q := by
  rw [XorVec.toNat_pow toNat_shiftHom, XorVec.toNat_ofNat (by norm_num), column]

theorem column_lt (q : ℕ) : column q < 2 ^ 30 := toNat_column q ▸ XorVec.toNat_lt _

theorem toNat_columnDrop (q : ℕ) (v : Held) :
    (columnDrop q v).toNat = dropBy (normal (column q)) v.toNat :=
  toNat_dropHom (normal_lt (column_lt q)) v

theorem column_spec {q : ℕ} (h0 : 0 < q) (hq : q < 58) :
    normal (column q) ≠ 0 ∧ normal (column q) ≠ 1 ∧ dropBy (normal (column q)) 1 = 0
      ∧ dropBy (normal (column q)) (column q) = 0
      ∧ (∀ r, q < r → r < 58 → normal (dropBy (normal (column q)) (column r)) ≠ 0)
      ∧ ∀ r s, q < r → r < s → s < 58 → normal (dropBy (normal (column q)) (column r))
        ≠ normal (dropBy (normal (column q)) (column s)) := by
  obtain ⟨k, rfl⟩ := Nat.exists_eq_succ_of_ne_zero h0.ne'
  obtain ⟨hne, hne1, hone, hself, hnodup⟩ :=
    separates_spec (apart_spec apart_columns k (Nat.lt_of_succ_lt_succ hq))
  refine ⟨hne, hne1, hone, hself, ?_⟩
  rw [List.nodup_cons, ← List.range_map_iterate, List.map_map, List.mem_map,
    List.nodup_map_iff_inj_on List.nodup_range] at hnodup
  obtain ⟨hzero, hinj⟩ := hnodup
  have hcolumn : ∀ r, k + 1 < r → shiftStep^[r - (k + 2)] (shiftStep^[k + 1] (shiftStep 1))
      = column r := by
    intro r hr
    rw [← Function.iterate_succ_apply shiftStep (k + 1), ← Function.iterate_add_apply, column]
    congr 2
    omega
  have hmem : ∀ r, k + 1 < r → r < 58 → r - (k + 2) ∈ List.range (57 - 1 - k) :=
    fun r h h' => List.mem_range.2 (by omega)
  constructor
  · intro r h h' hr
    refine hzero ⟨_, hmem r h h', ?_⟩
    rw [Function.comp_apply, hcolumn r h]
    exact hr
  · intro r s hr hrs hs he
    have hsame := hinj _ (hmem r hr (hrs.trans hs)) _ (hmem s (hr.trans hrs) hs) (by
      rw [Function.comp_apply, Function.comp_apply, hcolumn r hr, hcolumn s (hr.trans hrs)]
      exact he)
    omega

theorem commute_shiftHom : Commute shiftHom doubleHom := by
  refine AddMonoidHom.ext fun v => XorVec.toNat_inj.1 ?_
  change (shiftHom (doubleHom v)).toNat = (doubleHom (shiftHom v)).toNat
  rw [toNat_shiftHom, toNat_doubleHom, toNat_doubleHom, toNat_shiftHom, shiftStep_double v.toNat_lt]

theorem commute_columnDrop (q : ℕ) : Commute (columnDrop q) doubleHom := by
  refine AddMonoidHom.ext fun v => XorVec.toNat_inj.1 ?_
  change (columnDrop q (doubleHom v)).toNat = (doubleHom (columnDrop q v)).toNat
  rw [toNat_columnDrop, toNat_doubleHom, toNat_doubleHom, toNat_columnDrop,
    dropBy_double (normal_lt (column_lt q)) v.toNat_lt]

/-- Columns with two normal forms have no multiple in common. -/
theorem pow_add_pow_ne_zero {v w : Held} (hv : normal v.toNat ≠ 0) (hw : normal w.toNat ≠ 0)
    (hne : normal v.toNat ≠ normal w.toNat) (k l : ℕ) :
    (doubleHom ^ k) v + (doubleHom ^ l) w ≠ 0 := by
  intro hsum
  have heq := congrArg XorVec.toNat (XorVec.add_eq_zero_iff.1 hsum)
  rw [XorVec.toNat_pow toNat_doubleHom, XorVec.toNat_pow toNat_doubleHom] at heq
  exact iterate_double_ne v.toNat_lt w.toNat_lt hv hw hne k l heq

theorem toNat_columnDrop_pow (q r : ℕ) :
    (columnDrop q ((shiftHom ^ r) (XorVec.ofNat 30 1))).toNat
      = dropBy (normal (column q)) (column r) := by
  rw [toNat_columnDrop, toNat_column]

theorem independent_columns : Syndrome.Independent shiftHom symbolSet 58 := by
  have honeNat : (XorVec.ofNat 30 1).toNat = 1 := XorVec.toNat_ofNat (by norm_num)
  have hone : XorVec.ofNat 30 1 ≠ 0 := by decide
  have hfirst : ∀ q, 0 < q → q < 58 → columnDrop q (XorVec.ofNat 30 1) = 0 := by
    intro q h hq
    obtain ⟨-, -, hdrop, -⟩ := column_spec h hq
    rw [← XorVec.toNat_inj, toNat_columnDrop, honeNat, hdrop, XorVec.toNat_zero]
  have hself : ∀ q, 0 < q → q < 58 → columnDrop q ((shiftHom ^ q) (XorVec.ofNat 30 1)) = 0 := by
    intro q h hq
    obtain ⟨-, -, -, hdrop, -⟩ := column_spec h hq
    rw [← XorVec.toNat_inj, toNat_columnDrop_pow, hdrop, XorVec.toNat_zero]
  have hpair : ∀ q, 0 < q → q < 58 → ∀ k l, (doubleHom ^ k) (XorVec.ofNat 30 1)
      + (doubleHom ^ l) ((shiftHom ^ q) (XorVec.ofNat 30 1)) ≠ 0 := by
    intro q h hq
    obtain ⟨hne, hne1, -⟩ := column_spec h hq
    refine pow_add_pow_ne_zero ?_ ?_ ?_
    · rw [honeNat, normal_one]
      decide
    · rw [toNat_column]
      exact hne
    · rw [honeNat, normal_one, toNat_column]
      exact hne1.symm
  have hnone : ∀ q r, 0 < q → q < r → r < 58 →
      columnDrop q ((shiftHom ^ r) (XorVec.ofNat 30 1)) ≠ 0 := by
    intro q r h hqr hr he
    obtain ⟨-, -, -, -, hzero, -⟩ := column_spec h (hqr.trans hr)
    refine hzero r hqr hr ?_
    rw [← toNat_columnDrop_pow, he, XorVec.toNat_zero, normal_zero]
  have htwo : ∀ q r s, 0 < q → q < r → r < s → s < 58 → ∀ k l,
      (doubleHom ^ k) (columnDrop q ((shiftHom ^ r) (XorVec.ofNat 30 1)))
        + (doubleHom ^ l) (columnDrop q ((shiftHom ^ s) (XorVec.ofNat 30 1))) ≠ 0 := by
    intro q r s h hqr hrs hs
    obtain ⟨-, -, -, -, hzero, hdistinct⟩ := column_spec h (hqr.trans (hrs.trans hs))
    refine pow_add_pow_ne_zero ?_ ?_ ?_
    · rw [toNat_columnDrop_pow]
      exact hzero r hqr (hrs.trans hs)
    · rw [toNat_columnDrop_pow]
      exact hzero s (hqr.trans hrs) hs
    · rw [toNat_columnDrop_pow, toNat_columnDrop_pow]
      exact hdistinct r s hqr hrs hs
  exact Syndrome.independent_of_drops doubleHom_injective commute_shiftHom
    (fun q _ _ => commute_columnDrop q) hone shiftHom_injective hfirst hself hpair hnone htwo

end KronMesh
