import KronMesh.Bech32Decode
import KronMesh.Lib.Xor

/-!
# The checksum

Taking in a symbol is a map that respects exclusive or, so what two words leave differs by what
their difference leaves, and the six symbols at the end are held as they are. The checksum is the
one ending that the check accepts (`verifyChecksum_iff`).
-/

namespace KronMesh

open Wire Groups

/-! ## On numbers -/

/-- Those of the numbers that stand at the bits of `b`, together. -/
def pick : List ℕ → ℕ → ℕ
  | [], _ => 0
  | g :: gs, b => (if b % 2 = 1 then g else 0) ^^^ pick gs (b / 2)

/-- What is held when a symbol of zeros has come in. -/
def shiftStep (chk : ℕ) : ℕ :=
  ((chk &&& 0x1ffffff) <<< 5) ^^^ pick (gen.map BitVec.toNat) (chk >>> 25)

/-- What is held when these symbols have come in. -/
def hold (chk : ℕ) (values : Bytes) : ℕ := values.foldl (fun chk v => shiftStep chk ^^^ v.toNat) chk

theorem pick_zero : ∀ gs : List ℕ, pick gs 0 = 0
  | [] => rfl
  | _ :: gs => by
    rw [pick, if_neg (by decide), Nat.zero_div, pick_zero gs, Nat.xor_self]

theorem respectsXor_pick : ∀ gs : List ℕ, RespectsXor (pick gs)
  | [], _, _ => (Nat.xor_self 0).symm
  | g :: gs, a, b => by
    have hbit : (if (a ^^^ b) % 2 = 1 then g else 0)
        = (if a % 2 = 1 then g else 0) ^^^ if b % 2 = 1 then g else 0 := by
      simp only [Nat.xor_mod_two_eq_one]
      by_cases ha : a % 2 = 1 <;> by_cases hb : b % 2 = 1
      · rw [if_pos ha, if_pos hb, if_neg (by simp [ha, hb]), Nat.xor_self]
      · rw [if_pos ha, if_neg hb, if_pos (by simp [ha, hb]), Nat.xor_zero]
      · rw [if_neg ha, if_pos hb, if_pos (by simp [ha, hb]), Nat.zero_xor]
      · rw [if_neg ha, if_neg hb, if_neg (by simp [ha, hb]), Nat.xor_self]
    rw [pick, pick, pick, hbit, Nat.xor_div_two, respectsXor_pick gs, Nat.xor_assoc, Nat.xor_assoc]
    refine congrArg _ ?_
    rw [← Nat.xor_assoc, ← Nat.xor_assoc, Nat.xor_comm (pick gs (a / 2))]

theorem pick_lt {n : ℕ} : ∀ {gs : List ℕ} (b : ℕ), (∀ g ∈ gs, g < 2 ^ n) → pick gs b < 2 ^ n
  | [], _, _ => Nat.two_pow_pos n
  | g :: gs, b, h => by
    obtain ⟨hg, hgs⟩ := List.forall_mem_cons.1 h
    refine Nat.xor_lt_two_pow ?_ (pick_lt _ hgs)
    split_ifs
    · exact hg
    · exact Nat.two_pow_pos n

theorem respectsXor_shiftStep : RespectsXor shiftStep := by
  intro a b
  unfold shiftStep
  rw [Nat.and_xor_distrib_right, Nat.shiftLeft_xor_distrib, Nat.shiftRight_xor_distrib,
    respectsXor_pick]
  ac_rfl

theorem gen_lt : ∀ g ∈ gen.map BitVec.toNat, g < 2 ^ 30 := by
  simp [gen]

theorem mask_eq : (0x1ffffff : ℕ) = 2 ^ 25 - 1 := by norm_num

theorem shiftStep_lt (chk : ℕ) : shiftStep chk < 2 ^ 30 := by
  unfold shiftStep
  refine Nat.xor_lt_two_pow ?_ (pick_lt _ gen_lt)
  rw [mask_eq, Nat.and_two_pow_sub_one_eq_mod, Nat.shiftLeft_eq]
  calc chk % 2 ^ 25 * 2 ^ 5 < 2 ^ 25 * 2 ^ 5 :=
      Nat.mul_lt_mul_of_pos_right (Nat.mod_lt chk (by norm_num)) (by norm_num)
    _ = 2 ^ 30 := by norm_num

/-- Nothing of a short number is lost. -/
theorem shiftStep_of_lt {chk : ℕ} (h : chk < 2 ^ 25) : shiftStep chk = chk * 32 := by
  have htop : chk >>> 25 = 0 := by
    rw [Nat.shiftRight_eq_div_pow]
    exact Nat.div_eq_of_lt h
  unfold shiftStep
  rw [mask_eq, Nat.and_two_pow_sub_one_eq_mod, Nat.mod_eq_of_lt h, htop, pick_zero, Nat.xor_zero,
    Nat.shiftLeft_eq]

theorem hold_append (chk : ℕ) (us vs : Bytes) : hold chk (us ++ vs) = hold (hold chk us) vs :=
  List.foldl_append

/-- What two words leave together, they leave one by one. -/
theorem hold_xor : ∀ (us vs : Bytes) (a b : ℕ), us.length = vs.length →
    hold (a ^^^ b) (List.zipWith (· ^^^ ·) us vs) = hold a us ^^^ hold b vs
  | [], [], _, _, _ => rfl
  | u :: us, v :: vs, a, b, h => by
    have hstep : shiftStep (a ^^^ b) ^^^ (u ^^^ v).toNat
        = (shiftStep a ^^^ u.toNat) ^^^ (shiftStep b ^^^ v.toNat) := by
      rw [respectsXor_shiftStep, UInt8.toNat_xor]
      ac_rfl
    have ih := hold_xor us vs (shiftStep a ^^^ u.toNat) (shiftStep b ^^^ v.toNat)
      (Nat.succ.inj h)
    rw [← hstep] at ih
    exact ih
  | [], _ :: _, _, _, h => by cases h
  | _ :: _, [], _, _, h => by cases h

theorem hold_lt {chk : ℕ} (h : chk < 2 ^ 30) {values : Bytes} (hv : Fits 5 values) :
    hold chk values < 2 ^ 30 := by
  induction values generalizing chk with
  | nil => exact h
  | cons v values ih =>
    obtain ⟨hlt, hv⟩ := fits_cons.1 hv
    exact ih (Nat.xor_lt_two_pow (shiftStep_lt chk) (hlt.trans (by decide))) hv

/-! ## On words -/

theorem toNat_foldl_gen (b : BitVec 32) : ∀ (gs : List (BitVec 32)) (k : ℕ) (chk : BitVec 32),
    ((gs.zipIdx k).foldl
      (fun chk g => if (b >>> g.2) &&& 1#32 = 1#32 then chk ^^^ g.1 else chk) chk).toNat
      = chk.toNat ^^^ pick (gs.map BitVec.toNat) (b.toNat >>> k)
  | [], _, chk => (Nat.xor_zero chk.toNat).symm
  | g :: gs, k, chk => by
    have hbit : (b >>> k) &&& 1#32 = 1#32 ↔ (b.toNat >>> k) % 2 = 1 := by
      rw [← BitVec.toNat_inj, BitVec.toNat_and, BitVec.toNat_ushiftRight]
      exact (Nat.and_one_is_mod _).congr_left
    have hnext : (b.toNat >>> k) / 2 = b.toNat >>> (k + 1) := (Nat.shiftRight_succ _ _).symm
    rw [List.zipIdx_cons, List.foldl_cons, toNat_foldl_gen b gs (k + 1), List.map_cons, pick,
      hnext]
    simp only [hbit]
    split_ifs
    · rw [BitVec.toNat_xor, Nat.xor_assoc]
    · rw [Nat.zero_xor]

theorem toNat_polymodStep (chk : BitVec 32) (v : UInt8) :
    (polymodStep chk v).toNat = shiftStep chk.toNat ^^^ v.toNat := by
  have hv : v.toNat < 2 ^ 32 := v.toNat_lt.trans (by decide)
  have hmask : chk.toNat &&& 0x1ffffff < 2 ^ 25 := by
    rw [mask_eq, Nat.and_two_pow_sub_one_eq_mod]
    exact Nat.mod_lt _ (by norm_num)
  have hlow : ((chk &&& 0x1ffffff#32) <<< 5).toNat = (chk.toNat &&& 0x1ffffff) <<< 5 := by
    rw [BitVec.toNat_shiftLeft, BitVec.toNat_and]
    refine Nat.mod_eq_of_lt ?_
    rw [Nat.shiftLeft_eq]
    exact (Nat.mul_lt_mul_of_pos_right hmask (by norm_num)).trans (by norm_num)
  unfold polymodStep
  simp only []
  rw [toNat_foldl_gen, BitVec.toNat_xor, hlow, BitVec.toNat_ofNat, Nat.mod_eq_of_lt hv,
    BitVec.toNat_ushiftRight, Nat.shiftRight_zero]
  unfold shiftStep
  ac_rfl

theorem toNat_foldl_polymodStep : ∀ (values : Bytes) (chk : BitVec 32),
    (values.foldl polymodStep chk).toNat = hold chk.toNat values
  | [], _ => rfl
  | v :: values, chk => by
    rw [List.foldl_cons, toNat_foldl_polymodStep values, toNat_polymodStep chk v]
    rfl

theorem toNat_polymod (values : Bytes) : (polymod values).toNat = hold 1 values :=
  toNat_foldl_polymodStep values 1#32

/-! ## The six symbols at the end -/

/-- Few symbols are held as they are. -/
theorem hold_zero : ∀ {values : Bytes}, Fits 5 values → values.length ≤ 6 →
    hold 0 values = value 5 values := by
  intro values
  induction values using List.reverseRecOn with
  | nil => exact fun _ _ => rfl
  | append_singleton values v ih =>
    intro hv hlen
    obtain ⟨hfits, hlast⟩ := fits_append.1 hv
    rw [List.length_append, List.length_singleton] at hlen
    have hlt : value 5 values < 2 ^ 25 :=
      (value_lt (by decide) hfits).trans_le (Nat.pow_le_pow_right (by decide) (by omega))
    have hone : hold (value 5 values) [v] = shiftStep (value 5 values) ^^^ v.toNat := rfl
    have hxor : value 5 values * 32 ^^^ v.toNat = value 5 values * 32 + v.toNat := by
      have hv5 : v.toNat < 2 ^ 5 := (fits_cons.1 hlast).1
      rw [show (32 : ℕ) = 2 ^ 5 by rfl, ← Nat.shiftLeft_eq, Nat.shiftLeft_add_eq_or_of_lt hv5]
      refine Nat.eq_of_testBit_eq fun i => ?_
      rw [Nat.testBit_xor, Nat.testBit_or, Nat.testBit_shiftLeft]
      by_cases hi : 5 ≤ i
      · rw [Nat.testBit_lt_two_pow (hv5.trans_le (Nat.pow_le_pow_right (by decide) hi))]
        simp
      · simp [hi]
    rw [hold_append, ih hfits (by omega), hone, shiftStep_of_lt hlt, hxor, value_concat]
    norm_num

/-- What is left behind six symbols is what zeros leave, and the symbols. -/
theorem hold_six {chk : ℕ} {values : Bytes} (h : Fits 5 values) (hlen : values.length = 6) :
    hold chk values = hold chk [0, 0, 0, 0, 0, 0] ^^^ value 5 values := by
  have hzip : List.zipWith (· ^^^ ·) [0, 0, 0, 0, 0, 0] values = values := by
    have hzero : ∀ n, values.length = n →
        List.zipWith (· ^^^ ·) (List.replicate n (0 : UInt8)) values = values := by
      rintro n rfl
      rw [← List.map_const', List.zipWith_map_left, List.zipWith_self]
      simp
    exact hzero 6 hlen
  have hxor := hold_xor [0, 0, 0, 0, 0, 0] values chk 0 hlen.symm
  rw [hzip, Nat.xor_zero, hold_zero h hlen.le] at hxor
  exact hxor

theorem fits_createChecksum (hrp data : Bytes) : Fits 5 (createChecksum hrp data) := by
  intro g hg
  obtain ⟨i, -, rfl⟩ := List.mem_map.1 hg
  have hlt : ((polymod (hrpExpand hrp ++ data ++ [0, 0, 0, 0, 0, 0]) ^^^ 1#32) >>> (5 * (5 - i))
      &&& 31#32).toNat < 2 ^ 5 := by
    rw [BitVec.toNat_and]
    exact Nat.and_lt_two_pow _ (by decide)
  rw [UInt8.toNat_ofNat_of_lt' (hlt.trans (by decide))]
  exact hlt

theorem length_createChecksum (hrp data : Bytes) : (createChecksum hrp data).length = 6 := by
  rw [createChecksum, List.length_map, List.length_range]

/-- What is held behind a word of ours. -/
def behind (hrp data : Bytes) : ℕ := hold 1 (hrpExpand hrp ++ data ++ [0, 0, 0, 0, 0, 0]) ^^^ 1

theorem value_createChecksum (hrp data : Bytes) (h : behind hrp data < 2 ^ 30) :
    value 5 (createChecksum hrp data) = behind hrp data := by
  have hgroup : ∀ k, (UInt8.ofNat (((polymod (hrpExpand hrp ++ data ++ [0, 0, 0, 0, 0, 0]) ^^^ 1#32)
      >>> k) &&& 31#32).toNat).toNat = behind hrp data / 2 ^ k % 32 := by
    intro k
    have hmod : (((polymod (hrpExpand hrp ++ data ++ [0, 0, 0, 0, 0, 0]) ^^^ 1#32) >>> k)
        &&& 31#32).toNat = behind hrp data / 2 ^ k % 32 := by
      rw [BitVec.toNat_and, BitVec.toNat_ushiftRight, BitVec.toNat_xor, toNat_polymod,
        Nat.shiftRight_eq_div_pow]
      exact Nat.and_two_pow_sub_one_eq_mod _ 5
    have hlt : behind hrp data / 2 ^ k % 32 < 2 ^ 8 := (Nat.mod_lt _ (by decide)).trans (by decide)
    rw [hmod, UInt8.toNat_ofNat_of_lt' hlt]
  unfold createChecksum
  simp only [List.range_succ, List.range_zero, List.nil_append, List.cons_append, List.map_cons,
    List.map_nil, value_cons, value_nil, List.length_cons, List.length_nil, hgroup]
  norm_num
  omega

theorem fits_hrpExpand (hrp : Bytes) : Fits 5 (hrpExpand hrp) := by
  refine fits_append.2 ⟨fits_append.2 ⟨?_, ?_⟩, ?_⟩
  · intro g hg
    obtain ⟨b, -, rfl⟩ := List.mem_map.1 hg
    have hb := b.toNat_lt
    rw [UInt8.toNat_shiftRight, Nat.shiftRight_eq_div_pow]
    change b.toNat / 2 ^ 5 < 2 ^ 5
    omega
  · exact fits_cons.2 ⟨by decide, fun _ hg => nomatch hg⟩
  · intro g hg
    obtain ⟨b, -, rfl⟩ := List.mem_map.1 hg
    rw [UInt8.toNat_and]
    exact (Nat.and_le_right).trans_lt (by decide)

theorem behind_lt (hrp : Bytes) {data : Bytes} (h : Fits 5 data) : behind hrp data < 2 ^ 30 := by
  have hall : Fits 5 (hrpExpand hrp ++ data ++ [0, 0, 0, 0, 0, 0]) := by
    refine fits_append.2 ⟨fits_append.2 ⟨fits_hrpExpand hrp, h⟩, ?_⟩
    intro g hg
    rw [List.eq_of_mem_replicate (n := 6) hg]
    decide
  exact Nat.xor_lt_two_pow (hold_lt (by norm_num) hall) (by norm_num)

/-- One ending passes the check: the one that the writer appends. -/
theorem verifyChecksum_iff (hrp : Bytes) {data checksum : Bytes} (hd : Fits 5 data)
    (hc : Fits 5 checksum) (hlen : checksum.length = 6) :
    verifyChecksum hrp (data ++ checksum) = true ↔ checksum = createChecksum hrp data := by
  have hone : verifyChecksum hrp (data ++ checksum) = true
      ↔ hold 1 (hrpExpand hrp ++ data ++ checksum) = 1 := by
    rw [verifyChecksum, beq_iff_eq, ← BitVec.toNat_inj, toNat_polymod, List.append_assoc]
    rfl
  have hvalue : hold 1 (hrpExpand hrp ++ data ++ checksum) = 1
      ↔ value 5 checksum = behind hrp data := by
    rw [behind, hold_append, hold_six hc hlen, ← hold_append]
    generalize hold 1 (hrpExpand hrp ++ data ++ [0, 0, 0, 0, 0, 0]) = x
    constructor
    · intro h
      rw [← h, Nat.xor_xor_cancel_left]
    · intro h
      rw [h, Nat.xor_xor_cancel_left]
  rw [hone, hvalue, ← value_createChecksum hrp data (behind_lt hrp hd)]
  constructor
  · exact value_inj (by decide) (by rw [hlen, length_createChecksum]) hc
      (fits_createChecksum hrp data)
  · exact congrArg _

end KronMesh
