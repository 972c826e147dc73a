import KronMesh.Bech32
import KronMesh.Lib.Groups

/-!
# Regrouping

What the regrouping loop does to the number behind a list of groups: it keeps it, but for the zero
bits that are put behind it (`convertBits_pad`) or have to be found there
(`convertBits_noPad_iff`).
-/

namespace KronMesh

open Wire Groups

section Loop

variable {frBits toBits : ℕ}

theorem toNat_ofNat_group (hto : toBits ≤ 8) {n : ℕ} (h : n < 2 ^ toBits) :
    (UInt8.ofNat n).toNat = n :=
  UInt8.toNat_ofNat_of_lt' (h.trans_le (Nat.pow_le_pow_right (by omega) hto))

/-- The groups given up have been the upper bits held, and less than a group is left. -/
theorem drain_spec (h0 : 0 < toBits) (hto : toBits ≤ 8) (acc : ℕ) : ∀ (fuel bits : ℕ),
    bits ≤ fuel → ∃ out rest, drain toBits acc fuel bits = (out, rest) ∧ rest < toBits
      ∧ Fits toBits out ∧ out.length * toBits + rest = bits
      ∧ value toBits out * 2 ^ rest + acc % 2 ^ rest = acc % 2 ^ bits
  | 0, bits, h => ⟨[], bits, rfl, by omega, nofun, by simp, by simp⟩
  | fuel + 1, bits, h => by
    by_cases hle : toBits ≤ bits
    · obtain ⟨out, rest, hd, hrest, hfits, hlen, hval⟩ :=
        drain_spec h0 hto acc fuel (bits - toBits) (by omega)
      have hg : (acc >>> (bits - toBits)) &&& (1 <<< toBits - 1)
          = acc / 2 ^ (bits - toBits) % 2 ^ toBits := by
        rw [Nat.one_shiftLeft, Nat.and_two_pow_sub_one_eq_mod, Nat.shiftRight_eq_div_pow]
      have hlt : acc / 2 ^ (bits - toBits) % 2 ^ toBits < 2 ^ toBits :=
        Nat.mod_lt _ (Nat.two_pow_pos _)
      refine ⟨UInt8.ofNat (acc / 2 ^ (bits - toBits) % 2 ^ toBits) :: out, rest, ?_, hrest, ?_, ?_,
        ?_⟩
      · rw [drain, if_pos hle, hd, hg]
      · rw [fits_cons, toNat_ofNat_group hto hlt]
        exact ⟨hlt, hfits⟩
      · rw [List.length_cons, Nat.succ_mul]
        omega
      · have hexp : toBits * out.length + rest = bits - toBits := by
          rw [Nat.mul_comm]
          exact hlen
        have hsplit : 2 ^ bits = 2 ^ (bits - toBits) * 2 ^ toBits := by
          rw [← Nat.pow_add, Nat.sub_add_cancel hle]
        rw [value_cons, toNat_ofNat_group hto hlt, Nat.add_mul, Nat.mul_assoc, ← Nat.pow_add, hexp,
          Nat.add_assoc, hval, hsplit, Nat.mod_mul, Nat.mul_comm (2 ^ (bits - toBits)),
          Nat.add_comm]
    · refine ⟨[], bits, ?_, by omega, nofun, by simp, by simp⟩
      rw [drain, if_neg hle]

/-- The bits held when `v` has come in. -/
theorem heldBits_step (acc : ℕ) {v bits : ℕ} (hv : v < 2 ^ frBits) (hbits : bits < toBits) :
    (((acc <<< frBits) ||| v) &&& (1 <<< (frBits + toBits - 1) - 1)) % 2 ^ (bits + frBits)
      = acc % 2 ^ bits * 2 ^ frBits + v := by
  have hpos := Nat.two_pow_pos frBits
  have hlow : (acc * 2 ^ frBits + v) % 2 ^ frBits = v := by
    rw [Nat.mul_add_mod_self_right, Nat.mod_eq_of_lt hv]
  have hhigh : (acc * 2 ^ frBits + v) / 2 ^ frBits = acc := by
    rw [Nat.add_comm, Nat.add_mul_div_right _ _ hpos, Nat.div_eq_of_lt hv, Nat.zero_add]
  rw [← Nat.shiftLeft_add_eq_or_of_lt hv, Nat.one_shiftLeft, Nat.and_two_pow_sub_one_eq_mod,
    Nat.shiftLeft_eq, Nat.mod_mod_of_dvd _ (Nat.pow_dvd_pow 2 (by omega)), Nat.add_comm bits,
    Nat.pow_add, Nat.mod_mul, hlow, hhigh, Nat.add_comm, Nat.mul_comm]

/-- The groups out and the bits held are the groups in, behind the bits held before. -/
theorem convertLoop_spec (h0 : 0 < toBits) (hto : toBits ≤ 8) : ∀ (data : Bytes) (acc bits : ℕ),
    Fits frBits data → bits < toBits → ∃ out acc' bits',
      convertLoop frBits toBits data acc bits = some (out, acc', bits') ∧ bits' < toBits
        ∧ Fits toBits out ∧ out.length * toBits + bits' = bits + frBits * data.length
        ∧ value toBits out * 2 ^ bits' + acc' % 2 ^ bits'
          = acc % 2 ^ bits * 2 ^ (frBits * data.length) + value frBits data
  | [], acc, bits, _, hbits => ⟨[], acc, bits, rfl, hbits, nofun, by simp, by simp⟩
  | b :: data, acc, bits, hfits, hbits => by
    obtain ⟨hb, hdata⟩ := fits_cons.1 hfits
    have hshift : b.toNat >>> frBits = 0 := by
      rw [Nat.shiftRight_eq_div_pow]
      exact Nat.div_eq_of_lt hb
    have hheld := heldBits_step acc hb hbits
    generalize hacc : ((acc <<< frBits) ||| b.toNat) &&& (1 <<< (frBits + toBits - 1) - 1) = acc₁
      at hheld
    obtain ⟨out₁, bits₁, hd, hlt, hfits₁, hlen₁, hval₁⟩ :=
      drain_spec h0 hto acc₁ (bits + frBits) (bits + frBits) le_rfl
    obtain ⟨out₂, acc', bits', hc, hlt', hfits₂, hlen₂, hval₂⟩ :=
      convertLoop_spec h0 hto data acc₁ bits₁ hdata hlt
    refine ⟨out₁ ++ out₂, acc', bits', ?_, hlt', fits_append.2 ⟨hfits₁, hfits₂⟩, ?_, ?_⟩
    · simp only [convertLoop, hshift, ne_eq, not_true, if_false, hacc, hd, hc, Option.map_some]
    · rw [List.length_append, Nat.add_mul, List.length_cons, Nat.mul_succ]
      omega
    · have hexp : toBits * out₂.length + bits' = bits₁ + frBits * data.length := by
        rw [Nat.mul_comm]
        exact hlen₂
      rw [value_append, Nat.add_mul, Nat.mul_assoc, ← Nat.pow_add, hexp, Nat.add_assoc, hval₂,
        Nat.pow_add, ← Nat.mul_assoc, ← Nat.add_assoc, ← Nat.add_mul, hval₁, hheld, value_cons,
        List.length_cons, Nat.mul_succ, Nat.pow_add, Nat.add_mul]
      ring

/-- The last group: the bits held, and zeros behind them. -/
theorem lastGroup_eq {acc bits : ℕ} (h : bits < toBits) :
    (acc <<< (toBits - bits)) &&& (1 <<< toBits - 1) = acc % 2 ^ bits * 2 ^ (toBits - bits) := by
  have hsplit : 2 ^ toBits = 2 ^ bits * 2 ^ (toBits - bits) := by
    rw [← Nat.pow_add, Nat.add_sub_cancel' h.le]
  rw [Nat.one_shiftLeft, Nat.and_two_pow_sub_one_eq_mod, Nat.shiftLeft_eq, hsplit,
    Nat.mul_mod_mul_right]

/-- Padded, the groups are the number with less than a group of zeros behind it. -/
theorem convertBits_pad (h0 : 0 < toBits) (hto : toBits ≤ 8) {data : Bytes}
    (hdata : Fits frBits data) : ∃ out k, convertBits data frBits toBits true = some out
      ∧ k < toBits ∧ out.length * toBits = frBits * data.length + k ∧ Fits toBits out
      ∧ value toBits out = value frBits data * 2 ^ k := by
  obtain ⟨out, acc, bits, hc, hbits, hfits, hlen, hval⟩ := convertLoop_spec h0 hto data 0 0 hdata h0
  rw [Nat.zero_mod, Nat.zero_mul, Nat.zero_add] at hval
  rw [Nat.zero_add] at hlen
  unfold convertBits
  simp only [hc, if_true]
  by_cases hpos : 0 < bits
  · have hlast : acc % 2 ^ bits * 2 ^ (toBits - bits) < 2 ^ toBits := by
      rw [← lastGroup_eq hbits, Nat.one_shiftLeft, Nat.and_two_pow_sub_one_eq_mod]
      exact Nat.mod_lt _ (Nat.two_pow_pos _)
    refine ⟨_, toBits - bits, if_pos hpos, by omega, ?_, ?_, ?_⟩
    · rw [List.length_append, List.length_singleton, Nat.succ_mul]
      omega
    · rw [fits_append, lastGroup_eq hbits]
      refine ⟨hfits, fits_cons.2 ⟨?_, nofun⟩⟩
      rw [toNat_ofNat_group hto hlast]
      exact hlast
    · rw [value_concat, lastGroup_eq hbits, toNat_ofNat_group hto hlast, ← hval, Nat.add_mul,
        Nat.mul_assoc, ← Nat.pow_add, Nat.add_sub_cancel' hbits.le]
  · obtain rfl : bits = 0 := by omega
    refine ⟨out, 0, if_neg hpos, h0, by omega, hfits, ?_⟩
    rw [Nat.pow_zero, Nat.mod_one, Nat.mul_one, Nat.add_zero] at hval
    rw [hval, Nat.pow_zero, Nat.mul_one]

/-- Not padded, the number ends in less than a group of zeros, which are dropped. -/
theorem convertBits_noPad_iff (h0 : 0 < toBits) (hto : toBits ≤ 8) (hfr : frBits ≤ toBits)
    {data out : Bytes} (hdata : Fits frBits data) :
    convertBits data frBits toBits false = some out ↔ ∃ k < frBits,
      out.length * toBits + k = frBits * data.length ∧ Fits toBits out
        ∧ value toBits out * 2 ^ k = value frBits data := by
  obtain ⟨out', acc, bits, hc, hbits, hfits, hlen, hval⟩ :=
    convertLoop_spec h0 hto data 0 0 hdata h0
  rw [Nat.zero_mod, Nat.zero_mul, Nat.zero_add] at hval
  rw [Nat.zero_add] at hlen
  have hrest : acc % 2 ^ bits * 2 ^ (toBits - bits) ≠ 0 ↔ acc % 2 ^ bits ≠ 0 := by
    rw [Nat.mul_ne_zero_iff, and_iff_left (Nat.two_pow_pos _).ne']
  unfold convertBits
  simp only [hc, Bool.false_eq_true, if_false, lastGroup_eq hbits, hrest]
  constructor
  · intro h
    split_ifs at h with hbad
    rw [not_or, Nat.not_le, not_not] at hbad
    obtain rfl := Option.some.inj h
    rw [hbad.2, Nat.add_zero] at hval
    exact ⟨bits, hbad.1, hlen, hfits, hval⟩
  · rintro ⟨k, hk, hlen', hfits', hval'⟩
    -- the lengths agree, for less than a group is left either way
    have hsame : out.length = out'.length ∧ k = bits := by
      have hdiv : ∀ {n r}, r < toBits → (n * toBits + r) / toBits = n := by
        intro n r hr
        rw [Nat.add_comm, Nat.add_mul_div_right _ _ h0, Nat.div_eq_of_lt hr, Nat.zero_add]
      have hn : out.length = out'.length := by
        have hout := hdiv (n := out.length) (hk.trans_le hfr)
        rw [hlen', ← hlen, hdiv hbits] at hout
        exact hout.symm
      rw [hn] at hlen'
      exact ⟨hn, by omega⟩
    obtain ⟨hn, rfl⟩ := hsame
    have hlt : acc % 2 ^ k < 2 ^ k := Nat.mod_lt _ (Nat.two_pow_pos _)
    have hzero : acc % 2 ^ k = 0 := by
      have hmod := congrArg (· % 2 ^ k) (hval'.trans hval.symm)
      simp only [Nat.mul_mod_left, Nat.mul_add_mod_self_right, Nat.mod_mod] at hmod
      exact hmod.symm
    rw [hzero, Nat.add_zero, ← hval'] at hval
    rw [if_neg (by rw [not_or, Nat.not_le, not_not]; exact ⟨hk, hzero⟩)]
    exact congrArg some (value_inj h0 hn.symm hfits hfits'
      (Nat.eq_of_mul_eq_mul_right (Nat.two_pow_pos k) hval))

end Loop

end KronMesh
