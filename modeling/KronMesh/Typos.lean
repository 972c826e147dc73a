import KronMesh.Columns
import KronMesh.KronAddress

/-!
# Mistyped addresses

Two words that pass the check of one human-readable part are equal, or they differ at more than four
places. A mistyped text that is read has lost no character and changed no case, for it is as long as
an address, so it is the address of another payload.
-/

namespace KronMesh

open Wire Groups

/-- At how many places two texts of one length differ. -/
def differences {α : Type} [DecidableEq α] (xs ys : List α) : ℕ :=
  (xs.zip ys).countP fun x => x.1 ≠ x.2

theorem differences_self {α : Type} [DecidableEq α] (xs : List α) : differences xs xs = 0 := by
  induction xs with
  | nil => rfl
  | cons x xs ih => rwa [differences, List.zip_cons_cons, List.countP_cons_of_neg (by simp)]

/-- Names that are told apart tell of as many differences. -/
theorem differences_map {α β : Type} [DecidableEq α] [DecidableEq β] {f : α → β} {xs ys : List α}
    (hf : ∀ x ∈ xs, ∀ y ∈ ys, f x = f y → x = y) :
    differences (xs.map f) (ys.map f) = differences xs ys := by
  unfold differences
  rw [List.zip_map, List.countP_map]
  refine List.countP_congr fun x hx => ?_
  obtain ⟨h1, h2⟩ := List.of_mem_zip hx
  simp only [Function.comp_apply, decide_eq_true_eq, Prod.map_fst, Prod.map_snd]
  exact not_congr ⟨hf _ h1 _ h2, congrArg f⟩

/-! ## Two words that pass the check -/

/-- The symbols of a word as what they add to the check, the last one first. -/
def symbolsBack (values : Bytes) : List Held :=
  values.reverse.map fun v => XorVec.ofNat 30 v.toNat

theorem toNat_syndrome (values : Bytes) :
    (Syndrome.syndrome shiftHom (symbolsBack values)).toNat = hold 0 values := by
  induction values using List.reverseRecOn with
  | nil => rfl
  | append_singleton values v ih =>
    have hv : v.toNat < 2 ^ 30 := v.toNat_lt.trans (by norm_num)
    have hback : symbolsBack (values ++ [v])
        = XorVec.ofNat 30 v.toNat :: symbolsBack values := by
      rw [symbolsBack, List.reverse_append, List.reverse_singleton, List.singleton_append,
        List.map_cons, symbolsBack]
    rw [hback, Syndrome.syndrome, XorVec.toNat_add, toNat_shiftHom, ih, XorVec.toNat_ofNat hv,
      hold_append, Nat.xor_comm]
    rfl

theorem mem_symbolSet {t : ℕ} (h : t < 2 ^ 5) : XorVec.ofNat 30 t ∈ symbolSet := by
  have horbit : ∀ t < 2 ^ 5, t = 0 ∨ ∃ k < 31, double^[k] 1 = t := by decide +kernel
  rcases horbit t h with rfl | ⟨k, -, rfl⟩
  · exact .inl XorVec.ofNat_zero
  · refine .inr ⟨k, XorVec.toNat_inj.1 ?_⟩
    have hlt := iterate_double_lt (show 1 < 2 ^ 30 by norm_num) k
    rw [XorVec.toNat_pow toNat_doubleHom, XorVec.toNat_ofNat hlt, XorVec.toNat_ofNat (by norm_num)]

/-- The change of each place, in the order of `symbolsBack`. -/
theorem symbolsBack_zipWith (us vs : Bytes) : symbolsBack (List.zipWith (· ^^^ ·) us vs)
    = (us.zip vs).reverse.map fun x => XorVec.ofNat 30 (x.1 ^^^ x.2).toNat := by
  have hzip : List.zipWith (· ^^^ ·) us vs = (us.zip vs).map fun x => x.1 ^^^ x.2 := by
    rw [List.zip_eq_zipWith, List.map_zipWith]
  rw [symbolsBack, hzip, ← List.map_reverse, List.map_map]
  rfl

theorem change_eq_zero_iff (u v : UInt8) : XorVec.ofNat 30 (u ^^^ v).toNat = 0 ↔ u = v := by
  have hlt : (u ^^^ v).toNat < 2 ^ 30 := (u ^^^ v).toNat_lt.trans (by norm_num)
  rw [← XorVec.toNat_inj, XorVec.toNat_ofNat hlt, XorVec.toNat_zero, ← UInt8.xor_eq_zero_iff,
    ← UInt8.toNat_inj]
  rfl

/-- The five constants tell words apart that differ at up to four of 58 places. -/
theorem eq_of_verifyChecksum {hrp us vs : Bytes} (hu : Fits 5 us) (hv : Fits 5 vs)
    (hlen : us.length = vs.length) (h58 : us.length ≤ 58) (hcu : verifyChecksum hrp us = true)
    (hcv : verifyChecksum hrp vs = true) (hw : differences us vs ≤ 4) : us = vs := by
  have hone : ∀ {ws}, verifyChecksum hrp ws = true → hold (hold 1 (hrpExpand hrp)) ws = 1 := by
    intro ws h
    rw [verifyChecksum, beq_iff_eq, ← BitVec.toNat_inj, toNat_polymod, hold_append] at h
    exact h
  have hchange : hold 0 (List.zipWith (· ^^^ ·) us vs) = 0 := by
    have hxor := hold_xor us vs (hold 1 (hrpExpand hrp)) (hold 1 (hrpExpand hrp)) hlen
    rwa [hone hcu, hone hcv, Nat.xor_self, Nat.xor_self] at hxor
  have hsyndrome : Syndrome.syndrome shiftHom (symbolsBack (List.zipWith (· ^^^ ·) us vs)) = 0 := by
    rw [← XorVec.toNat_inj, toNat_syndrome, hchange, XorVec.toNat_zero]
  rw [symbolsBack_zipWith] at hsyndrome
  have hmem : ∀ e ∈ (us.zip vs).reverse.map fun x => XorVec.ofNat 30 (x.1 ^^^ x.2).toNat,
      e ∈ symbolSet := by
    intro e he
    obtain ⟨x, hx, rfl⟩ := List.mem_map.1 he
    obtain ⟨hxu, hxv⟩ := List.of_mem_zip (List.mem_reverse.1 hx)
    refine mem_symbolSet ?_
    rw [UInt8.toNat_xor]
    exact Nat.xor_lt_two_pow (hu _ hxu) (hv _ hxv)
  have hcount : ((us.zip vs).reverse.map fun x => XorVec.ofNat 30 (x.1 ^^^ x.2).toNat).countP
      (· ≠ 0) ≤ 4 := by
    refine le_of_eq_of_le ?_ hw
    rw [List.countP_map, List.countP_reverse, differences]
    refine List.countP_congr fun x _ => ?_
    simp only [Function.comp_apply, decide_eq_true_eq, ne_eq, change_eq_zero_iff]
  have hzero := Syndrome.eq_zero_of_syndrome independent_columns shiftHom_injective (by decide)
    (.inl rfl) hmem (by simp [h58]) hcount hsyndrome
  refine List.ext_getElem hlen fun i hi hi' => ?_
  have hi2 : i < (us.zip vs).length := by
    rw [List.length_zip, ← hlen, min_self]
    exact hi
  have hpair : (us[i], vs[i]) ∈ us.zip vs := by
    rw [← List.getElem_zip (h := hi2)]
    exact List.getElem_mem hi2
  exact (change_eq_zero_iff _ _).1
    (hzero _ (List.mem_map.2 ⟨_, List.mem_reverse.2 hpair, rfl⟩))

/-! ## A mistyped address -/

theorem toAsciiLowercase_of_not_upper {s : String}
    (h : ¬ (asBytes s).any isAsciiUppercase = true) : toAsciiLowercase s = s := by
  have hletter : ∀ n ≤ 90, 65 ≤ n →
      (String.utf8EncodeChar (Char.ofNat n)).any isAsciiUppercase = true := by
    decide +kernel
  have hkeep : s.toList.map Char.toLower = s.toList := by
    refine (List.map_congr_left fun c hc => dif_neg ?_).trans (List.map_id' _)
    rintro ⟨h65, h90⟩
    have hc' := hletter c.toNat h90 h65
    rw [Char.ofNat_toNat] at hc'
    obtain ⟨b, hb, hup⟩ := List.any_eq_true.1 hc'
    exact h (List.any_eq_true.2 ⟨b, List.mem_flatMap.2 ⟨c, hc, hb⟩, hup⟩)
  rw [toAsciiLowercase, hkeep, String.ofList_toList]

theorem decodeKron_ne_panic (s : String) : decodeKron s ≠ .error .panic := by
  have hok : ∀ {β : Type} {x : Option β} {e : Bech32Error}, okOr x e ≠ .error .panic := by
    intro β x e
    rcases x with _ | b <;> exact nofun
  unfold decodeKron
  refine bind_ne_panic rejectIf_ne_panic fun _ _ => ?_
  refine bind_ne_panic rejectIf_ne_panic fun _ _ => ?_
  refine bind_ne_panic rejectIf_ne_panic fun _ _ => ?_
  refine bind_ne_panic hok fun _ _ => ?_
  refine bind_ne_panic rejectIf_ne_panic fun _ _ => ?_
  refine bind_ne_panic rejectIf_ne_panic fun _ _ => ?_
  refine bind_ne_panic rejectIf_ne_panic fun _ _ => ?_
  refine bind_ne_panic hok fun _ _ => ?_
  refine bind_ne_panic rejectIf_ne_panic fun _ _ => ?_
  refine bind_ne_panic hok fun _ _ => ?_
  exact bind_ne_panic rejectIf_ne_panic fun _ _ => nofun

/-- A text as long as an address, `kron1` in front, is read only when it is one. -/
theorem eq_encodeKron_of_decodeKron {cs : List Char} (hlen : cs.length = 58) {payload : Hash}
    (h : decodeKron (String.ofList ("kron1".toList ++ cs)) = .ok payload) :
    cs = (addressSymbols payload).map symbolChar := by
  obtain ⟨hcase, hspell⟩ := decodeKron_eq_ok_iff.1 h
  have hlist := congrArg String.toList hspell
  rw [toAsciiLowercase, normalizeBech32Input, String.toList_ofList, String.toList_ofList,
    String.toList_ofList] at hlist
  -- nothing was dropped, for nothing is missing
  have hall : ("kron1".toList ++ cs).filter (fun c => !isIgnorableAddressChar c)
      = "kron1".toList ++ cs := by
    refine List.filter_eq_self.2 (List.length_filter_eq_length_iff.1 ?_)
    have hcount := congrArg List.length hlist
    rw [List.length_map, toList_encodeKron, List.length_append, List.length_map,
      length_addressSymbols] at hcount
    rw [hcount, List.length_append, hlen]
  have hsame : normalizeBech32Input (String.ofList ("kron1".toList ++ cs))
      = String.ofList ("kron1".toList ++ cs) := by
    rw [normalizeBech32Input, String.toList_ofList, hall]
  rw [hsame] at hcase hspell
  -- the `k` in front is lower case, so nothing is upper case
  have hlower : (asBytes (String.ofList ("kron1".toList ++ cs))).any isAsciiLowercase = true := by
    rw [asBytes, String.toList_ofList]
    rfl
  rw [toAsciiLowercase_of_not_upper fun hupper => hcase ⟨hlower, hupper⟩] at hspell
  have hchars := congrArg String.toList hspell
  rw [String.toList_ofList, toList_encodeKron] at hchars
  exact List.append_cancel_left hchars

/-- Up to four characters other than they were, and the text is refused. -/
theorem decodeKron_mistyped (payload : Hash) (cs : List Char) (hlen : cs.length = 58)
    (h1 : 0 < differences ((encodeKron payload).toList.drop 5) cs)
    (h4 : differences ((encodeKron payload).toList.drop 5) cs ≤ 4) :
    ∃ e, decodeKron (String.ofList ("kron1".toList ++ cs)) = .error (.err e) := by
  rcases hread : decodeKron (String.ofList ("kron1".toList ++ cs)) with (e | _) | payload'
  · exact ⟨e, rfl⟩
  · exact absurd hread (decodeKron_ne_panic _)
  · exfalso
    have htail : (encodeKron payload).toList.drop 5 = (addressSymbols payload).map symbolChar := by
      rw [toList_encodeKron]
      rfl
    have hinj : ∀ v ∈ addressSymbols payload, ∀ v' ∈ addressSymbols payload',
        symbolChar v = symbolChar v' → v = v' := by
      intro v hv v' hv' he
      have hback := charsetIndex_eq_some.2 ⟨fits_addressSymbols payload v hv, rfl⟩
      rw [he, charsetIndex_eq_some.2 ⟨fits_addressSymbols payload' v' hv', rfl⟩] at hback
      exact (Option.some.inj hback).symm
    rw [htail, eq_encodeKron_of_decodeKron hlen hread, differences_map hinj] at h1 h4
    have hverify : ∀ p, verifyChecksum hrpBytes (addressSymbols p) = true :=
      fun p => ((spells_iff (fits_addressSymbols p) p).2 rfl).2.1
    have hwords := eq_of_verifyChecksum (fits_addressSymbols payload)
      (fits_addressSymbols payload')
      ((length_addressSymbols payload).trans (length_addressSymbols payload').symm)
      (length_addressSymbols payload).le (hverify payload) (hverify payload') h4
    rw [hwords, differences_self] at h1
    exact Nat.lt_irrefl 0 h1

theorem decodeKron_mistyped_capital_and_blank : ∃ e, decodeKron (String.ofList ("kron1".toList
    ++ "pqqqqqqqqqQqqqqqqqqqqqqqqqqqqq qqqqqqqqqqqqqqqqqqqqqq34pc3".toList)) = .error (.err e) :=
  decodeKron_mistyped 0 _ (by decide +kernel) (by decide +kernel) (by decide +kernel)

end KronMesh
