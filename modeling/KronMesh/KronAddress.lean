import KronMesh.Checksum

/-!
# One spelling for an address

Fifty-two symbols are the padded groups of one payload, or of none, and behind them stands one
checksum. So the decoder gives a payload back for a text exactly when the text, as it is read, is
the spelling of that payload.
-/

namespace KronMesh

open Wire Groups

/-! ## The symbols of a payload -/

/-- The payload in groups of five bits. -/
def payloadSymbols (payload : Hash) : Bytes := (convertBits (hashBytes payload) 8 5 true).getD []

/-- Everything behind the separator, as numbers. -/
def addressSymbols (payload : Hash) : Bytes :=
  payloadSymbols payload ++ createChecksum hrpBytes (payloadSymbols payload)

theorem payloadSymbols_spec (payload : Hash) : Fits 5 (payloadSymbols payload)
    ∧ (payloadSymbols payload).length = 52
    ∧ value 5 (payloadSymbols payload) = value 8 (hashBytes payload) * 2 ^ 4 := by
  obtain ⟨out, k, hout, hk, hlen, hfits, hval⟩ :=
    convertBits_pad (by decide : 0 < 5) (by decide) (fits_eight (hashBytes payload))
  rw [length_hashBytes] at hlen
  obtain rfl : k = 4 := by omega
  rw [payloadSymbols, hout, Option.getD_some]
  exact ⟨hfits, by omega, hval⟩

theorem fits_addressSymbols (payload : Hash) : Fits 5 (addressSymbols payload) :=
  fits_append.2 ⟨(payloadSymbols_spec payload).1, fits_createChecksum _ _⟩

theorem length_addressSymbols (payload : Hash) : (addressSymbols payload).length = 58 := by
  rw [addressSymbols, List.length_append, (payloadSymbols_spec payload).2.1,
    length_createChecksum]

/-- No other symbols regroup to the payload. -/
theorem convertBits_eq_hashBytes_iff {data : Bytes} (h : Fits 5 data) (payload : Hash) :
    convertBits data 5 8 false = some (hashBytes payload) ↔ data = payloadSymbols payload := by
  obtain ⟨hfits, hlen, hval⟩ := payloadSymbols_spec payload
  rw [convertBits_noPad_iff (by decide : 0 < 8) le_rfl (by decide) h, length_hashBytes]
  constructor
  · rintro ⟨k, hk, hlen', -, hval'⟩
    obtain rfl : k = 4 := by omega
    exact value_inj (by decide) (by omega) h hfits (hval'.symm.trans hval.symm)
  · rintro rfl
    exact ⟨4, by decide, by omega, fits_eight _, hval.symm⟩

/-- The symbols that the decoder takes for this payload. -/
def Spells (symbols : Bytes) (payload : Hash) : Prop :=
  6 ≤ symbols.length ∧ verifyChecksum hrpBytes symbols = true
    ∧ convertBits (symbols.take (symbols.length - 6)) 5 8 false = some (hashBytes payload)

theorem spells_iff {symbols : Bytes} (h : Fits 5 symbols) (payload : Hash) :
    Spells symbols payload ↔ symbols = addressSymbols payload := by
  constructor
  · rintro ⟨hlen, hverify, hconvert⟩
    have hsplit := List.take_append_drop (symbols.length - 6) symbols
    rw [← hsplit] at h hverify
    obtain ⟨hdata, hchecksum⟩ := fits_append.1 h
    have hsix : (symbols.drop (symbols.length - 6)).length = 6 := by
      rw [List.length_drop]
      omega
    rw [verifyChecksum_iff hrpBytes hdata hchecksum hsix] at hverify
    rw [convertBits_eq_hashBytes_iff hdata] at hconvert
    rw [hconvert] at hverify
    rw [← hsplit, hconvert, hverify, addressSymbols]
  · rintro rfl
    have hdata : (addressSymbols payload).take ((addressSymbols payload).length - 6)
        = payloadSymbols payload := by
      rw [length_addressSymbols, addressSymbols,
        List.take_left' (payloadSymbols_spec payload).2.1]
    refine ⟨by rw [length_addressSymbols]; decide, ?_, ?_⟩
    · exact (verifyChecksum_iff hrpBytes (payloadSymbols_spec payload).1
        (fits_createChecksum _ _) (length_createChecksum _ _)).2 rfl
    · rw [hdata]
      exact (convertBits_eq_hashBytes_iff (payloadSymbols_spec payload).1 payload).2 rfl

/-! ## Characters of symbols -/

/-- The character of a symbol. -/
def symbolChar (v : UInt8) : Char := charset.getD v.toNat 'q'

/-- What holds of a character holds of the thirty-two. -/
theorem forall_symbolChar {P : Char → Prop} (h : charset.Forall P) (v : UInt8) :
    P (symbolChar v) := by
  rw [List.forall_iff_forall_mem] at h
  unfold symbolChar
  rw [List.getD_eq_getElem?_getD]
  rcases hv : charset[v.toNat]? with _ | c
  · exact h 'q' (by decide)
  · exact h c (List.mem_of_getElem? hv)

theorem charsetIndex_eq_some {b v : UInt8} :
    charsetIndex b = some v ↔ v.toNat < 2 ^ 5 ∧ b = UInt8.ofNat (symbolChar v).toNat := by
  have hback : ∀ n < 2 ^ 5, charsetIndex (UInt8.ofNat (symbolChar (UInt8.ofNat n)).toNat)
      = some (UInt8.ofNat n) := by
    decide
  have hread : ∀ n < 256, ∀ v ∈ charsetIndex (UInt8.ofNat n), v.toNat < 2 ^ 5
      ∧ UInt8.ofNat n = UInt8.ofNat (symbolChar v).toNat := by
    decide +kernel
  constructor
  · intro h
    have hb := hread b.toNat b.toNat_lt v
    rw [UInt8.ofNat_toNat] at hb
    exact hb h
  · rintro ⟨hv, rfl⟩
    have hn := hback v.toNat hv
    rwa [UInt8.ofNat_toNat] at hn

theorem mapM_charsetIndex : ∀ {bytes symbols : Bytes}, bytes.mapM charsetIndex = some symbols ↔
    Fits 5 symbols ∧ bytes = symbols.map fun v => UInt8.ofNat (symbolChar v).toNat
  | [], symbols => by
    rw [List.mapM_nil]
    constructor
    · intro h
      obtain rfl := Option.some.inj h
      exact ⟨nofun, rfl⟩
    · rintro ⟨-, h⟩
      rw [List.map_eq_nil_iff.1 h.symm]
      rfl
  | b :: bytes, symbols => by
    rw [List.mapM_cons]
    simp only [Option.bind_eq_bind, Option.bind_eq_some_iff, Option.pure_def, Option.some.injEq]
    constructor
    · rintro ⟨v, hv, vs, hvs, rfl⟩
      obtain ⟨hlt, rfl⟩ := charsetIndex_eq_some.1 hv
      obtain ⟨hfits, rfl⟩ := mapM_charsetIndex.1 hvs
      exact ⟨fits_cons.2 ⟨hlt, hfits⟩, rfl⟩
    · rintro ⟨hfits, h⟩
      rcases symbols with _ | ⟨v, vs⟩
      · cases h
      obtain ⟨hlt, hfits⟩ := fits_cons.1 hfits
      rw [List.map_cons, List.cons.injEq] at h
      exact ⟨v, charsetIndex_eq_some.2 ⟨hlt, h.1⟩, vs, mapM_charsetIndex.2 ⟨hfits, h.2⟩, rfl⟩

/-! ## Reading it back -/

theorem rfind_of_last {b : UInt8} {front rest : Bytes} (h : b ∉ rest) :
    rfind b (front ++ b :: rest) = some front.length := by
  have hnone : rest.reverse.findIdx? (· == b) = none := by
    rw [List.findIdx?_eq_none_iff]
    intro x hx
    exact beq_false_of_ne fun he => h (he ▸ List.mem_reverse.1 hx)
  have hfound : (front ++ b :: rest).reverse.findIdx? (· == b) = some rest.length := by
    rw [List.reverse_append, List.reverse_cons, List.append_assoc, List.findIdx?_append, hnone,
      List.length_reverse, List.singleton_append, List.findIdx?_cons, if_pos (beq_self_eq_true b)]
    simp
  rw [rfind, hfound, Option.map_some, List.length_append, List.length_cons]
  exact congrArg some (by omega)

theorem rfind_eq_some {b : UInt8} {bytes : Bytes} {i : ℕ} (h : rfind b bytes = some i) :
    ∃ front rest, bytes = front ++ b :: rest ∧ b ∉ rest ∧ front.length = i := by
  have hmem : b ∈ bytes.reverse := by
    by_contra hb
    have hnone : bytes.reverse.findIdx? (· == b) = none := by
      rw [List.findIdx?_eq_none_iff]
      exact fun x hx => beq_false_of_ne fun he => hb (he ▸ hx)
    rw [rfind, hnone] at h
    cases h
  obtain ⟨rest, front, hsplit, hrest⟩ := List.eq_append_cons_of_mem hmem
  have hbytes : bytes = front.reverse ++ b :: rest.reverse := by
    rw [← List.reverse_reverse bytes, hsplit]
    simp
  have hlast : b ∉ rest.reverse := fun hb => hrest (List.mem_reverse.1 hb)
  rw [hbytes, rfind_of_last hlast] at h
  exact ⟨_, _, hbytes, hlast, Option.some.inj h⟩

/-- The decoder reads one word for a payload, in either case. -/
theorem decodeKron_eq_ok {s : String} {payload : Hash} : decodeKron s = .ok payload ↔
    ¬ ((asBytes (normalizeBech32Input s)).any isAsciiLowercase = true
        ∧ (asBytes (normalizeBech32Input s)).any isAsciiUppercase = true)
      ∧ asBytes (toAsciiLowercase (normalizeBech32Input s)) = hrpBytes ++ separator ::
        (addressSymbols payload).map fun v => UInt8.ofNat (symbolChar v).toNat := by
  have hplain : ∀ symbols : Bytes,
      separator ∉ symbols.map fun v => UInt8.ofNat (symbolChar v).toNat := by
    intro symbols hmem
    obtain ⟨v, -, hv⟩ := List.mem_map.1 hmem
    exact forall_symbolChar (P := fun c => UInt8.ofNat c.toNat ≠ separator) (by decide) v hv
  unfold decodeKron
  simp only [bind_eq_ok, rejectIf_eq_ok, okOr_eq_ok]
  constructor
  · rintro ⟨-, -, -, hcase, -, -, sep, hsep, -, -, -, hhrp, -, hlen, symbols, hsymbols, -, hverify,
      bytes, hbytes, -, h32, h⟩
    obtain ⟨front, rest, hsplit, hrest, rfl⟩ := rfind_eq_some hsep
    rw [hsplit, List.take_left, not_ne_iff] at hhrp
    have hdrop : (front ++ separator :: rest).drop (front.length + 1) = rest := by
      rw [List.drop_append]
      simp
    rw [hsplit, hdrop] at hlen hsymbols
    obtain ⟨hfits, rfl⟩ := mapM_charsetIndex.1 hsymbols
    rw [List.length_map, Nat.not_lt] at hlen
    obtain rfl := Except.ok.inj h
    rw [not_ne_iff] at h32
    rw [← hashBytes_hashOfBytes h32] at hbytes
    have hspells := (spells_iff hfits _).1 ⟨hlen, eq_true_of_ne_false hverify, hbytes⟩
    exact ⟨hcase, by rw [hsplit, hhrp, hspells]⟩
  · rintro ⟨hcase, h⟩
    obtain ⟨-, hverify, hconvert⟩ := (spells_iff (fits_addressSymbols payload) payload).2 rfl
    have hfour : hrpBytes.length = 4 := rfl
    have hlen : (hrpBytes ++ separator :: (addressSymbols payload).map
        fun v => UInt8.ofNat (symbolChar v).toNat).length = 63 := by
      rw [List.length_append, List.length_cons, List.length_map, length_addressSymbols, hfour]
    have hlong : ¬ ((hrpBytes ++ separator :: (addressSymbols payload).map
        fun v => UInt8.ofNat (symbolChar v).toNat).drop (4 + 1)).length < 6 := by
      rw [List.length_drop, hlen]
      decide
    have hne : normalizeBech32Input s ≠ "" := by
      intro he
      rw [he] at h
      cases h
    rw [h, hlen, rfind_of_last (hplain _), hfour]
    refine ⟨(), hne, (), hcase, (), by decide, 4, rfl, (), by decide, (), not_ne_iff.2 rfl, (),
      hlong, addressSymbols payload, mapM_charsetIndex.2 ⟨fits_addressSymbols payload, rfl⟩, (),
      ne_false_of_eq_true hverify, hashBytes payload, ?_, (),
      not_ne_iff.2 (length_hashBytes payload), congrArg Except.ok (hashOfBytes_hashBytes payload)⟩
    rw [← hconvert, length_addressSymbols]

/-! ## The spelling -/

theorem asBytes_inj {s t : String} (h : asBytes s = asBytes t) : s = t := by
  rw [← fromUtf8Lossy_asBytes s, h, fromUtf8Lossy_asBytes]

theorem toList_encodeKron (payload : Hash) :
    (encodeKron payload).toList = "kron1".toList ++ (addressSymbols payload).map symbolChar := by
  have hlist : encodeKron payload
      = hrp ++ "1" ++ String.ofList ((addressSymbols payload).map symbolChar) := rfl
  rw [hlist, String.toList_append, String.toList_ofList]
  rfl

/-- What holds of `kron1` and of the symbols holds of an address. -/
theorem forall_encodeKron {P : Char → Prop} (h : "kron1".toList.Forall P) (hs : charset.Forall P)
    {payload : Hash} {c : Char} (hc : c ∈ (encodeKron payload).toList) : P c := by
  rw [toList_encodeKron, List.mem_append] at hc
  rcases hc with hc | hc
  · exact List.forall_iff_forall_mem.1 h c hc
  · obtain ⟨v, -, rfl⟩ := List.mem_map.1 hc
    exact forall_symbolChar hs v

theorem asBytes_encodeKron (payload : Hash) :
    asBytes (encodeKron payload) = hrpBytes ++ separator ::
      (addressSymbols payload).map fun v => UInt8.ofNat (symbolChar v).toNat := by
  have hone : ∀ v, String.utf8EncodeChar (symbolChar v) = [UInt8.ofNat (symbolChar v).toNat] :=
    forall_symbolChar (P := fun c => String.utf8EncodeChar c = [UInt8.ofNat c.toNat])
      (by decide)
  have hsymbols : ∀ symbols : Bytes, (symbols.map symbolChar).flatMap String.utf8EncodeChar
      = symbols.map fun v => UInt8.ofNat (symbolChar v).toNat := by
    intro symbols
    rw [List.flatMap_map, List.flatMap_congr fun v _ => hone v]
    exact List.map_eq_flatMap.symm
  rw [asBytes, toList_encodeKron, List.flatMap_append, hsymbols]
  rfl

/-- The texts that are read as a payload are those that spell it, in one case. -/
theorem decodeKron_eq_ok_iff {s : String} {payload : Hash} : decodeKron s = .ok payload ↔
    ¬ ((asBytes (normalizeBech32Input s)).any isAsciiLowercase = true
        ∧ (asBytes (normalizeBech32Input s)).any isAsciiUppercase = true)
      ∧ toAsciiLowercase (normalizeBech32Input s) = encodeKron payload := by
  rw [decodeKron_eq_ok, ← asBytes_encodeKron]
  exact and_congr_right fun _ => ⟨asBytes_inj, congrArg asBytes⟩

theorem normalizeBech32Input_encodeKron (payload : Hash) :
    normalizeBech32Input (encodeKron payload) = encodeKron payload := by
  have hkeep : (encodeKron payload).toList.filter (fun c => !isIgnorableAddressChar c)
      = (encodeKron payload).toList :=
    List.filter_eq_self.2 fun c hc => forall_encodeKron
      (P := fun c => (!isIgnorableAddressChar c) = true) (by decide) (by decide) hc
  rw [normalizeBech32Input, hkeep, String.ofList_toList]

theorem toAsciiLowercase_encodeKron (payload : Hash) :
    toAsciiLowercase (encodeKron payload) = encodeKron payload := by
  have hlower : ∀ c ∈ (encodeKron payload).toList, c.toLower = c := fun c hc =>
    forall_encodeKron (P := fun c => c.toLower = c) (by decide) (by decide) hc
  have hkeep : (encodeKron payload).toList.map Char.toLower = (encodeKron payload).toList :=
    (List.map_congr_left hlower).trans (List.map_id' _)
  rw [toAsciiLowercase, hkeep, String.ofList_toList]

theorem decodeKron_encodeKron (payload : Hash) : decodeKron (encodeKron payload) = .ok payload := by
  refine decodeKron_eq_ok_iff.2 ⟨?_, ?_⟩
  · rintro ⟨-, hupper⟩
    rw [normalizeBech32Input_encodeKron] at hupper
    obtain ⟨b, hb, hupper⟩ := List.any_eq_true.1 hupper
    obtain ⟨c, hc, hbc⟩ := List.mem_flatMap.1 hb
    have hlower := forall_encodeKron
      (P := fun c => (String.utf8EncodeChar c).any isAsciiUppercase = false) (by decide) (by decide)
      hc
    exact List.any_eq_false.1 hlower b hbc hupper
  · rw [normalizeBech32Input_encodeKron, toAsciiLowercase_encodeKron]

/-- Each payload is read back from its address, and nothing else is read as it. -/
theorem decodeKron_spelling : (∀ payload, decodeKron (encodeKron payload) = .ok payload)
    ∧ ∀ s payload, decodeKron s = .ok payload →
      toAsciiLowercase (normalizeBech32Input s) = encodeKron payload :=
  ⟨decodeKron_encodeKron, fun _ _ h => (decodeKron_eq_ok_iff.1 h).2⟩

theorem decodeKron_spelling_wrapped : toAsciiLowercase (normalizeBech32Input
    " KRON1QQQQQQQQQQQQQQQQQQQQQQQQQQQ\nQQQQQQQQQQQQQQQQQQQQQQQQQQ34PC3") = encodeKron 0 :=
  decodeKron_spelling.2 _ _ (by decide +kernel)

end KronMesh
