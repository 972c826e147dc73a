import KronMesh.Bech32Decode
import KronMesh.Economics
import KronMesh.Lib.Decimal
import KronMesh.Lib.Text

/-!
# Amounts of the wallet

What a user types as an amount of KRON, in units of its sixth decimal place. The amount is the
decimal that is shown, with a dot or a comma, or it is refused: `parseKronAmount_spec`.
-/

namespace KronMesh

open Word Decimal Text

inductive ParseAmountError
  | empty
  | invalidChars
  | tooManyDecimals
  | tooManySeparators
  | overflow
  deriving DecidableEq, Repr

def isSeparator (c : Char) : Bool := c = '.' || c = ','

/-- `s.replace(',', ".")`, a character at a time. -/
def dotted (c : Char) : Char := if c = ',' then '.' else c

/-- `while frac.len() < 6 { frac.push('0') }`. -/
def padFraction (frac : List Char) : List Char := frac ++ List.replicate (6 - byteLen frac) '0'

/-- `whole.checked_mul(UNITS_PER_COIN)` and `checked_add(frac)`. -/
def toUnits (whole frac : ℕ) : Option UInt64 :=
  ((checkedMul whole unitsPerCoin).bind fun units => checkedAdd units frac).map UInt64.ofNat

/-- `if text.is_empty() { 0 } else { text.parse() }`. -/
def parseOrZero (text : List Char) : Option ℕ := if text.isEmpty then some 0 else parseU64 text

def ParseAmountError.orOverflow {β : Type} (r : Option β) : Except ParseAmountError β :=
  r.elim (.error .overflow) .ok

theorem ParseAmountError.orOverflow_bind {β γ : Type} (r : Option β) (f : β → Option γ) :
    orOverflow (r.bind f) = orOverflow r >>= fun x => orOverflow (f x) := by
  cases r <;> rfl

theorem ParseAmountError.orOverflow_some_bind {β γ : Type} (x : β)
    (f : β → Except ParseAmountError γ) : (orOverflow (some x) >>= f) = f x := rfl

open ParseAmountError in
/-- The checks and the arithmetic, once the separator is found. -/
def parseKronParts (wholeRaw fracRaw : List Char) : Except ParseAmountError UInt64 :=
  if wholeRaw.isEmpty && fracRaw.isEmpty then .error empty
  else if !wholeRaw.isEmpty && !wholeRaw.all Char.isDigit then .error invalidChars
  else if !fracRaw.all Char.isDigit then .error invalidChars
  else if 6 < byteLen fracRaw then .error tooManyDecimals
  else do
    let whole ← orOverflow (parseOrZero wholeRaw)
    let frac ← orOverflow (parseOrZero (padFraction fracRaw))
    orOverflow (toUnits whole frac)

/-- What is before and after the separator. -/
def splitParts (s : List Char) : List Char × List Char :=
  let normalized := s.map dotted
  (splitOnce '.' normalized).getD (normalized, [])

def parseKronAmount (input : String) : Except ParseAmountError UInt64 :=
  let s := trim isWhitespace input.toList
  if s.isEmpty then .error .empty
  else if 1 < s.countP isSeparator then .error .tooManySeparators
  else parseKronParts (splitParts s).1 (splitParts s).2

/-- `{whole}.{frac:06}`. -/
def formatKronAmount (micros : UInt64) : String :=
  String.ofList (Nat.toDigits 10 (micros.toNat / unitsPerCoin)
    ++ '.' :: padLeft 6 (micros.toNat % unitsPerCoin))

/-! ## The digits of an amount -/

/-- Digits before and after the separator that are an amount, however large. -/
structure AmountDigits (whole frac : List Char) : Prop where
  digits_whole : whole.all Char.isDigit
  digits_frac : frac.all Char.isDigit
  places : frac.length ≤ 6
  ne_nil : whole ≠ [] ∨ frac ≠ []

/-- The units of an amount. -/
def unitsShown (whole frac : List Char) : ℕ :=
  number whole * unitsPerCoin + number (padRight 6 frac)

theorem number_le_unitsShown (whole frac : List Char) : number whole ≤ unitsShown whole frac :=
  (Nat.le_mul_of_pos_right _ (by decide)).trans (Nat.le_add_right _ _)

theorem unitsShown_eq_value {whole frac : List Char} (h : frac.length ≤ 6) :
    (unitsShown whole frac : ℚ) = value whole frac * 10 ^ 6 := (value_mul_pow h).symm

theorem byteLen_of_digits {l : List Char} (h : l.all Char.isDigit) : byteLen l = l.length := by
  refine byteLen_of_ascii fun c hc => ?_
  have hd := List.all_eq_true.1 h c hc
  simp only [Char.isDigit, Bool.and_eq_true, decide_eq_true_eq] at hd
  exact UInt32.le_trans hd.2 (by decide)

theorem padFraction_of_digits {frac : List Char} (h : frac.all Char.isDigit) :
    padFraction frac = padRight 6 frac := by
  rw [padFraction, byteLen_of_digits h, padRight]

theorem all_isDigit_padRight {frac : List Char} (h : frac.all Char.isDigit) (k : ℕ) :
    (padRight k frac).all Char.isDigit := by
  rw [padRight, List.all_append, h, Bool.true_and, List.all_replicate]
  split <;> rfl

theorem toUnits_eq (whole frac : ℕ) :
    toUnits whole frac = if whole * unitsPerCoin + frac ≤ u64Max
      then some (UInt64.ofNat (whole * unitsPerCoin + frac)) else none := by
  rw [toUnits]
  rcases Nat.lt_or_ge u64Max (whole * unitsPerCoin) with hmul | hmul
  · rw [checkedMul_eq_none.2 hmul, if_neg (by omega)]
    rfl
  · rw [checkedMul_of_le hmul, Option.bind_some, checkedAdd]
    split_ifs <;> rfl

/-- The units of an amount, where they fit a word. -/
def fitUnits (whole frac : List Char) : Option UInt64 :=
  if unitsShown whole frac ≤ u64Max then some (UInt64.ofNat (unitsShown whole frac)) else none

theorem number_padRight_le {frac : List Char} (h : frac.all Char.isDigit)
    (hlen : frac.length ≤ 6) : number (padRight 6 frac) ≤ u64Max := by
  have hlt := number_lt (all_isDigit_padRight h 6)
  rw [length_padRight hlen] at hlt
  exact hlt.le.trans (by decide)

theorem parseOrZero_of_digits {l : List Char} (h : l.all Char.isDigit) :
    parseOrZero l = if number l ≤ u64Max then some (number l) else none := by
  rw [parseOrZero]
  split_ifs with hempty hle
  · rw [List.isEmpty_iff.1 hempty, number_nil]
  · rw [List.isEmpty_iff.1 hempty, number_nil] at hle
    exact absurd (Nat.zero_le _) hle
  · rw [parseU64_of_digits (mt List.isEmpty_iff.2 hempty) h, if_pos ‹_›]
  · rw [parseU64_of_digits (mt List.isEmpty_iff.2 hempty) h, if_neg ‹_›]

theorem parseOrZero_padRight {frac : List Char} (h : frac.all Char.isDigit)
    (hlen : frac.length ≤ 6) :
    parseOrZero (padRight 6 frac) = some (number (padRight 6 frac)) := by
  rw [parseOrZero_of_digits (all_isDigit_padRight h 6), if_pos (number_padRight_le h hlen)]

/-- What is past its word before the point is past it in units. -/
theorem bind_toUnits {whole frac : List Char} (h : AmountDigits whole frac) :
    ((parseOrZero whole).bind fun n => toUnits n (number (padRight 6 frac)))
      = fitUnits whole frac := by
  rw [parseOrZero_of_digits h.digits_whole, fitUnits]
  split_ifs with hbig hfit hfit
  · rw [Option.bind_some, toUnits_eq]
    exact if_pos hfit
  · rw [Option.bind_some, toUnits_eq]
    exact if_neg hfit
  · exact absurd ((number_le_unitsShown whole frac).trans hfit) hbig
  · rfl

/-- Digits are an amount as soon as it fits its word. -/
theorem parseKronParts_of_digits {whole frac : List Char} (h : AmountDigits whole frac) :
    parseKronParts whole frac = ParseAmountError.orOverflow (fitUnits whole frac) := by
  have hempty : ¬ (whole.isEmpty && frac.isEmpty) := by
    simpa [imp_iff_not_or] using h.ne_nil
  have hplaces : ¬ 6 < byteLen frac := by
    rw [byteLen_of_digits h.digits_frac]
    exact h.places.not_gt
  rw [parseKronParts, if_neg hempty, if_neg (by simp [h.digits_whole]),
    if_neg (by simp [h.digits_frac]), if_neg hplaces, padFraction_of_digits h.digits_frac,
    parseOrZero_padRight h.digits_frac h.places, ← bind_toUnits h,
    ParseAmountError.orOverflow_bind]
  exact congrArg _ (funext fun n => ParseAmountError.orOverflow_some_bind _ _)

/-- What is not so many digits is refused before anything is computed. -/
theorem parseKronParts_of_not {whole frac : List Char} (h : ¬ AmountDigits whole frac) :
    ∃ e ≠ ParseAmountError.overflow, parseKronParts whole frac = .error e := by
  rw [parseKronParts]
  split_ifs with hempty hwhole hfrac hplaces
  · exact ⟨_, by decide, rfl⟩
  · exact ⟨_, by decide, rfl⟩
  · exact ⟨_, by decide, rfl⟩
  · exact ⟨_, by decide, rfl⟩
  · have hdigits : frac.all Char.isDigit := by simpa using hfrac
    refine absurd ⟨?_, hdigits, ?_, ?_⟩ h
    · rcases hw : whole with _ | ⟨c, rest⟩
      · rfl
      · simpa [hw] using hwhole
    · exact byteLen_of_digits hdigits ▸ Nat.le_of_not_lt hplaces
    · simpa [imp_iff_not_or] using hempty

/-! ## The texts that are amounts -/

/-- The text is digits, or digits around one dot or one comma. -/
structure IsAmount (t whole frac : List Char) : Prop extends AmountDigits whole frac where
  split : t = whole ∧ frac = [] ∨ t = whole ++ '.' :: frac ∨ t = whole ++ ',' :: frac

theorem dotted_of_digit {c : Char} (h : c.isDigit) : dotted c = c :=
  if_neg fun hc => absurd (hc ▸ h) (by decide)

theorem map_dotted_of_digits {l : List Char} (h : l.all Char.isDigit) : l.map dotted = l :=
  (List.map_congr_left fun c hc => dotted_of_digit (List.all_eq_true.1 h c hc)).trans
    (List.map_id l)

/-- A comma shows as a dot, so what shows as digits is digits. -/
theorem map_dotted_eq_self {l : List Char} (h : (l.map dotted).all Char.isDigit) :
    l.map dotted = l := by
  refine map_dotted_of_digits (List.all_eq_true.2 fun c hc => ?_)
  have hd := List.all_eq_true.1 h _ (List.mem_map_of_mem hc)
  unfold dotted at hd
  split_ifs at hd
  · exact absurd hd (by decide)
  · exact hd

theorem not_mem_of_digits {l : List Char} (h : l.all Char.isDigit) {c : Char}
    (hc : c.isDigit = false) : c ∉ l := fun hm => by
  rw [List.all_eq_true.1 h c hm] at hc
  cases hc

theorem countP_isSeparator_of_digits {l : List Char} (h : l.all Char.isDigit) :
    l.countP isSeparator = 0 := by
  refine List.countP_eq_zero.2 fun c hc hsep => ?_
  have hd := List.all_eq_true.1 h c hc
  simp only [isSeparator, Bool.or_eq_true, decide_eq_true_eq] at hsep
  rcases hsep with rfl | rfl <;> exact absurd hd (by decide)

/-- An amount is split where it shows its separator. -/
theorem IsAmount.splitParts_eq {t whole frac : List Char} (h : IsAmount t whole frac) :
    splitParts t = (whole, frac) := by
  have hw := map_dotted_of_digits h.digits_whole
  have hf := map_dotted_of_digits h.digits_frac
  have hdot := not_mem_of_digits h.digits_whole (show '.'.isDigit = false from rfl)
  unfold splitParts
  rcases h.split with ⟨rfl, rfl⟩ | rfl | rfl
  · simp only [hw, splitOnce_eq_none.2 hdot, Option.getD_none]
  · simp only [List.map_append, List.map_cons, hw, hf, dotted]
    rw [if_neg (by decide), splitOnce_eq_some.2 ⟨rfl, hdot⟩, Option.getD_some]
  · simp only [List.map_append, List.map_cons, hw, hf, dotted]
    rw [if_pos trivial, splitOnce_eq_some.2 ⟨rfl, hdot⟩, Option.getD_some]

theorem IsAmount.countP_le {t whole frac : List Char} (h : IsAmount t whole frac) :
    t.countP isSeparator ≤ 1 := by
  have hw := countP_isSeparator_of_digits h.digits_whole
  have hf := countP_isSeparator_of_digits h.digits_frac
  rcases h.split with ⟨rfl, rfl⟩ | rfl | rfl
  · exact hw.le.trans (Nat.zero_le _)
  · rw [List.countP_append, List.countP_cons, hw, hf]
    decide
  · rw [List.countP_append, List.countP_cons, hw, hf]
    decide

theorem IsAmount.ne_empty {t whole frac : List Char} (h : IsAmount t whole frac) : t ≠ [] := by
  rintro rfl
  rcases h.split with ⟨rfl, rfl⟩ | hs | hs
  · exact h.ne_nil.elim (· rfl) (· rfl)
  · simp at hs
  · simp at hs

/-- A text whose parts are digits shows the separator it was split at. -/
theorem isAmount_splitParts {t : List Char}
    (h : AmountDigits (splitParts t).1 (splitParts t).2) :
    IsAmount t (splitParts t).1 (splitParts t).2 := by
  refine ⟨h, ?_⟩
  obtain ⟨hw, hf, -, -⟩ := h
  unfold splitParts at hw hf ⊢
  rcases hs : splitOnce '.' (t.map dotted) with _ | ⟨a, b⟩
  · simp only [hs, Option.getD_none] at hw ⊢
    exact .inl ⟨(map_dotted_eq_self hw).symm, trivial⟩
  · simp only [hs, Option.getD_some] at hw hf ⊢
    obtain ⟨hsplit, -⟩ := splitOnce_eq_some.1 hs
    obtain ⟨whole, rest, rfl, rfl, hrest⟩ := List.map_eq_append_iff.1 hsplit
    obtain ⟨c, frac, rfl, hc, rfl⟩ := List.map_eq_cons_iff.1 hrest
    rw [map_dotted_eq_self hw, map_dotted_eq_self hf]
    unfold dotted at hc
    split_ifs at hc with hcomma
    · exact .inr (.inr (by rw [hcomma]))
    · exact .inr (.inl (by rw [hc]))

/-- A text that is an amount is read as its units, if they fit; any other is refused, and not as too
large. -/
theorem parseKronAmount_cases (input : String) :
    (∃ whole frac, IsAmount (trim isWhitespace input.toList) whole frac
      ∧ parseKronAmount input = ParseAmountError.orOverflow (fitUnits whole frac))
    ∨ (¬ ∃ whole frac, IsAmount (trim isWhitespace input.toList) whole frac)
      ∧ ∃ e ≠ ParseAmountError.overflow, parseKronAmount input = .error e := by
  unfold parseKronAmount
  generalize trim isWhitespace input.toList = t
  by_cases h : ∃ whole frac, IsAmount t whole frac
  · obtain ⟨whole, frac, h⟩ := h
    refine .inl ⟨whole, frac, h, ?_⟩
    rw [if_neg (mt List.isEmpty_iff.1 h.ne_empty), if_neg h.countP_le.not_gt, h.splitParts_eq]
    exact parseKronParts_of_digits h.toAmountDigits
  · refine .inr ⟨h, ?_⟩
    dsimp only
    split_ifs
    · exact ⟨_, by decide, rfl⟩
    · exact ⟨_, by decide, rfl⟩
    · exact parseKronParts_of_not fun hd => h ⟨_, _, isAmount_splitParts hd⟩

theorem fitUnits_eq_some {whole frac : List Char} {v : UInt64} :
    fitUnits whole frac = some v ↔ unitsShown whole frac = v.toNat := by
  rw [fitUnits, Option.ite_none_right_eq_some, Option.some.injEq]
  constructor
  · rintro ⟨hle, rfl⟩
    exact (toNat_ofNat_of_le hle).symm
  · intro h
    rw [h]
    exact ⟨Nat.le_of_lt_succ v.toNat_lt, UInt64.ofNat_toNat⟩

theorem fitUnits_eq_none {whole frac : List Char} :
    fitUnits whole frac = none ↔ u64Max < unitsShown whole frac := by
  rw [fitUnits, ite_eq_right_iff, ← Nat.not_le]
  exact ⟨fun h hle => absurd (h hle) (Option.some_ne_none _), fun h hle => absurd hle h⟩

theorem orOverflow_eq_ok {r : Option UInt64} {v : UInt64} :
    ParseAmountError.orOverflow r = .ok v ↔ r = some v := by
  cases r <;> simp [ParseAmountError.orOverflow]

theorem orOverflow_eq_overflow {r : Option UInt64} :
    ParseAmountError.orOverflow r = .error .overflow ↔ r = none := by
  cases r <;> simp [ParseAmountError.orOverflow]

theorem parseKronAmount_eq_ok {input : String} {v : UInt64} :
    parseKronAmount input = .ok v ↔ ∃ whole frac,
      IsAmount (trim isWhitespace input.toList) whole frac ∧ unitsShown whole frac = v.toNat := by
  rcases parseKronAmount_cases input with ⟨whole, frac, h, hp⟩ | ⟨hno, e, -, hp⟩ <;> rw [hp]
  · rw [orOverflow_eq_ok, fitUnits_eq_some]
    refine ⟨fun hv => ⟨whole, frac, h, hv⟩, fun ⟨whole', frac', h', hv⟩ => ?_⟩
    cases h.splitParts_eq.symm.trans h'.splitParts_eq
    exact hv
  · constructor
    · intro h
      cases h
    · rintro ⟨whole, frac, h, -⟩
      exact absurd ⟨whole, frac, h⟩ hno

theorem parseKronAmount_eq_overflow {input : String} :
    parseKronAmount input = .error .overflow ↔ ∃ whole frac,
      IsAmount (trim isWhitespace input.toList) whole frac ∧ u64Max < unitsShown whole frac := by
  rcases parseKronAmount_cases input with ⟨whole, frac, h, hp⟩ | ⟨hno, e, he, hp⟩ <;> rw [hp]
  · rw [orOverflow_eq_overflow, fitUnits_eq_none]
    refine ⟨fun hv => ⟨whole, frac, h, hv⟩, fun ⟨whole', frac', h', hv⟩ => ?_⟩
    cases h.splitParts_eq.symm.trans h'.splitParts_eq
    exact hv
  · constructor
    · intro h
      exact absurd (Except.error.inj h) he
    · rintro ⟨whole, frac, h, -⟩
      exact absurd ⟨whole, frac, h⟩ hno

/-! ## What is displayed -/

theorem isWhitespace_of_digit {c : Char} (h : c.isDigit) : isWhitespace c = false := by
  simp only [Char.isDigit, Bool.and_eq_true, decide_eq_true_eq] at h
  have hlo : 48 ≤ c.toNat := UInt32.le_iff_toNat_le.1 h.1
  have hhi : c.toNat ≤ 57 := UInt32.le_iff_toNat_le.1 h.2
  exact isWhitespace_of_graphic (by omega) (by omega)

theorem isAmount_format (m : UInt64) :
    IsAmount (trim isWhitespace (formatKronAmount m).toList)
      (Nat.toDigits 10 (m.toNat / unitsPerCoin)) (padLeft 6 (m.toNat % unitsPerCoin)) := by
  have hwhole := all_isDigit_toDigits (m.toNat / unitsPerCoin)
  have hfrac := all_isDigit_padLeft 6 (m.toNat % unitsPerCoin)
  have hlen : (padLeft 6 (m.toNat % unitsPerCoin)).length = 6 :=
    length_padLeft (by decide) (Nat.mod_lt _ (by decide))
  have htext : trim isWhitespace (formatKronAmount m).toList
      = Nat.toDigits 10 (m.toNat / unitsPerCoin) ++ '.' :: padLeft 6 (m.toNat % unitsPerCoin) := by
    rw [formatKronAmount, String.toList_ofList]
    refine trim_of_none fun c hc => ?_
    rcases List.mem_append.1 hc with hc | hc
    · exact isWhitespace_of_digit (List.all_eq_true.1 hwhole c hc)
    · rcases List.mem_cons.1 hc with rfl | hc
      · rfl
      · exact isWhitespace_of_digit (List.all_eq_true.1 hfrac c hc)
  exact ⟨⟨hwhole, hfrac, hlen.le, .inl Nat.toDigits_ne_nil⟩, .inr (.inl htext)⟩

theorem parseKronAmount_format (m : UInt64) : parseKronAmount (formatKronAmount m) = .ok m := by
  have hlen : (padLeft 6 (m.toNat % unitsPerCoin)).length = 6 :=
    length_padLeft (by decide) (Nat.mod_lt _ (by decide))
  refine parseKronAmount_eq_ok.2 ⟨_, _, isAmount_format m, ?_⟩
  rw [unitsShown, number_padRight, hlen, number_toDigits, number_padLeft, Nat.sub_self,
    Nat.pow_zero, Nat.mul_one]
  exact Nat.div_add_mod' m.toNat unitsPerCoin

/-- An amount is read exactly when the text without its white space is digits, at most six of them
behind a dot or a comma, and it is read as the decimal that is shown; it is past its word exactly
when that decimal is. What is displayed is read back. -/
theorem parseKronAmount_spec :
    (∀ (s : String) (v : UInt64), parseKronAmount s = .ok v ↔ ∃ whole frac,
        IsAmount (trim isWhitespace s.toList) whole frac
          ∧ value whole frac * 10 ^ 6 = (v.toNat : ℚ))
      ∧ (∀ s : String, parseKronAmount s = .error .overflow ↔ ∃ whole frac,
        IsAmount (trim isWhitespace s.toList) whole frac
          ∧ (u64Max : ℚ) < value whole frac * 10 ^ 6)
      ∧ ∀ m : UInt64, parseKronAmount (formatKronAmount m) = .ok m := by
  refine ⟨fun s v => ?_, fun s => ?_, parseKronAmount_format⟩
  · rw [parseKronAmount_eq_ok]
    refine exists_congr fun whole => exists_congr fun frac => and_congr_right fun h => ?_
    rw [← unitsShown_eq_value h.places, Nat.cast_inj]
  · rw [parseKronAmount_eq_overflow]
    refine exists_congr fun whole => exists_congr fun frac => and_congr_right fun h => ?_
    rw [← unitsShown_eq_value h.places, Nat.cast_lt]

end KronMesh
