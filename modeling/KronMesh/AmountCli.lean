import KronMesh.Amount

/-!
# Amounts on the command line

The two command-line programs read the amount of a faucet credit with a parser of their own, the
same in both. It drops what is not a digit from the fraction and leaves the whole part to the
integer parser, so it takes texts that the wallet refuses: `parseKronAmount_agree_iff` says which.
-/

namespace KronMesh

open Word Decimal Text

def orError {β : Type} (error : String) (r : Option β) : Except String β :=
  r.elim (.error error) .ok

/-- What is before and after the first dot. -/
def dotParts (s : List Char) : List Char × List Char := (splitOnce '.' s).getD (s, [])

/-- The parser of `kron-phone` and of `kron-node`. -/
def cliParseKronAmount (s : String) : Except String UInt64 :=
  let s := trim isWhitespace s.toList
  if s.isEmpty then .error "amount is empty"
  else do
    let whole ← orError "invalid amount" (parseOrZero (dotParts s).1)
    let fracDigits := (dotParts s).2.filter Char.isDigit
    if 6 < byteLen fracDigits then .error "amount has more than 6 decimals"
    else do
      let frac ← orError "invalid amount" (parseOrZero (padFraction fracDigits))
      orError "amount overflow" (toUnits whole frac)

namespace KronPhone

def parseKronAmount (s : String) : Except String UInt64 := cliParseKronAmount s

end KronPhone

namespace KronNode

def parseKronAmount (s : String) : Except String UInt64 := cliParseKronAmount s

end KronNode

/-! ## What the command line takes -/

/-- The whole part is digits, perhaps none, or a plus and digits; the fraction has at most six
digits, whatever is between them; and the amount of these digits fits its word. -/
structure CliTakes (t digits : List Char) : Prop where
  whole : (dotParts t).1 = digits ∨ (dotParts t).1 = '+' :: digits ∧ digits ≠ []
  all_digits : digits.all Char.isDigit
  places : ((dotParts t).2.filter Char.isDigit).length ≤ 6
  fits : unitsShown digits ((dotParts t).2.filter Char.isDigit) ≤ u64Max

/-- A text that the command line takes, and that is no amount: it has a plus in front, or something
in the fraction that is not a digit, or nothing but the dot. -/
def Misread (t : List Char) : Prop :=
  t ≠ [] ∧ ∃ digits, CliTakes t digits
    ∧ ((dotParts t).1 ≠ digits ∨ ¬ (dotParts t).2.all Char.isDigit ∨ t = ['.'])

theorem parseOrZero_eq_some {l : List Char} {n : ℕ} :
    parseOrZero l = some n ↔ ∃ digits, (l = digits ∨ l = '+' :: digits ∧ digits ≠ [])
      ∧ digits.all Char.isDigit ∧ number digits = n ∧ n ≤ u64Max := by
  rw [parseOrZero]
  split_ifs with hempty
  · rw [List.isEmpty_iff.1 hempty]
    constructor
    · rintro h
      cases h
      exact ⟨[], .inl rfl, rfl, number_nil, Nat.zero_le _⟩
    · rintro ⟨digits, rfl | ⟨h, -⟩, -, rfl, -⟩
      · rw [number_nil]
      · cases h
  · rw [parseU64_eq_some]
    constructor
    · rintro ⟨digits, rfl | rfl, hne, h⟩
      · exact ⟨l, .inl rfl, h⟩
      · exact ⟨digits, .inr ⟨rfl, hne⟩, h⟩
    · rintro ⟨digits, rfl | ⟨rfl, hne⟩, h⟩
      · exact ⟨l, .inl rfl, mt List.isEmpty_iff.2 hempty, h⟩
      · exact ⟨digits, .inr rfl, hne, h⟩

theorem orError_eq_ok {β : Type} {error : String} {r : Option β} {v : β} :
    orError error r = .ok v ↔ r = some v := by
  cases r <;> simp [orError]

theorem all_isDigit_filter (l : List Char) : (l.filter Char.isDigit).all Char.isDigit :=
  List.all_eq_true.2 fun _ hc => (List.mem_filter.1 hc).2

theorem cliParseKronAmount_eq_ok {s : String} {v : UInt64} :
    cliParseKronAmount s = .ok v ↔ trim isWhitespace s.toList ≠ []
      ∧ ∃ digits, CliTakes (trim isWhitespace s.toList) digits
        ∧ unitsShown digits ((dotParts (trim isWhitespace s.toList)).2.filter Char.isDigit)
          = v.toNat := by
  unfold cliParseKronAmount
  generalize trim isWhitespace s.toList = t
  have hfrac := all_isDigit_filter (dotParts t).2
  dsimp only
  rw [byteLen_of_digits hfrac, padFraction_of_digits hfrac]
  split_ifs with hempty hplaces
  · rw [List.isEmpty_iff.1 hempty]
    constructor
    · intro h
      cases h
    · intro h
      exact absurd rfl h.1
  · constructor
    · intro h
      obtain ⟨n, -, h⟩ := Wire.bind_eq_ok.1 h
      cases h
    · rintro ⟨-, digits, h, -⟩
      exact absurd h.places (Nat.not_le_of_lt hplaces)
  · have hpad := parseOrZero_padRight hfrac (Nat.le_of_not_lt hplaces)
    simp only [Wire.bind_eq_ok, orError_eq_ok, hpad, toUnits_eq, Option.ite_none_right_eq_some,
      Option.some.injEq]
    constructor
    · rintro ⟨n, hwhole, frac, rfl, hfits, rfl⟩
      obtain ⟨digits, hform, hall, rfl, -⟩ := parseOrZero_eq_some.1 hwhole
      exact ⟨mt List.isEmpty_iff.2 hempty, digits,
        ⟨hform, hall, Nat.le_of_not_lt hplaces, hfits⟩, (toNat_ofNat_of_le hfits).symm⟩
    · rintro ⟨-, digits, ⟨hform, hall, -, hfits⟩, hv⟩
      have hle : number digits ≤ u64Max := (number_le_unitsShown digits _).trans hfits
      refine ⟨_, parseOrZero_eq_some.2 ⟨digits, hform, hall, rfl, hle⟩, _, rfl, hfits, ?_⟩
      change UInt64.ofNat (unitsShown digits _) = v
      rw [hv, UInt64.ofNat_toNat]

/-- A text that the wallet takes is split alike by the command line, but for a comma. -/
theorem IsAmount.dotParts_eq {t whole frac : List Char} (h : IsAmount t whole frac)
    (hcomma : ',' ∉ t) : dotParts t = (whole, frac) := by
  have hdot := not_mem_of_digits h.digits_whole (show '.'.isDigit = false from rfl)
  unfold dotParts
  rcases h.split with ⟨rfl, rfl⟩ | rfl | rfl
  · rw [splitOnce_eq_none.2 hdot, Option.getD_none]
  · rw [splitOnce_eq_some.2 ⟨rfl, hdot⟩, Option.getD_some]
  · exact absurd (List.mem_append_right _ List.mem_cons_self) hcomma

theorem dotParts_split (t : List Char) : t = (dotParts t).1 ∧ (dotParts t).2 = []
    ∨ t = (dotParts t).1 ++ '.' :: (dotParts t).2 := by
  unfold dotParts
  rcases hs : splitOnce '.' t with _ | ⟨a, b⟩
  · exact .inl ⟨rfl, rfl⟩
  · exact .inr (splitOnce_eq_some.1 hs).1

theorem filter_isDigit_of_all {l : List Char} (h : l.all Char.isDigit) :
    l.filter Char.isDigit = l := List.filter_eq_self.2 (List.all_eq_true.1 h)

/-- What the wallet takes, the command line takes. -/
theorem IsAmount.cliTakes {t whole frac : List Char} (h : IsAmount t whole frac)
    (hcomma : ',' ∉ t) (hfits : unitsShown whole frac ≤ u64Max) :
    CliTakes t whole ∧ (dotParts t).2.filter Char.isDigit = frac := by
  have hparts := h.dotParts_eq hcomma
  have hfrac : (dotParts t).2.filter Char.isDigit = frac := by
    rw [hparts, filter_isDigit_of_all h.digits_frac]
  refine ⟨⟨.inl ?_, h.digits_whole, ?_, ?_⟩, hfrac⟩
  · rw [hparts]
  · rw [hfrac]
    exact h.places
  · rw [hfrac]
    exact hfits

/-- What the command line takes is an amount of the wallet, unless it is misread. -/
theorem CliTakes.isAmount {t digits : List Char} (h : CliTakes t digits) (ht : t ≠ [])
    (hread : ¬ Misread t) : IsAmount t digits (dotParts t).2 := by
  have hno : ¬ ((dotParts t).1 ≠ digits ∨ ¬ (dotParts t).2.all Char.isDigit ∨ t = ['.']) :=
    fun hbad => hread ⟨ht, digits, h, hbad⟩
  rw [not_or, not_not, not_or, not_not] at hno
  obtain ⟨hwhole, hfrac, hdot⟩ := hno
  have hplaces := h.places
  rw [filter_isDigit_of_all hfrac] at hplaces
  have hsplit := dotParts_split t
  rw [hwhole] at hsplit
  refine ⟨⟨h.all_digits, hfrac, hplaces, ?_⟩, ?_⟩
  · by_contra hnil
    rw [not_or, not_not, not_not] at hnil
    rw [hnil.1, hnil.2] at hsplit
    rcases hsplit with ⟨hs, -⟩ | hs
    · exact ht hs
    · exact hdot hs
  · rcases hsplit with hs | hs
    · exact .inl hs
    · exact .inr (.inl hs)

theorem Misread.not_isAmount {t whole frac : List Char} (h : Misread t) (hcomma : ',' ∉ t) :
    ¬ IsAmount t whole frac := by
  intro ha
  obtain ⟨-, digits, htakes, hbad⟩ := h
  have hwhole := htakes.whole
  rw [ha.dotParts_eq hcomma] at hbad hwhole
  rcases hbad with hplus | hfrac | rfl
  · rcases hwhole with hw | ⟨rfl, -⟩
    · exact hplus hw
    · exact absurd ha.digits_whole (by simp [Char.isDigit])
  · exact hfrac ha.digits_frac
  · have hparts : (whole, frac) = ([], []) := (ha.dotParts_eq hcomma).symm.trans (by decide)
    cases hparts
    exact ha.ne_nil.elim (· rfl) (· rfl)

/-- On a text without a comma the command line and the wallet agree exactly where the command line
does not misread. -/
theorem parseKronAmount_agree_iff {s : String} (hcomma : ',' ∉ s.toList) :
    (∀ v, (KronPhone.parseKronAmount s = .ok v ↔ parseKronAmount s = .ok v)
        ∧ (KronNode.parseKronAmount s = .ok v ↔ parseKronAmount s = .ok v))
      ↔ ¬ Misread (trim isWhitespace s.toList) := by
  have hcomma' : ',' ∉ trim isWhitespace s.toList := mt mem_of_mem_trim hcomma
  simp only [KronPhone.parseKronAmount, KronNode.parseKronAmount, and_self,
    cliParseKronAmount_eq_ok, parseKronAmount_eq_ok]
  generalize trim isWhitespace s.toList = t at hcomma'
  constructor
  · intro hagree hread
    obtain ⟨ht, digits, htakes, -⟩ := id hread
    obtain ⟨whole, frac, ha, -⟩ :=
      (hagree _).1 ⟨ht, digits, htakes, (toNat_ofNat_of_le htakes.fits).symm⟩
    exact hread.not_isAmount hcomma' ha
  · intro hread v
    constructor
    · rintro ⟨ht, digits, htakes, hv⟩
      have ha := htakes.isAmount ht hread
      rw [filter_isDigit_of_all ha.digits_frac] at hv
      exact ⟨digits, _, ha, hv⟩
    · rintro ⟨whole, frac, ha, hv⟩
      obtain ⟨htakes, hfrac⟩ := ha.cliTakes hcomma' (hv ▸ Nat.le_of_lt_succ v.toNat_lt)
      exact ⟨ha.ne_empty, whole, htakes, hfrac ▸ hv⟩

/-- A second dot: the wallet refuses it, and the command line reads 1.23. -/
theorem parseKronAmount_second_dot :
    KronPhone.parseKronAmount "1.2.3" = .ok 1230000
      ∧ KronNode.parseKronAmount "1.2.3" = .ok 1230000
      ∧ parseKronAmount "1.2.3" = .error .tooManySeparators
      ∧ ¬ ∀ s : String, ',' ∉ s.toList → ∀ v,
          (KronPhone.parseKronAmount s = .ok v ↔ parseKronAmount s = .ok v)
          ∧ (KronNode.parseKronAmount s = .ok v ↔ parseKronAmount s = .ok v) := by
  have hparts : dotParts (trim isWhitespace "1.2.3".toList) = (['1'], ['2', '.', '3']) := by rfl
  have hphone : KronPhone.parseKronAmount "1.2.3" = .ok 1230000 :=
    cliParseKronAmount_eq_ok.2 ⟨by decide, ['1'],
      ⟨by rw [hparts]; exact .inl rfl, rfl, by rw [hparts]; decide, by rw [hparts]; decide⟩,
      by rw [hparts]; decide⟩
  have hwallet : parseKronAmount "1.2.3" = .error .tooManySeparators := by rfl
  refine ⟨hphone, hphone, hwallet, fun h => ?_⟩
  have hok := ((h "1.2.3" (by decide) 1230000).1).1 hphone
  rw [hwallet] at hok
  cases hok

/-- On the text of one and a half KRON the three parsers agree. -/
theorem parseKronAmount_agree_oneAndAHalf :
    (KronPhone.parseKronAmount "1.5" = .ok 1500000 ↔ parseKronAmount "1.5" = .ok 1500000)
      ∧ (KronNode.parseKronAmount "1.5" = .ok 1500000 ↔ parseKronAmount "1.5" = .ok 1500000) := by
  refine (parseKronAmount_agree_iff (s := "1.5") (by decide)).2 ?_ 1500000
  rintro ⟨-, digits, htakes, hbad⟩
  have hparts : dotParts (trim isWhitespace "1.5".toList) = (['1'], ['5']) := by rfl
  have hwhole := htakes.whole
  rw [hparts] at hbad hwhole
  rcases hbad with hplus | hfrac | hdot
  · rcases hwhole with hw | ⟨hw, -⟩
    · exact hplus hw
    · cases hw
  · exact hfrac (by decide)
  · cases hdot

end KronMesh
