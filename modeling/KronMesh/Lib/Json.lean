import KronMesh.Lib.Decimal

/-!
# JSON texts

The grammar of RFC 8259. Each production reads from the front of a text what the text means, and
leaves a rest; a text is read in one way only (`Document.unique`). A writer that writes each
character of a string as one `char`, or leaves it out, writes documents: what it writes of a value
reads as that value without the characters it leaves out (`Escaper.document_write`).
-/

/-! ## Values -/

namespace Json

/-- `1*DIGIT`. -/
def IsDigits (l : List Char) : Prop := l ≠ [] ∧ l.all Char.isDigit

/-- `int`: no zero stands before another digit. -/
structure IsInt (l : List Char) : Prop where
  digits : IsDigits l
  zero : l.head? = some '0' → l = ['0']

/-- `[ frac ]`. -/
inductive IsFrac : List Char → Prop
  | absent : IsFrac []
  | present {l : List Char} (h : IsDigits l) : IsFrac ('.' :: l)

/-- `[ exp ]`. -/
inductive IsExp : List Char → Prop
  | absent : IsExp []
  | present {e : Char} {sign l : List Char} (he : e = 'e' ∨ e = 'E')
      (hsign : sign = [] ∨ sign = ['+'] ∨ sign = ['-']) (h : IsDigits l) : IsExp (e :: (sign ++ l))

/-- `number = [ minus ] int [ frac ] [ exp ]`. -/
inductive IsNumber : List Char → Prop
  | mk {minus int frac exp : List Char} (hminus : minus = [] ∨ minus = ['-']) (hint : IsInt int)
      (hfrac : IsFrac frac) (hexp : IsExp exp) : IsNumber (minus ++ (int ++ (frac ++ exp)))

/-- A number as it is written. -/
@[ext] structure Number where
  text : List Char
  isNumber : IsNumber text

end Json

inductive Json
  | null
  | bool (b : Bool)
  | number (n : Json.Number)
  | string (s : List Char)
  | array (elements : List Json)
  | object (members : List (List Char × Json))

namespace Json

section Filter

variable (keep : Char → Bool)

mutual

/-- The value with only the characters to keep in its strings. -/
def filterStrings : Json → Json
  | null => null
  | bool b => bool b
  | number n => number n
  | string s => string (s.filter keep)
  | array vs => array (filterElements vs)
  | object ms => object (filterMembers ms)

def filterElements : List Json → List Json
  | [] => []
  | v :: vs => filterStrings v :: filterElements vs

def filterMembers : List (List Char × Json) → List (List Char × Json)
  | [] => []
  | (k, v) :: ms => (k.filter keep, filterStrings v) :: filterMembers ms

end

end Filter

/-! ## Strings -/

/-- `unescaped`: no control character, quotation mark or backslash. -/
def isUnescaped (c : Char) : Bool := 0x20 ≤ c.toNat && c ≠ '"' && c ≠ '\\'

/-- What a character behind a backslash stands for. -/
def escaped : Char → Option Char
  | '"' => some '"'
  | '\\' => some '\\'
  | '/' => some '/'
  | 'b' => some (Char.ofNat 0x08)
  | 'f' => some (Char.ofNat 0x0c)
  | 'n' => some '\n'
  | 'r' => some '\r'
  | 't' => some '\t'
  | _ => none

/-- A digit of base sixteen, in either case. -/
def hexDigit (c : Char) : Option ℕ := (List.range 16).find? fun d => d.digitChar = c.toLower

/-- The number of four digits of base sixteen, and what is behind them. -/
def hex4 : List Char → Option (ℕ × List Char)
  | a :: b :: c :: d :: l => do
    let a ← hexDigit a
    let b ← hexDigit b
    let c ← hexDigit c
    let d ← hexDigit d
    some (((a * 16 + b) * 16 + c) * 16 + d, l)
  | _ => none

/-- The code point of two surrogates. -/
def codePoint (hi lo : ℕ) : ℕ := 0x10000 + (hi - 0xd800) * 0x400 + (lo - 0xdc00)

/-- `char`: what stands for one character. Past U+FFFF an escape is a pair of surrogates. -/
inductive CharAt : List Char → Char → List Char → Prop
  | unescaped {c : Char} {r : List Char} (h : isUnescaped c) : CharAt (c :: r) c r
  | escape {e c : Char} {r : List Char} (h : escaped e = some c) : CharAt ('\\' :: e :: r) c r
  | unicode {l r : List Char} {n : ℕ} (h : hex4 l = some (n, r)) (hn : n < 0xd800 ∨ 0xe000 ≤ n) :
      CharAt ('\\' :: 'u' :: l) (Char.ofNat n) r
  | surrogates {l m r : List Char} {hi lo : ℕ} (hhi : hex4 l = some (hi, '\\' :: 'u' :: m))
      (hlo : hex4 m = some (lo, r)) (hihi : 0xd800 ≤ hi ∧ hi < 0xdc00)
      (hilo : 0xdc00 ≤ lo ∧ lo < 0xe000) :
      CharAt ('\\' :: 'u' :: l) (Char.ofNat (codePoint hi lo)) r

/-- `*char quotation-mark`. -/
inductive Chars : List Char → List Char → List Char → Prop
  | quote {r : List Char} : Chars ('"' :: r) [] r
  | char {l m r s : List Char} {c : Char} (hc : CharAt l c m) (h : Chars m s r) : Chars l (c :: s) r

/-- `string = quotation-mark *char quotation-mark`. -/
inductive Literal : List Char → List Char → List Char → Prop
  | mk {l r s : List Char} (h : Chars l s r) : Literal ('"' :: l) s r

/-! ## The grammar -/

/-- `ws`. -/
def isBlank (c : Char) : Bool := c = ' ' || c = '\t' || c = '\n' || c = '\r'

def skip (l : List Char) : List Char := l.dropWhile isBlank

def isNumberChar (c : Char) : Bool :=
  c.isDigit || c = '-' || c = '+' || c = '.' || c = 'e' || c = 'E'

/-- A number ends here. -/
def Stops (l : List Char) : Prop := ∀ c ∈ l.head?, isNumberChar c = false

mutual

/-- `value`. What may follow a value in a document ends a number, so a number is read to its end. -/
inductive Value : List Char → Json → List Char → Prop
  | null {r : List Char} : Value ('n' :: 'u' :: 'l' :: 'l' :: r) .null r
  | boolTrue {r : List Char} : Value ('t' :: 'r' :: 'u' :: 'e' :: r) (.bool true) r
  | boolFalse {r : List Char} : Value ('f' :: 'a' :: 'l' :: 's' :: 'e' :: r) (.bool false) r
  | number {n : Number} {l r : List Char} (h : l = n.text ++ r) (hr : Stops r) :
      Value l (.number n) r
  | string {l r s : List Char} (h : Chars l s r) : Value ('"' :: l) (.string s) r
  | emptyArray {l r : List Char} (h : skip l = ']' :: r) : Value ('[' :: l) (.array []) r
  | array {l m r : List Char} {v : Json} {vs : List Json} (hv : Value (skip l) v m)
      (hvs : Elements m vs r) : Value ('[' :: l) (.array (v :: vs)) r
  | emptyObject {l r : List Char} (h : skip l = '}' :: r) : Value ('{' :: l) (.object []) r
  | object {l m m' r k : List Char} {v : Json} {ms : List (List Char × Json)}
      (hk : Literal (skip l) k m) (hm : skip m = ':' :: m') (hv : Value (skip m') v r')
      (hms : Members r' ms r) : Value ('{' :: l) (.object ((k, v) :: ms)) r

/-- `*( value-separator value ) end-array`. -/
inductive Elements : List Char → List Json → List Char → Prop
  | done {l r : List Char} (h : skip l = ']' :: r) : Elements l [] r
  | next {l m m' r : List Char} {v : Json} {vs : List Json} (h : skip l = ',' :: m)
      (hv : Value (skip m) v m') (hvs : Elements m' vs r) : Elements l (v :: vs) r

/-- `*( value-separator member ) end-object`. -/
inductive Members : List Char → List (List Char × Json) → List Char → Prop
  | done {l r : List Char} (h : skip l = '}' :: r) : Members l [] r
  | next {l m₀ m m' m'' r k : List Char} {v : Json} {ms : List (List Char × Json)}
      (h : skip l = ',' :: m₀) (hk : Literal (skip m₀) k m) (hm : skip m = ':' :: m')
      (hv : Value (skip m') v m'') (hms : Members m'' ms r) : Members l ((k, v) :: ms) r

end

/-- `JSON-text = ws value ws`. -/
def Document (l : List Char) (v : Json) : Prop := ∃ r, Value (skip l) v r ∧ skip r = []

/-! ## One reading -/

section Unique

variable {l r r' s s' : List Char} {c c' : Char} {v v' : Json}

theorem CharAt.det (h : CharAt l c r) (h' : CharAt l c' r') : c = c' ∧ r = r' := by
  cases h with
  | unescaped h =>
    cases h' with
    | unescaped h' => exact ⟨rfl, rfl⟩
    | escape h' => simp [isUnescaped] at h
    | unicode h' hn => simp [isUnescaped] at h
    | surrogates hhi hlo hihi hilo => simp [isUnescaped] at h
  | escape h =>
    cases h' with
    | unescaped h' => simp [isUnescaped] at h'
    | escape h' => exact ⟨Option.some.inj (h.symm.trans h'), rfl⟩
    | unicode h' hn => simp [escaped] at h
    | surrogates hhi hlo hihi hilo => simp [escaped] at h
  | unicode h hn =>
    cases h' with
    | unescaped h' => simp [isUnescaped] at h'
    | escape h' => simp [escaped] at h'
    | unicode h' hn' =>
      cases h.symm.trans h'
      exact ⟨rfl, rfl⟩
    | surrogates hhi hlo hihi hilo =>
      cases h.symm.trans hhi
      omega
  | surrogates hhi hlo hihi hilo =>
    cases h' with
    | unescaped h' => simp [isUnescaped] at h'
    | escape h' => simp [escaped] at h'
    | unicode h' hn =>
      cases h'.symm.trans hhi
      omega
    | surrogates hhi' hlo' hihi' hilo' =>
      cases hhi.symm.trans hhi'
      cases hlo.symm.trans hlo'
      exact ⟨rfl, rfl⟩

theorem CharAt.ne_quote (h : CharAt l c r) : l.head? ≠ some '"' := by
  cases h with
  | unescaped h =>
    rintro ⟨rfl⟩
    simp [isUnescaped] at h
  | escape h => simp
  | unicode h hn => simp
  | surrogates hhi hlo hihi hilo => simp

theorem Chars.det (h : Chars l s r) (h' : Chars l s' r') : s = s' ∧ r = r' := by
  induction h generalizing s' r' with
  | quote =>
    cases h' with
    | quote => exact ⟨rfl, rfl⟩
    | char hc _ => exact absurd rfl hc.ne_quote
  | char hc _ ih =>
    cases h' with
    | quote => exact absurd rfl hc.ne_quote
    | char hc' h' =>
      obtain ⟨rfl, rfl⟩ := hc.det hc'
      obtain ⟨rfl, rfl⟩ := ih h'
      exact ⟨rfl, rfl⟩

theorem Literal.det (h : Literal l s r) (h' : Literal l s' r') : s = s' ∧ r = r' := by
  cases h with
  | mk h =>
    cases h' with
    | mk h' => exact h.det h'

theorem IsDigits.all_isNumberChar (h : IsDigits l) : ∀ c ∈ l, isNumberChar c := by
  intro c hc
  have hdigit := List.all_eq_true.1 h.2 c hc
  simp [isNumberChar, hdigit]

theorem IsNumber.all_isNumberChar (h : IsNumber l) : ∀ c ∈ l, isNumberChar c := by
  obtain ⟨hminus, hint, hfrac, hexp⟩ := h
  simp only [List.forall_mem_append]
  refine ⟨?_, hint.digits.all_isNumberChar, ?_, ?_⟩
  · rcases hminus with rfl | rfl <;> simp [isNumberChar]
  · cases hfrac with
    | absent => simp
    | present hd => exact List.forall_mem_cons.2 ⟨by decide, hd.all_isNumberChar⟩
  · cases hexp with
    | absent => simp
    | present he hsign hd =>
      refine List.forall_mem_cons.2 ⟨?_, List.forall_mem_append.2 ⟨?_, hd.all_isNumberChar⟩⟩
      · rcases he with rfl | rfl <;> decide
      · rcases hsign with rfl | rfl | rfl <;> simp [isNumberChar]

theorem IsNumber.ne_nil (h : IsNumber l) : l ≠ [] := by
  obtain ⟨-, hint, -, -⟩ := h
  simp [hint.digits.1]

/-- A number starts with a character of a number. -/
theorem Number.append_eq_cons (n : Number) (r : List Char) :
    ∃ c l, n.text ++ r = c :: l ∧ isNumberChar c = true := by
  obtain ⟨c, l, htext⟩ := List.exists_cons_of_ne_nil n.isNumber.ne_nil
  have hc : isNumberChar c := n.isNumber.all_isNumberChar c (by simp [htext])
  exact ⟨c, l ++ r, by rw [htext]; rfl, hc⟩

/-- It ends where its characters do. -/
theorem Number.takeWhile_append (n : Number) (hr : Stops r) :
    (n.text ++ r).takeWhile isNumberChar = n.text := by
  rw [List.takeWhile_append_of_pos n.isNumber.all_isNumberChar]
  cases r with
  | nil => simp
  | cons c r => simp [hr c rfl]

theorem Number.det {n n' : Number} (h : n.text ++ r = n'.text ++ r') (hr : Stops r)
    (hr' : Stops r') : n = n' ∧ r = r' := by
  have htext : n.text = n'.text := by
    rw [← n.takeWhile_append hr, h, n'.takeWhile_append hr']
  rw [htext, List.append_cancel_left_eq] at h
  exact ⟨Number.ext htext, h⟩

theorem not_isBlank_of_isNumberChar (h : isNumberChar c = true) : isBlank c = false := by
  by_contra hblank
  simp only [isBlank, Bool.or_eq_true, decide_eq_true_eq, Bool.not_eq_false] at hblank
  rcases hblank with ((rfl | rfl) | rfl) | rfl <;> exact absurd h (by decide)

/-- A value starts with no blank, and with no end of an array. -/
theorem Value.head (h : Value l v r) : ∃ c m, l = c :: m ∧ isBlank c = false ∧ c ≠ ']' := by
  cases h with
  | number h hr =>
    rename_i n
    obtain ⟨c, m, hl, hc⟩ := n.append_eq_cons r
    refine ⟨c, m, h.trans hl, not_isBlank_of_isNumberChar hc, ?_⟩
    rintro rfl
    exact absurd hc (by decide)
  | _ => exact ⟨_, _, rfl, by decide, by decide⟩

theorem Value.skip_eq (h : Value l v r) : skip l = l := by
  obtain ⟨c, m, rfl, hblank, -⟩ := h.head
  simp [skip, hblank]

theorem Value.ne_bracket (h : Value (']' :: l) v r) : False := by
  obtain ⟨c, m, hl, -, hne⟩ := h.head
  cases hl
  exact hne rfl

/-- What starts as a number is that number. -/
theorem Value.of_number {n : Number} (h : Value (n.text ++ r) v r') (hr : Stops r) :
    v = .number n ∧ r' = r := by
  obtain ⟨c, m, hl, hc⟩ := n.append_eq_cons r
  generalize hl' : n.text ++ r = l at h
  cases h with
  | number h hr' =>
    obtain ⟨rfl, rfl⟩ := Number.det (hl'.trans h) hr hr'
    exact ⟨rfl, rfl⟩
  | _ =>
    cases hl.symm.trans hl'
    exact absurd hc (by decide)

end Unique

mutual

theorem Value.det : ∀ {l r r' : List Char} {v v' : Json}, Value l v r → Value l v' r' →
    v = v' ∧ r = r'
  | _, _, _, _, _, .number h hr, h' => by
    subst h
    obtain ⟨rfl, rfl⟩ := h'.of_number hr
    exact ⟨rfl, rfl⟩
  | _, _, _, _, _, h, .number h' hr => by
    subst h'
    exact h.of_number hr
  | _, _, _, _, _, .null, .null => ⟨rfl, rfl⟩
  | _, _, _, _, _, .boolTrue, .boolTrue => ⟨rfl, rfl⟩
  | _, _, _, _, _, .boolFalse, .boolFalse => ⟨rfl, rfl⟩
  | _, _, _, _, _, .string h, .string h' => by
    obtain ⟨rfl, rfl⟩ := h.det h'
    exact ⟨rfl, rfl⟩
  | _, _, _, _, _, .emptyArray h, .emptyArray h' => by
    cases h.symm.trans h'
    exact ⟨rfl, rfl⟩
  | _, _, _, _, _, .emptyArray h, .array hv _ => by
    rw [h] at hv
    exact hv.ne_bracket.elim
  | _, _, _, _, _, .array hv _, .emptyArray h => by
    rw [h] at hv
    exact hv.ne_bracket.elim
  | _, _, _, _, _, .array hv hvs, .array hv' hvs' => by
    obtain ⟨rfl, rfl⟩ := hv.det hv'
    obtain ⟨rfl, rfl⟩ := hvs.det hvs'
    exact ⟨rfl, rfl⟩
  | _, _, _, _, _, .emptyObject h, .emptyObject h' => by
    cases h.symm.trans h'
    exact ⟨rfl, rfl⟩
  | _, _, _, _, _, .emptyObject h, .object hk _ _ _ => by
    rw [h] at hk
    cases hk
  | _, _, _, _, _, .object hk _ _ _, .emptyObject h => by
    rw [h] at hk
    cases hk
  | _, _, _, _, _, .object hk hm hv hms, .object hk' hm' hv' hms' => by
    obtain ⟨rfl, rfl⟩ := hk.det hk'
    cases hm.symm.trans hm'
    obtain ⟨rfl, rfl⟩ := hv.det hv'
    obtain ⟨rfl, rfl⟩ := hms.det hms'
    exact ⟨rfl, rfl⟩

theorem Elements.det : ∀ {l r r' : List Char} {vs vs' : List Json}, Elements l vs r →
    Elements l vs' r' → vs = vs' ∧ r = r'
  | _, _, _, _, _, .done h, .done h' => by
    cases h.symm.trans h'
    exact ⟨rfl, rfl⟩
  | _, _, _, _, _, .done h, .next h' _ _ => by cases h.symm.trans h'
  | _, _, _, _, _, .next h _ _, .done h' => by cases h.symm.trans h'
  | _, _, _, _, _, .next h hv hvs, .next h' hv' hvs' => by
    cases h.symm.trans h'
    obtain ⟨rfl, rfl⟩ := hv.det hv'
    obtain ⟨rfl, rfl⟩ := hvs.det hvs'
    exact ⟨rfl, rfl⟩

theorem Members.det : ∀ {l r r' : List Char} {ms ms' : List (List Char × Json)}, Members l ms r →
    Members l ms' r' → ms = ms' ∧ r = r'
  | _, _, _, _, _, .done h, .done h' => by
    cases h.symm.trans h'
    exact ⟨rfl, rfl⟩
  | _, _, _, _, _, .done h, .next h' _ _ _ _ => by cases h.symm.trans h'
  | _, _, _, _, _, .next h _ _ _ _, .done h' => by cases h.symm.trans h'
  | _, _, _, _, _, .next h hk hm hv hms, .next h' hk' hm' hv' hms' => by
    cases h.symm.trans h'
    obtain ⟨rfl, rfl⟩ := hk.det hk'
    cases hm.symm.trans hm'
    obtain ⟨rfl, rfl⟩ := hv.det hv'
    obtain ⟨rfl, rfl⟩ := hms.det hms'
    exact ⟨rfl, rfl⟩

end

theorem Document.unique {l : List Char} {v v' : Json} (h : Document l v) (h' : Document l v') :
    v = v' := by
  obtain ⟨r, hv, -⟩ := h
  obtain ⟨r', hv', -⟩ := h'
  exact (hv.det hv').1

open Classical in
/-- The value that a text has, if it is a document. -/
noncomputable def reading (l : List Char) : Option Json :=
  if h : ∃ v, Document l v then some h.choose else none

theorem reading_of_document {l : List Char} {v : Json} (h : Document l v) : reading l = some v := by
  have hex : ∃ v, Document l v := ⟨v, h⟩
  rw [reading, dif_pos hex]
  exact congrArg some (hex.choose_spec.unique h)

/-! ## Writing -/

theorem isInt_toDigits (n : ℕ) : IsInt (Nat.toDigits 10 n) where
  digits := ⟨Nat.toDigits_ne_nil, Decimal.all_isDigit_toDigits n⟩
  zero h := by
    obtain ⟨l, hl⟩ := List.head?_eq_some_iff.1 h
    rw [hl]
    by_contra hne
    -- Without the zero before them the digits would do, but they are as few as they can be.
    have hpos : 0 < l.length := List.length_pos_iff.2 fun h => hne (by rw [h])
    have hdigits : l.all Char.isDigit := by
      have hall := Decimal.all_isDigit_toDigits n
      rw [hl, List.all_cons, Bool.and_eq_true] at hall
      exact hall.2
    have hn : n = Decimal.number l := by
      rw [← Decimal.number_toDigits n, hl, Decimal.number_cons, Nat.sub_self, Nat.mul_zero,
        Nat.zero_add]
    have hlt : n < 10 ^ l.length := by
      rw [hn]
      exact Decimal.number_lt hdigits
    have hlen := (Nat.length_toDigits_le_iff (by decide) hpos).2 hlt
    rw [hl, List.length_cons] at hlen
    omega

theorem intercalate_comma (t : List Char) (ts : List (List Char)) :
    [','].intercalate (t :: ts) = t ++ ts.flatMap (',' :: ·) := by
  induction ts generalizing t with
  | nil => simp
  | cons u ts ih =>
    rw [List.intercalate_cons_cons, ih, List.flatMap_cons]
    simp

/-- A natural number in decimal digits. -/
def Number.ofNat (n : ℕ) : Number where
  text := Nat.toDigits 10 n
  isNumber := by simpa using IsNumber.mk (.inl rfl) (isInt_toDigits n) .absent .absent

/-- How a writer writes a character of a string: as one `char` that stands for it, or not at all. -/
structure Escaper where
  char : Char → List Char
  charAt_char : ∀ {c r}, char c ≠ [] → CharAt (char c ++ r) c r

namespace Escaper

variable (E : Escaper)

def keeps (c : Char) : Bool := !(E.char c).isEmpty

/-- The string in quotation marks. -/
def string (s : List Char) : List Char := '"' :: (s.flatMap E.char ++ ['"'])

mutual

/-- The value without a blank. -/
def write : Json → List Char
  | .null => "null".toList
  | .bool true => "true".toList
  | .bool false => "false".toList
  | .number n => n.text
  | .string s => E.string s
  | .array [] => ['[', ']']
  | .array (v :: vs) => '[' :: (write v ++ writeElements vs)
  | .object [] => ['{', '}']
  | .object ((k, v) :: ms) => '{' :: (E.string k ++ ':' :: (write v ++ writeMembers ms))

def writeElements : List Json → List Char
  | [] => [']']
  | v :: vs => ',' :: (write v ++ writeElements vs)

def writeMembers : List (List Char × Json) → List Char
  | [] => ['}']
  | (k, v) :: ms => ',' :: (E.string k ++ ':' :: (write v ++ writeMembers ms))

end

attribute [simp] write writeElements writeMembers

/-- One character after the other, up to the quotation mark. -/
theorem chars_flatMap (r : List Char) :
    ∀ s : List Char, Chars (s.flatMap E.char ++ '"' :: r) (s.filter E.keeps) r
  | [] => .quote
  | c :: s => by
    have ih := chars_flatMap r s
    rw [List.flatMap_cons, List.append_assoc]
    by_cases hc : E.char c = []
    · have hdrop : ¬ E.keeps c := by simp [keeps, hc]
      rw [hc, List.nil_append, List.filter_cons_of_neg hdrop]
      exact ih
    · have hkeep : E.keeps c := by simp [keeps, hc]
      rw [List.filter_cons_of_pos hkeep]
      exact .char (E.charAt_char hc) ih

theorem literal_string (s r : List Char) : Literal (E.string s ++ r) (s.filter E.keeps) r := by
  have hchars := E.chars_flatMap r s
  simpa [string] using Literal.mk hchars

theorem skip_string (s r : List Char) : skip (E.string s ++ r) = E.string s ++ r := rfl

/-- A number ends where the next element, or the end of the array, begins. -/
theorem stops_writeElements (vs : List Json) (r : List Char) : Stops (E.writeElements vs ++ r) := by
  cases vs <;> simp [writeElements, Stops, isNumberChar]

theorem stops_writeMembers (ms : List (List Char × Json)) (r : List Char) :
    Stops (E.writeMembers ms ++ r) := by
  rcases ms with _ | ⟨⟨k, v⟩, ms⟩ <;> simp [writeMembers, Stops, isNumberChar]

mutual

/-- What is written of a value is read as the value with the characters that are kept. -/
theorem value_write : ∀ (v : Json) {r : List Char}, Stops r →
    Value (E.write v ++ r) (v.filterStrings E.keeps) r
  | .null, _, _ => .null
  | .bool true, _, _ => .boolTrue
  | .bool false, _, _ => .boolFalse
  | .number _, _, hr => .number rfl hr
  | .string s, r, _ => by
    have hchars := E.chars_flatMap r s
    simpa [write, string, filterStrings] using Value.string hchars
  | .array [], _, _ => .emptyArray rfl
  | .array (v :: vs), r, _ => by
    have hv := value_write v (E.stops_writeElements vs r)
    have hvs := elements_write vs r
    rw [← hv.skip_eq] at hv
    simpa [write, filterStrings, filterElements] using Value.array hv hvs
  | .object [], _, _ => .emptyObject rfl
  | .object ((k, v) :: ms), r, _ => by
    have hv := value_write v (E.stops_writeMembers ms r)
    have hms := members_write ms r
    have hk := E.literal_string k (':' :: (E.write v ++ (E.writeMembers ms ++ r)))
    rw [← hv.skip_eq] at hv
    rw [← skip_string] at hk
    simpa [write, filterStrings, filterMembers] using Value.object hk rfl hv hms

theorem elements_write : ∀ (vs : List Json) (r : List Char),
    Elements (E.writeElements vs ++ r) (filterElements E.keeps vs) r
  | [], _ => .done rfl
  | v :: vs, r => by
    have hv := value_write v (E.stops_writeElements vs r)
    have hvs := elements_write vs r
    rw [← hv.skip_eq] at hv
    simpa [writeElements, filterElements] using Elements.next rfl hv hvs

theorem members_write : ∀ (ms : List (List Char × Json)) (r : List Char),
    Members (E.writeMembers ms ++ r) (filterMembers E.keeps ms) r
  | [], _ => .done rfl
  | (k, v) :: ms, r => by
    have hv := value_write v (E.stops_writeMembers ms r)
    have hms := members_write ms r
    have hk := E.literal_string k (':' :: (E.write v ++ (E.writeMembers ms ++ r)))
    rw [← hv.skip_eq] at hv
    rw [← skip_string] at hk
    simpa [writeMembers, filterMembers] using Members.next rfl hk rfl hv hms

end

/-- What is written of a value is a document of what is kept of it, and of nothing else. -/
theorem document_write (v w : Json) : Document (E.write v) w ↔ w = v.filterStrings E.keeps := by
  have hstops : Stops [] := by simp [Stops]
  have hv := E.value_write v hstops
  rw [List.append_nil] at hv
  have hdoc : Document (E.write v) (v.filterStrings E.keeps) := ⟨[], by rwa [hv.skip_eq], rfl⟩
  constructor
  · exact fun h => h.unique hdoc
  · rintro rfl
    exact hdoc

theorem writeElements_eq (vs : List Json) :
    E.writeElements vs = (vs.map E.write).flatMap (',' :: ·) ++ [']'] := by
  induction vs with
  | nil => rfl
  | cons v vs ih => simp [writeElements, ih]

/-- The array's elements, joined by commas. -/
theorem write_array (vs : List Json) :
    E.write (.array vs) = '[' :: ([','].intercalate (vs.map E.write) ++ [']']) := by
  cases vs with
  | nil => rfl
  | cons v vs => rw [List.map_cons, intercalate_comma, write, writeElements_eq, List.append_assoc]

/-! ## Control characters -/

variable {E}

def NoControl (l : List Char) : Prop := ∀ c ∈ l, 0x20 ≤ c.toNat

instance (l : List Char) : Decidable (NoControl l) :=
  List.decidableBAll _ l

theorem noControl_append {l m : List Char} : NoControl (l ++ m) ↔ NoControl l ∧ NoControl m :=
  List.forall_mem_append

theorem noControl_cons {c : Char} {l : List Char} :
    NoControl (c :: l) ↔ 0x20 ≤ c.toNat ∧ NoControl l := List.forall_mem_cons

theorem noControl_string (h : ∀ c, NoControl (E.char c)) (s : List Char) :
    NoControl (E.string s) := by
  refine noControl_cons.2 ⟨by decide, noControl_append.2 ⟨?_, by simp [NoControl]⟩⟩
  intro c hc
  obtain ⟨d, -, hd⟩ := List.mem_flatMap.1 hc
  exact h d c hd

theorem noControl_number (n : Number) : NoControl n.text := by
  intro c hc
  have hnum := n.isNumber.all_isNumberChar c hc
  simp only [isNumberChar, Bool.or_eq_true, decide_eq_true_eq] at hnum
  rcases hnum with ((((hd | rfl) | rfl) | rfl) | rfl) | rfl
  · simp only [Char.isDigit, Bool.and_eq_true, decide_eq_true_eq] at hd
    exact le_trans (by decide) (UInt32.le_iff_toNat_le.1 hd.1)
  all_goals decide

mutual

/-- A writer that escapes the control characters writes none. -/
theorem noControl_write (h : ∀ c, NoControl (E.char c)) : ∀ v : Json, NoControl (E.write v)
  | .null => by simp [NoControl]
  | .bool true => by simp [NoControl]
  | .bool false => by simp [NoControl]
  | .number n => noControl_number n
  | .string s => noControl_string h s
  | .array [] => by simp [NoControl]
  | .array (v :: vs) =>
    noControl_cons.2 ⟨by decide,
      noControl_append.2 ⟨noControl_write h v, noControl_writeElements h vs⟩⟩
  | .object [] => by simp [NoControl]
  | .object ((k, v) :: ms) =>
    noControl_cons.2 ⟨by decide, noControl_append.2 ⟨noControl_string h k, noControl_cons.2
      ⟨by decide, noControl_append.2 ⟨noControl_write h v, noControl_writeMembers h ms⟩⟩⟩⟩

theorem noControl_writeElements (h : ∀ c, NoControl (E.char c)) :
    ∀ vs : List Json, NoControl (E.writeElements vs)
  | [] => by simp [NoControl]
  | v :: vs =>
    noControl_cons.2 ⟨by decide,
      noControl_append.2 ⟨noControl_write h v, noControl_writeElements h vs⟩⟩

theorem noControl_writeMembers (h : ∀ c, NoControl (E.char c)) :
    ∀ ms : List (List Char × Json), NoControl (E.writeMembers ms)
  | [] => by simp [NoControl]
  | (k, v) :: ms =>
    noControl_cons.2 ⟨by decide, noControl_append.2 ⟨noControl_string h k, noControl_cons.2
      ⟨by decide, noControl_append.2 ⟨noControl_write h v, noControl_writeMembers h ms⟩⟩⟩⟩

end

end Escaper

/-! ## Nesting -/

mutual

/-- How deep arrays and objects stand in each other. -/
def depth : Json → ℕ
  | null => 0
  | bool _ => 0
  | number _ => 0
  | string _ => 0
  | array vs => depthElements vs + 1
  | object ms => depthMembers ms + 1

def depthElements : List Json → ℕ
  | [] => 0
  | v :: vs => max (depth v) (depthElements vs)

def depthMembers : List (List Char × Json) → ℕ
  | [] => 0
  | (_, v) :: ms => max (depth v) (depthMembers ms)

end

section Depth

variable (keep : Char → Bool)

mutual

@[simp] theorem depth_filterStrings : ∀ v : Json, (v.filterStrings keep).depth = v.depth
  | .null => rfl
  | .bool _ => rfl
  | .number _ => rfl
  | .string _ => rfl
  | .array vs => congrArg (· + 1) (depthElements_filterElements vs)
  | .object ms => congrArg (· + 1) (depthMembers_filterMembers ms)

theorem depthElements_filterElements :
    ∀ vs : List Json, depthElements (filterElements keep vs) = depthElements vs
  | [] => rfl
  | v :: vs => congrArg₂ max (depth_filterStrings v) (depthElements_filterElements vs)

theorem depthMembers_filterMembers :
    ∀ ms : List (List Char × Json), depthMembers (filterMembers keep ms) = depthMembers ms
  | [] => rfl
  | (_, v) :: ms => congrArg₂ max (depth_filterStrings v) (depthMembers_filterMembers ms)

end

theorem depthElements_map_le {α : Type*} {f : α → Json} {n : ℕ} (h : ∀ a, (f a).depth ≤ n) :
    ∀ l : List α, depthElements (l.map f) ≤ n
  | [] => Nat.zero_le n
  | a :: l => max_le (h a) (depthElements_map_le h l)

theorem filterElements_eq (vs : List Json) :
    filterElements keep vs = vs.map (filterStrings keep) := by
  induction vs with
  | nil => rfl
  | cons v vs ih => rw [filterElements, ih, List.map_cons]

theorem filterMembers_eq (ms : List (List Char × Json)) :
    filterMembers keep ms = ms.map fun m => (m.1.filter keep, m.2.filterStrings keep) := by
  induction ms with
  | nil => rfl
  | cons m ms ih => rw [filterMembers, ih, List.map_cons]

end Depth

end Json
