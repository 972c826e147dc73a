import KronMesh.Lib.Decimal
import KronMesh.Lib.Text

/-!
# Responses of HTTP/1.1

A response is a status line, fields, an empty line and a body of as many bytes as the one field
`Content-Length` says. A reader that goes by this reads back what is written of a response whose
texts are printable: `read_write`.
-/

namespace Http

open Decimal Text

structure Response where
  status : ℕ
  reason : List Char
  fields : List (List Char × List Char)
  body : List UInt8

/-! ## Reading -/

/-- A line and what follows its carriage return and line feed. -/
def readLine (l : List UInt8) : Option (List Char × List UInt8) :=
  (splitOnce 10 l).bind fun p =>
    if p.1.getLast? = some 13 then some (p.1.dropLast.map Char.ofUInt8, p.2) else none

def version : List Char := ['H', 'T', 'T', 'P', '/', '1', '.', '1', ' ']

/-- The status and the reason. -/
def readStatus (line : List Char) : Option (ℕ × List Char) :=
  (stripPrefix version line).bind fun
    | a :: b :: c :: ' ' :: reason =>
      if [a, b, c].all Char.isDigit then some (number [a, b, c], reason) else none
    | _ => none

/-- `tchar`. -/
def isTokenChar (c : Char) : Bool :=
  (48 ≤ c.toNat && c.toNat ≤ 57) || (65 ≤ c.toNat && c.toNat ≤ 90)
    || (97 ≤ c.toNat && c.toNat ≤ 122)
    || [33, 35, 36, 37, 38, 39, 42, 43, 45, 46, 94, 95, 96, 124, 126].contains c.toNat

def isBlank (c : Char) : Bool := c = ' ' || c = '\t'

/-- A name, and the value without the blanks around it. -/
def readField (line : List Char) : Option (List Char × List Char) :=
  (splitOnce ':' line).bind fun p =>
    if p.1 ≠ [] ∧ p.1.all isTokenChar then some (p.1, trim isBlank p.2) else none

/-- The fields up to the empty line, and what follows it. -/
def readFields : ℕ → List UInt8 → Option (List (List Char × List Char) × List UInt8)
  | 0, _ => none
  | fuel + 1, l => do
    let (line, l) ← readLine l
    if line = [] then return ([], l)
    let f ← readField line
    let (fields, body) ← readFields fuel l
    return (f :: fields, body)

/-- The values of a field; a name may be written in either case. -/
def valuesOf (name : List Char) (fields : List (List Char × List Char)) : List (List Char) :=
  (fields.filter fun f => f.1.map Char.toLower = name).map Prod.snd

/-- The length of the body, where it is given once. -/
def contentLength (fields : List (List Char × List Char)) : Option ℕ :=
  match valuesOf "content-length".toList fields with
  | [v] => if v ≠ [] ∧ v.all Char.isDigit then some (number v) else none
  | _ => none

/-- The response that is all of `l`. -/
def read (l : List UInt8) : Option Response := do
  let (line, l) ← readLine l
  let (status, reason) ← readStatus line
  let (fields, body) ← readFields (l.length + 1) l
  let n ← contentLength fields
  if n = body.length then return ⟨status, reason, fields, body⟩ else none

/-! ## Writing -/

def ascii (l : List Char) : List UInt8 := l.map fun c => UInt8.ofNat c.toNat

/-- A line with its end. -/
def line (l : List Char) : List UInt8 := ascii l ++ [13, 10]

def statusLine (r : Response) : List Char :=
  version ++ (Nat.toDigits 10 r.status ++ ' ' :: r.reason)

def fieldLine (f : List Char × List Char) : List Char := f.1 ++ ':' :: ' ' :: f.2

def crlf : List Char := ['\r', '\n']

/-- The lines before the body, with the empty one. -/
def head (r : Response) : List Char :=
  (statusLine r :: r.fields.map fieldLine).flatMap (· ++ crlf) ++ crlf

def write (r : Response) : List UInt8 := ascii (head r) ++ r.body

/-- What may stand in a line. -/
def IsPrintable (c : Char) : Prop := 32 ≤ c.toNat ∧ c.toNat < 127

instance (c : Char) : Decidable (IsPrintable c) := inferInstanceAs (Decidable (_ ∧ _))

/-- A name is a token, and a value is printable, with no blank at either end. -/
structure IsField (f : List Char × List Char) : Prop where
  ne_nil : f.1 ≠ []
  token : f.1.all isTokenChar = true
  printable : ∀ c ∈ f.2, IsPrintable c
  trimmed : trim isBlank f.2 = f.2

structure Response.WellFormed (r : Response) : Prop where
  status : 100 ≤ r.status ∧ r.status < 1000
  reason : ∀ c ∈ r.reason, IsPrintable c
  fields : ∀ f ∈ r.fields, IsField f
  length : contentLength r.fields = some r.body.length

/-! ## Lines read back -/

variable {l : List Char} {rest : List UInt8} {r : Response} {f : List Char × List Char}

theorem ofUInt8_ofNat {c : Char} (h : IsPrintable c) : Char.ofUInt8 (UInt8.ofNat c.toNat) = c := by
  have hlt : c.toNat < 256 := by have := h.2; omega
  refine Char.ext (UInt32.toNat_inj.1 ?_)
  change (UInt8.ofNat c.toNat).toUInt32.toNat = c.toNat
  rw [UInt8.toNat_toUInt32, UInt8.toNat_ofNat_of_lt' hlt]

theorem map_ofUInt8_ascii (h : ∀ c ∈ l, IsPrintable c) : (ascii l).map Char.ofUInt8 = l := by
  have hall : ∀ c ∈ l, (Char.ofUInt8 ∘ fun c => UInt8.ofNat c.toNat) c = c :=
    fun c hc => ofUInt8_ofNat (h c hc)
  rw [ascii, List.map_map]
  exact (List.map_congr_left hall).trans (List.map_id' l)

theorem notMem_ascii {n : ℕ} (hn : n < 32) (h : ∀ c ∈ l, IsPrintable c) :
    UInt8.ofNat n ∉ ascii l := by
  intro hm
  obtain ⟨c, hc, heq⟩ := List.mem_map.1 hm
  obtain ⟨hlow, hhigh⟩ := h c hc
  have hcode := congrArg UInt8.toNat heq
  have hsize : UInt8.size = 256 := rfl
  rw [UInt8.toNat_ofNat_of_lt' (by omega), UInt8.toNat_ofNat_of_lt' (by omega)] at hcode
  omega

theorem readLine_line (h : ∀ c ∈ l, IsPrintable c) :
    readLine (line l ++ rest) = some (l, rest) := by
  have hno : (10 : UInt8) ∉ ascii l ++ [13] := by
    rw [List.mem_append, List.mem_singleton, not_or]
    exact ⟨notMem_ascii (by decide : 10 < 32) h, by decide⟩
  have hsplit : splitOnce 10 (line l ++ rest) = some (ascii l ++ [13], rest) :=
    splitOnce_eq_some.2 ⟨by simp [line], hno⟩
  rw [readLine, hsplit, Option.bind_some]
  simp [map_ofUInt8_ascii h]

theorem isTokenChar_spec {c : Char} (h : isTokenChar c = true) : IsPrintable c ∧ c ≠ ':' := by
  have hcolon : c.toNat ≠ 58 → c ≠ ':' := fun hne heq => hne (heq ▸ rfl)
  simp only [isTokenChar, Bool.or_eq_true, Bool.and_eq_true, decide_eq_true_eq,
    List.contains_iff_mem, List.mem_cons, List.not_mem_nil, or_false] at h
  unfold IsPrintable
  exact ⟨by omega, hcolon (by omega)⟩

theorem printable_of_isDigit {c : Char} (h : c.isDigit = true) : IsPrintable c := by
  simp only [Char.isDigit, Bool.and_eq_true, decide_eq_true_eq] at h
  have hlow : 48 ≤ c.toNat := UInt32.le_iff_toNat_le.1 h.1
  have hhigh : c.toNat ≤ 57 := UInt32.le_iff_toNat_le.1 h.2
  exact ⟨by omega, by omega⟩

theorem IsField.printable_fieldLine (h : IsField f) : ∀ c ∈ fieldLine f, IsPrintable c := by
  intro c hc
  rw [fieldLine, List.mem_append, List.mem_cons, List.mem_cons] at hc
  rcases hc with hc | rfl | rfl | hc
  · exact (isTokenChar_spec (List.all_eq_true.1 h.token c hc)).1
  · decide
  · decide
  · exact h.printable c hc

theorem IsField.fieldLine_ne_nil (h : IsField f) : fieldLine f ≠ [] := by
  rw [fieldLine]
  exact List.append_ne_nil_of_left_ne_nil h.ne_nil _

theorem readField_fieldLine (h : IsField f) : readField (fieldLine f) = some f := by
  have hno : ':' ∉ f.1 := fun hm => (isTokenChar_spec (List.all_eq_true.1 h.token _ hm)).2 rfl
  have hsplit : splitOnce ':' (fieldLine f) = some (f.1, ' ' :: f.2) :=
    splitOnce_eq_some.2 ⟨rfl, hno⟩
  have htrim : trim isBlank (' ' :: f.2) = f.2 := by
    have hdrop : trim isBlank (' ' :: f.2) = trim isBlank f.2 := rfl
    rw [hdrop, h.trimmed]
  rw [readField, hsplit, Option.bind_some, if_pos ⟨h.ne_nil, h.token⟩, htrim]

theorem readFields_write {body : List UInt8} : ∀ {fields : List (List Char × List Char)} {fuel : ℕ},
    (∀ f ∈ fields, IsField f) → fields.length < fuel →
      readFields fuel (fields.flatMap (fun f => line (fieldLine f)) ++ (line [] ++ body))
        = some (fields, body)
  | _, 0, _, hfuel => absurd hfuel (Nat.not_lt_zero _)
  | [], fuel + 1, _, _ => by
    have hline : readLine (line [] ++ body) = some ([], body) := readLine_line nofun
    rw [List.flatMap_nil, List.nil_append, readFields, hline]
    rfl
  | f :: fields, fuel + 1, h, hfuel => by
    obtain ⟨hf, hrest⟩ := List.forall_mem_cons.1 h
    have hih := @readFields_write body fields fuel hrest (Nat.lt_of_succ_lt_succ hfuel)
    rw [List.flatMap_cons, List.append_assoc, readFields, readLine_line hf.printable_fieldLine]
    simp only [Option.bind_eq_bind, Option.bind_some, if_neg hf.fieldLine_ne_nil,
      readField_fieldLine hf, hih]
    rfl

theorem length_toDigits {n : ℕ} (h : 100 ≤ n ∧ n < 1000) : (Nat.toDigits 10 n).length = 3 := by
  have hle : (Nat.toDigits 10 n).length ≤ 3 ↔ n < 10 ^ 3 :=
    Nat.length_toDigits_le_iff (by decide) (by decide)
  have hlt : (Nat.toDigits 10 n).length ≤ 2 ↔ n < 10 ^ 2 :=
    Nat.length_toDigits_le_iff (by decide) (by decide)
  omega

theorem readStatus_statusLine (h : 100 ≤ r.status ∧ r.status < 1000) :
    readStatus (statusLine r) = some (r.status, r.reason) := by
  obtain ⟨a, b, c, habc⟩ := List.length_eq_three.1 (length_toDigits h)
  have hdigits := all_isDigit_toDigits r.status
  have hnumber := number_toDigits r.status
  rw [habc] at hdigits hnumber
  rw [readStatus, statusLine, stripPrefix_append, Option.bind_some, habc]
  change (if [a, b, c].all Char.isDigit then some (number [a, b, c], r.reason) else none) = _
  rw [if_pos hdigits, hnumber]

theorem printable_statusLine (h : ∀ c ∈ r.reason, IsPrintable c) :
    ∀ c ∈ statusLine r, IsPrintable c := by
  intro c hc
  rw [statusLine, List.mem_append, List.mem_append, List.mem_cons] at hc
  rcases hc with hc | hc | rfl | hc
  · have hall : version.Forall IsPrintable := by decide
    exact List.forall_iff_forall_mem.1 hall c hc
  · exact printable_of_isDigit (List.all_eq_true.1 (all_isDigit_toDigits r.status) c hc)
  · decide
  · exact h c hc

section Values

variable {name : List Char} {fields : List (List Char × List Char)}

theorem valuesOf_cons_of_eq (h : f.1.map Char.toLower = name) :
    valuesOf name (f :: fields) = f.2 :: valuesOf name fields := by
  simp [valuesOf, h]

theorem valuesOf_cons_of_ne (h : f.1.map Char.toLower ≠ name) :
    valuesOf name (f :: fields) = valuesOf name fields := by
  simp [valuesOf, h]

/-- A length in decimal digits. -/
theorem contentLength_of_digits {n : ℕ}
    (h : valuesOf "content-length".toList fields = [Nat.toDigits 10 n]) :
    contentLength fields = some n := by
  rw [contentLength, h]
  dsimp only
  rw [if_pos ⟨Nat.toDigits_ne_nil, all_isDigit_toDigits n⟩, number_toDigits]

end Values

theorem length_fields_le (fields : List (List Char × List Char)) :
    fields.length ≤ (fields.flatMap fun f => line (fieldLine f)).length := by
  induction fields with
  | nil => exact Nat.zero_le _
  | cons f fields ih =>
    rw [List.length_cons, List.flatMap_cons, List.length_append, line, List.length_append]
    simp only [List.length_cons, List.length_nil]
    omega

theorem ascii_append (l m : List Char) : ascii (l ++ m) = ascii l ++ ascii m := List.map_append

theorem ascii_flatMap_crlf (ls : List (List Char)) :
    ascii (ls.flatMap (· ++ crlf)) = ls.flatMap line := by
  induction ls with
  | nil => rfl
  | cons l ls ih =>
    rw [List.flatMap_cons, List.flatMap_cons, ascii_append, ascii_append, ih]
    rfl

theorem write_eq (r : Response) : write r = line (statusLine r)
    ++ (r.fields.flatMap (fun f => line (fieldLine f)) ++ (line [] ++ r.body)) := by
  rw [write, head, ascii_append, ascii_flatMap_crlf, List.flatMap_cons, List.flatMap_map,
    List.append_assoc, List.append_assoc]
  rfl

/-- What is written of a response is read back as it, to the last byte of its body. -/
theorem read_write (h : r.WellFormed) : read (write r) = some r := by
  have hfuel : r.fields.length
      < (r.fields.flatMap (fun f => line (fieldLine f)) ++ (line [] ++ r.body)).length + 1 := by
    have hle := length_fields_le r.fields
    rw [List.length_append]
    omega
  rw [read, write_eq, readLine_line (printable_statusLine h.reason)]
  simp only [Option.bind_eq_bind, Option.bind_some, readStatus_statusLine h.status,
    readFields_write h.fields hfuel, h.length, if_true]
  rfl

/-! ## The body behind the empty line -/

theorem not_emptyLine_of_ne {c : Char} {l : List Char} (hc : c ≠ '\r') :
    ¬ crlf ++ crlf <+: '\r' :: '\n' :: c :: l := by
  simp [crlf, List.cons_prefix_cons, Ne.symm hc]

theorem skip_crlf {w l : List Char} (h : '\r' ∉ w) : splitText (crlf ++ crlf) (w ++ l)
    = (splitText (crlf ++ crlf) l).map fun p => (w ++ p.1, p.2) := splitText_skip h

/-- Lines that are not empty have no empty line before the one behind them. -/
theorem splitText_lines {rest : List Char} : ∀ {ls : List (List Char)}, ls ≠ [] →
    (∀ w ∈ ls, w ≠ [] ∧ '\r' ∉ w) →
      ∃ pre, splitText (crlf ++ crlf) (ls.flatMap (· ++ crlf) ++ (crlf ++ rest)) = some (pre, rest)
  | [], hne, _ => absurd rfl hne
  | [w], _, h => by
    have hw := (h w List.mem_cons_self).2
    have htext : [w].flatMap (· ++ crlf) ++ (crlf ++ rest) = w ++ ((crlf ++ crlf) ++ rest) := by
      simp
    rw [htext, skip_crlf hw, splitText_append]
    exact ⟨_, rfl⟩
  | w :: w' :: ls, _, h => by
    obtain ⟨hw, hrest⟩ := List.forall_mem_cons.1 h
    obtain ⟨pre, hpre⟩ := @splitText_lines rest _ (List.cons_ne_nil w' ls) hrest
    obtain ⟨hne', hcr'⟩ := hrest w' List.mem_cons_self
    obtain ⟨c, w'', rfl⟩ := List.exists_cons_of_ne_nil hne'
    have hc : c ≠ '\r' := fun heq => hcr' (heq ▸ List.mem_cons_self)
    generalize htail : ((c :: w'') :: ls).flatMap (· ++ crlf) ++ (crlf ++ rest) = tail at hpre
    have hhead : ∃ tail', tail = c :: tail' := ⟨_, htail.symm⟩
    obtain ⟨tail', rfl⟩ := hhead
    have htext : (w :: (c :: w'') :: ls).flatMap (· ++ crlf) ++ (crlf ++ rest)
        = w ++ '\r' :: '\n' :: c :: tail' := by
      rw [List.flatMap_cons, List.append_assoc, htail, List.append_assoc]
      rfl
    have hlf : ¬ crlf ++ crlf <+: '\n' :: c :: tail' := by simp [crlf, List.cons_prefix_cons]
    rw [htext, skip_crlf hw.2, splitText_cons (not_emptyLine_of_ne hc), splitText_cons hlf, hpre]
    exact ⟨_, rfl⟩

/-- The head is in ASCII. -/
theorem Response.WellFormed.lt_head (h : r.WellFormed) : ∀ c ∈ head r, c.toNat < 128 := by
  have hprint : ∀ {w : List Char}, (∀ c ∈ w, IsPrintable c) → ∀ c ∈ w, c.toNat < 128 :=
    fun hw c hc => (hw c hc).2.trans (by decide)
  have hcrlf : ∀ c ∈ crlf, c.toNat < 128 := List.forall_iff_forall_mem.1 (by decide)
  have hlines : ∀ w ∈ statusLine r :: r.fields.map fieldLine, ∀ c ∈ w, IsPrintable c := by
    refine List.forall_mem_cons.2 ⟨printable_statusLine h.reason, fun w hw => ?_⟩
    obtain ⟨f, hf, rfl⟩ := List.mem_map.1 hw
    exact (h.fields f hf).printable_fieldLine
  intro c hc
  rw [head, List.mem_append, List.mem_flatMap] at hc
  rcases hc with ⟨w, hw, hc⟩ | hc
  · rcases List.mem_append.1 hc with hc | hc
    · exact hprint (hlines w hw) c hc
    · exact hcrlf c hc
  · exact hcrlf c hc

theorem Response.WellFormed.splitText_head (h : r.WellFormed) (rest : List Char) :
    ∃ pre, splitText (crlf ++ crlf) (head r ++ rest) = some (pre, rest) := by
  have hcr : ∀ {w : List Char}, (∀ c ∈ w, IsPrintable c) → '\r' ∉ w :=
    fun hw hm => absurd (hw _ hm).1 (by decide)
  rw [head, List.append_assoc]
  refine splitText_lines (List.cons_ne_nil _ _) (List.forall_mem_cons.2 ⟨?_, fun w hw => ?_⟩)
  · exact ⟨List.cons_ne_nil _ _, hcr (printable_statusLine h.reason)⟩
  · obtain ⟨f, hf, rfl⟩ := List.mem_map.1 hw
    exact ⟨(h.fields f hf).fieldLine_ne_nil, hcr (h.fields f hf).printable_fieldLine⟩

end Http
