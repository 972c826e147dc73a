import Mathlib.Algebra.GroupWithZero.Nat
import Mathlib.Data.List.TakeDrop
import Mathlib.Tactic.Common

/-!
# Pieces of a text

A text is a list of characters. It is trimmed at both ends, split at a separator or into words, and
a prefix is taken off it.
-/

namespace Text

variable {α : Type*}

/-- Without what satisfies `p` at either end. -/
def trim (p : α → Bool) (l : List α) : List α :=
  ((l.dropWhile p).reverse.dropWhile p).reverse

theorem trim_of_none {p : α → Bool} {l : List α} (h : ∀ c ∈ l, p c = false) : trim p l = l := by
  have hid : ∀ {l : List α}, (∀ c ∈ l, p c = false) → l.dropWhile p = l := by
    intro l hl
    rcases l with _ | ⟨c, l⟩
    · rfl
    · rw [List.dropWhile_cons_of_neg (by rw [hl c List.mem_cons_self]; decide)]
  rw [trim, hid h, hid fun c hc => h c (List.mem_reverse.1 hc), List.reverse_reverse]

theorem mem_of_mem_trim {p : α → Bool} {l : List α} {c : α} (h : c ∈ trim p l) : c ∈ l :=
  (List.dropWhile_sublist p).subset
    (List.mem_reverse.1 ((List.dropWhile_sublist p).subset (List.mem_reverse.1 h)))

/-- The pieces between what satisfies `p`, without the empty ones. -/
def words (p : α → Bool) (l : List α) : List (List α) := (l.splitOnP p).filter fun w => !w.isEmpty

theorem words_append_cons {p : α → Bool} {w : List α} (hw : ∀ c ∈ w, p c = false) (hne : w ≠ [])
    {sep : α} (hsep : p sep = true) (l : List α) : words p (w ++ sep :: l) = w :: words p l := by
  have hkeep : (!w.isEmpty) = true := by simpa using hne
  rw [words, List.splitOnP_append_cons_of_forall_mem hw sep hsep,
    List.filter_cons, if_pos hkeep, words]

/-- `str::len`: the bytes of the UTF-8 text. -/
def byteLen (l : List Char) : ℕ := (l.map Char.utf8Size).sum

theorem byteLen_of_ascii {l : List Char} (h : ∀ c ∈ l, c.val ≤ 0x7f) : byteLen l = l.length := by
  induction l with
  | nil => rfl
  | cons c l ih =>
    have hc : c.utf8Size = 1 := if_pos (h c List.mem_cons_self)
    rw [byteLen, List.map_cons, List.sum_cons, hc, List.length_cons, Nat.add_comm]
    exact congrArg (· + 1) (ih fun d hd => h d (List.mem_cons_of_mem c hd))

variable [DecidableEq α]

/-- What is before and after the first separator. -/
def splitOnce (sep : α) : List α → Option (List α × List α)
  | [] => none
  | c :: l => if c = sep then some ([], l) else (splitOnce sep l).map fun p => (c :: p.1, p.2)

theorem splitOnce_eq_some {sep : α} {a b : List α} : ∀ {l : List α},
    splitOnce sep l = some (a, b) ↔ l = a ++ sep :: b ∧ sep ∉ a
  | [] => by simp [splitOnce]
  | c :: l => by
    rw [splitOnce]
    split_ifs with hc
    · subst hc
      constructor
      · rintro h
        cases h
        exact ⟨rfl, List.not_mem_nil⟩
      · rintro ⟨h, hnot⟩
        rcases a with _ | ⟨c', a⟩
        · cases h
          rfl
        · cases h
          exact absurd List.mem_cons_self hnot
    · rw [Option.map_eq_some_iff]
      constructor
      · rintro ⟨⟨a', b'⟩, h, heq⟩
        cases heq
        obtain ⟨rfl, hnot⟩ := splitOnce_eq_some.1 h
        refine ⟨rfl, fun hm => ?_⟩
        rcases List.mem_cons.1 hm with rfl | hm
        · exact hc rfl
        · exact hnot hm
      · rintro ⟨h, hnot⟩
        rcases a with _ | ⟨c', a⟩
        · cases h
          exact absurd rfl hc
        · cases h
          exact ⟨(a, b), splitOnce_eq_some.2 ⟨rfl, fun hm => hnot (List.mem_cons_of_mem _ hm)⟩, rfl⟩

theorem splitOnce_eq_none {sep : α} {l : List α} : splitOnce sep l = none ↔ sep ∉ l := by
  induction l with
  | nil => simp [splitOnce]
  | cons c l ih =>
    rw [splitOnce]
    split_ifs with hc
    · simp [hc]
    · rw [Option.map_eq_none_iff, ih, List.mem_cons, not_or]
      exact ⟨fun h => ⟨Ne.symm hc, h⟩, And.right⟩

/-- `lines().next()`: what is before the first line feed, without a carriage return before it. -/
def firstLine (l : List Char) : Option (List Char) :=
  if l.isEmpty then none
  else
    match splitOnce '\n' l with
    | some (line, _) => some (if line.getLast? = some '\r' then line.dropLast else line)
    | none => some l

theorem firstLine_crlf {line rest : List Char} (h : '\n' ∉ line) :
    firstLine (line ++ '\r' :: '\n' :: rest) = some line := by
  have hsplit : splitOnce '\n' (line ++ '\r' :: '\n' :: rest) = some (line ++ ['\r'], rest) := by
    refine splitOnce_eq_some.2 ⟨by simp, fun hm => ?_⟩
    rcases List.mem_append.1 hm with hm | hm
    · exact h hm
    · exact absurd hm (by decide)
  have hne : ¬ (line ++ '\r' :: '\n' :: rest).isEmpty := by simp
  rw [firstLine, if_neg hne, hsplit]
  simp

/-- `strip_prefix`. -/
def stripPrefix (pre l : List α) : Option (List α) :=
  if pre.isPrefixOf l then some (l.drop pre.length) else none

theorem stripPrefix_append (pre l : List α) : stripPrefix pre (pre ++ l) = some l := by
  rw [stripPrefix, if_pos (List.isPrefixOf_iff_prefix.2 (List.prefix_append pre l)),
    List.drop_left]

theorem stripPrefix_eq_none {pre l : List α} (h : ¬ pre <+: l) : stripPrefix pre l = none :=
  if_neg (mt List.isPrefixOf_iff_prefix.1 h)

/-! ## A text between others -/

/-- What is before and behind the first place where `sep` stands. -/
def splitText (sep : List α) : List α → Option (List α × List α)
  | [] => if sep = [] then some ([], []) else none
  | c :: l =>
    match stripPrefix sep (c :: l) with
    | some rest => some ([], rest)
    | none => (splitText sep l).map fun p => (c :: p.1, p.2)

/-- `split(sep).nth(1)`. -/
def splitSecond (sep l : List α) : Option (List α) :=
  (splitText sep l).map fun p => ((splitText sep p.2).map Prod.fst).getD p.2

section Split

variable {sep l pre rest w : List α} {s : α}

theorem splitText_append (sep : List α) (l : List α) :
    splitText sep (sep ++ l) = some ([], l) := by
  rcases sep with _ | ⟨c, sep⟩
  · cases l with
    | nil => rfl
    | cons c l => rfl
  · have hstrip := stripPrefix_append (c :: sep) l
    rw [List.cons_append] at hstrip ⊢
    rw [splitText, hstrip]

theorem splitText_cons {c : α} (h : ¬ sep <+: c :: l) :
    splitText sep (c :: l) = (splitText sep l).map fun p => (c :: p.1, p.2) := by
  rw [splitText, stripPrefix_eq_none h]

/-- A text does not stand where its first character does not. -/
theorem splitText_skip (h : s ∉ w) : splitText (s :: sep) (w ++ l)
    = (splitText (s :: sep) l).map fun p => (w ++ p.1, p.2) := by
  induction w with
  | nil => exact Option.map_id'.symm
  | cons c w ih =>
    obtain ⟨hc, hw⟩ := not_or.1 (mt List.mem_cons.2 h)
    have hno : ¬ s :: sep <+: c :: (w ++ l) := fun hp => hc (List.cons_prefix_cons.1 hp).1
    rw [List.cons_append, splitText_cons hno, ih hw, Option.map_map]
    rfl

theorem splitText_eq_none (h : s ∉ l) : splitText (s :: sep) l = none := by
  have hskip : splitText (s :: sep) (l ++ []) = _ := splitText_skip h
  rw [List.append_nil] at hskip
  rw [hskip]
  rfl

/-- What is behind the first place is all of the rest when `sep` does not stand there again. -/
theorem splitSecond_eq (h : splitText sep l = some (pre, rest))
    (hrest : splitText sep rest = none) :
    splitSecond sep l = some rest := by
  rw [splitSecond, h, Option.map_some, hrest]
  rfl

end Split

end Text
