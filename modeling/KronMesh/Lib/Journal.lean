import Mathlib.Data.List.Basic
import Mathlib.Tactic.Common

/-!
# A journal of records

Records are written one behind the other, and read back one by one until none can be read. What is
read of a journal with something behind it is the journal and what is read of the rest
(`read_log_append`). So nothing behind a place where no record can be read is ever read
(`read_torn`).
-/

namespace Journal

variable {α β : Type*}

/-- Records read one after the other; the first argument bounds how many. -/
def scan (next : List β → Option (α × List β)) : ℕ → List β → List α
  | 0, _ => []
  | fuel + 1, bytes =>
    match next bytes with
    | some (a, rest) => a :: scan next fuel rest
    | none => []

/-- All records that can be read: each takes something, so the length bounds how many there are. -/
def read (next : List β → Option (α × List β)) (bytes : List β) : List α :=
  scan next (bytes.length + 1) bytes

/-- The records of `xs`, one behind the other. -/
def log (record : α → List β) (xs : List α) : List β := xs.flatMap record

/-- A reader reads a record where it stands, whatever is behind it, and never reads nothing. -/
structure Reads (next : List β → Option (α × List β)) (record : α → List β) (Ok : α → Prop) :
    Prop where
  next_record : ∀ a rest, Ok a → next (record a ++ rest) = some (a, rest)
  shrinks : ∀ {bytes a rest}, next bytes = some (a, rest) → rest.length < bytes.length

variable {next : List β → Option (α × List β)} {record : α → List β} {Ok : α → Prop}

theorem scan_succ_of_some {fuel : ℕ} {bytes rest : List β} {a : α}
    (h : next bytes = some (a, rest)) : scan next (fuel + 1) bytes = a :: scan next fuel rest := by
  rw [scan, h]

theorem scan_of_none {fuel : ℕ} {bytes : List β} (h : next bytes = none) :
    scan next (fuel + 1) bytes = [] := by
  rw [scan, h]

/-- A bound beyond the length changes nothing. -/
theorem Reads.scan_fuel (hr : Reads next record Ok) : ∀ {fuel : ℕ} {bytes : List β},
    bytes.length < fuel → scan next fuel bytes = read next bytes
  | 0, _, h => absurd h (Nat.not_lt_zero _)
  | fuel + 1, bytes, h => by
    unfold read
    rcases hn : next bytes with _ | ⟨a, rest⟩
    · rw [scan_of_none hn, scan_of_none hn]
    · have hlt := hr.shrinks hn
      rw [scan_succ_of_some hn, scan_succ_of_some hn, hr.scan_fuel (by omega),
        hr.scan_fuel (by omega)]

theorem Reads.read_of_some (hr : Reads next record Ok) {bytes rest : List β} {a : α}
    (h : next bytes = some (a, rest)) : read next bytes = a :: read next rest := by
  unfold read
  rw [scan_succ_of_some h, hr.scan_fuel (hr.shrinks h)]
  rfl

theorem read_of_none {bytes : List β} (h : next bytes = none) : read next bytes = [] :=
  scan_of_none h

@[simp] theorem log_nil : log record ([] : List α) = [] := rfl

theorem log_cons (a : α) (xs : List α) : log record (a :: xs) = record a ++ log record xs :=
  List.flatMap_cons

/-- What is read of a journal with something behind it. -/
theorem Reads.read_log_append (hr : Reads next record Ok) : ∀ {xs : List α} (rest : List β),
    (∀ a ∈ xs, Ok a) → read next (log record xs ++ rest) = xs ++ read next rest
  | [], _, _ => rfl
  | a :: xs, rest, h => by
    obtain ⟨ha, h⟩ := List.forall_mem_cons.1 h
    have hn : next (log record (a :: xs) ++ rest) = some (a, log record xs ++ rest) := by
      rw [log_cons, List.append_assoc]
      exact hr.next_record a _ ha
    rw [hr.read_of_some hn, hr.read_log_append rest h, List.cons_append]

/-- Behind a place where no record can be read, none is read. -/
theorem Reads.read_torn (hr : Reads next record Ok) {xs : List α} {rest : List β}
    (h : ∀ a ∈ xs, Ok a) (hrest : next rest = none) : read next (log record xs ++ rest) = xs := by
  rw [hr.read_log_append rest h, read_of_none hrest, List.append_nil]

/-- A journal is read back, since no record is read of nothing. -/
theorem Reads.read_log (hr : Reads next record Ok) {xs : List α} (h : ∀ a ∈ xs, Ok a) :
    read next (log record xs) = xs := by
  have hnil : next [] = none := by
    rcases hn : next [] with _ | ⟨a, rest⟩
    · rfl
    · exact absurd (hr.shrinks hn) (Nat.not_lt_zero _)
  have hread := hr.read_torn h hnil
  rwa [List.append_nil] at hread

end Journal
