import Mathlib.Logic.Function.Basic
import Mathlib.Tactic.Common

/-!
# Files under names

What the files of a directory hold, and the operations of a file system on them. A file is archived
by a copy, after which it is removed, and replaced by one that is written aside and renamed.
-/

/-- The content of the file of each name. -/
abbrev Files (κ β : Type*) := κ → Option β

namespace Files

variable {κ β α : Type*} [DecidableEq κ]

def write (fs : Files κ β) (n : κ) (b : β) : Files κ β := Function.update fs n (some b)

def remove (fs : Files κ β) (n : κ) : Files κ β := Function.update fs n none

/-- Over the file that is there. -/
def copy (fs : Files κ β) (src dst : κ) : Files κ β :=
  match fs src with
  | some b => fs.write dst b
  | none => fs

/-- Over the file that is there. -/
def rename (fs : Files κ β) (src dst : κ) : Files κ β :=
  match fs src with
  | some b => (fs.remove src).write dst b
  | none => fs

/-- A file of one of the names is read as `a`. -/
def Holds (fs : Files κ β) (names : κ → Prop) (read : β → Option α) (a : α) : Prop :=
  ∃ n, names n ∧ ∃ b, fs n = some b ∧ read b = some a

section

variable {fs : Files κ β} {n src dst : κ} {b : β}

@[simp] theorem write_self : fs.write n b n = some b := Function.update_self ..

@[simp] theorem remove_self : fs.remove n n = none := Function.update_self ..

theorem write_of_ne {m : κ} (h : m ≠ n) : fs.write n b m = fs m := Function.update_of_ne h ..

theorem remove_of_ne {m : κ} (h : m ≠ n) : fs.remove n m = fs m := Function.update_of_ne h ..

theorem copy_of_some (h : fs src = some b) : fs.copy src dst = fs.write dst b := by
  rw [copy, h]

/-- What is written aside and renamed replaces the file, and nothing stays behind. -/
theorem rename_write {tmp : κ} :
    (fs.write tmp b).rename tmp dst = (fs.remove tmp).write dst b := by
  have haside : (fs.write tmp b).remove tmp = fs.remove tmp := by
    rw [remove, remove, write, Function.update_idem]
  rw [rename, write_self]
  exact congrArg (write · dst b) haside

/-- To replace a file twice is to replace it once. -/
theorem rename_write_idem {tmp : κ} (h : tmp ≠ dst) (b' : β) :
    (((fs.write tmp b').rename tmp dst).write tmp b).rename tmp dst
      = (fs.write tmp b).rename tmp dst := by
  have hswap : ((fs.remove tmp).write dst b').remove tmp = (fs.remove tmp).write dst b' := by
    funext m
    by_cases hm : m = tmp
    · subst hm
      rw [remove_self, write_of_ne h, remove_self]
    · rw [remove_of_ne hm]
  rw [rename_write, rename_write, rename_write, hswap, write, write, write, Function.update_idem]

end

section Holds

variable {fs : Files κ β} {names : κ → Prop} {read : β → Option α} {n : κ} {a : α} {b : β}

theorem holds_write : (fs.write n b).Holds names read a
    ↔ (names n ∧ read b = some a) ∨ fs.Holds (fun m => names m ∧ m ≠ n) read a := by
  constructor
  · rintro ⟨m, hm, b', hb', ha⟩
    by_cases hn : m = n
    · subst hn
      rw [write_self] at hb'
      cases hb'
      exact .inl ⟨hm, ha⟩
    · rw [write_of_ne hn] at hb'
      exact .inr ⟨m, ⟨hm, hn⟩, b', hb', ha⟩
  · rintro (⟨hn, ha⟩ | ⟨m, ⟨hm, hn⟩, b', hb', ha⟩)
    · exact ⟨n, hn, b, write_self, ha⟩
    · exact ⟨m, hm, b', (write_of_ne hn).trans hb', ha⟩

theorem holds_remove : (fs.remove n).Holds names read a
    ↔ fs.Holds (fun m => names m ∧ m ≠ n) read a := by
  constructor
  · rintro ⟨m, hm, b, hb, ha⟩
    by_cases hn : m = n
    · subst hn
      rw [remove_self] at hb
      cases hb
    · rw [remove_of_ne hn] at hb
      exact ⟨m, ⟨hm, hn⟩, b, hb, ha⟩
  · rintro ⟨m, ⟨hm, hn⟩, b, hb, ha⟩
    exact ⟨m, hm, b, (remove_of_ne hn).trans hb, ha⟩

omit [DecidableEq κ] in
theorem Holds.mono {names' : κ → Prop} (h : fs.Holds names read a) (hn : ∀ n, names n → names' n) :
    fs.Holds names' read a := by
  obtain ⟨n, hm, hb⟩ := h
  exact ⟨n, hn n hm, hb⟩

end Holds

end Files
