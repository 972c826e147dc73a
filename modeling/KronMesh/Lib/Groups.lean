import KronMesh.Lib.Wire
import Mathlib.Data.List.Basic
import Mathlib.Data.Nat.Digits.Defs

/-!
# Groups of bits

A list of groups of `w` bits, the first the most significant, as one number. Lists of one length are
told apart by their numbers (`value_inj`).
-/

namespace Groups

open Wire

/-- The number whose groups of `w` bits these are. -/
def value (w : ℕ) (gs : Bytes) : ℕ := Nat.ofDigits (2 ^ w) (gs.reverse.map UInt8.toNat)

/-- No group has more than `w` bits. -/
def Fits (w : ℕ) (gs : Bytes) : Prop := ∀ g ∈ gs, g.toNat < 2 ^ w

variable {w : ℕ} {gs gs' : Bytes} {g : UInt8}

@[simp] theorem value_nil : value w [] = 0 := rfl

theorem value_append (gs gs' : Bytes) :
    value w (gs ++ gs') = value w gs * 2 ^ (w * gs'.length) + value w gs' := by
  unfold value
  rw [List.reverse_append, List.map_append, Nat.ofDigits_append, List.length_map,
    List.length_reverse, ← pow_mul, Nat.add_comm, Nat.mul_comm]

theorem value_singleton (g : UInt8) : value w [g] = g.toNat := Nat.ofDigits_singleton

theorem value_cons (g : UInt8) (gs : Bytes) :
    value w (g :: gs) = g.toNat * 2 ^ (w * gs.length) + value w gs := by
  rw [← List.singleton_append, value_append, value_singleton]

theorem value_concat (gs : Bytes) (g : UInt8) :
    value w (gs ++ [g]) = value w gs * 2 ^ w + g.toNat := by
  rw [value_append, value_singleton, List.length_singleton, Nat.mul_one]

theorem fits_append : Fits w (gs ++ gs') ↔ Fits w gs ∧ Fits w gs' := List.forall_mem_append

theorem fits_cons : Fits w (g :: gs) ↔ g.toNat < 2 ^ w ∧ Fits w gs := List.forall_mem_cons

theorem fits_eight (gs : Bytes) : Fits 8 gs := fun g _ => g.toNat_lt

theorem lt_of_mem (h : Fits w gs) : ∀ d ∈ gs.reverse.map UInt8.toNat, d < 2 ^ w := by
  intro d hd
  obtain ⟨g, hg, rfl⟩ := List.mem_map.1 hd
  exact h g (List.mem_reverse.1 hg)

theorem value_lt (hw : 0 < w) (h : Fits w gs) : value w gs < 2 ^ (w * gs.length) := by
  have hlt := Nat.ofDigits_lt_base_pow_length (Nat.one_lt_two_pow hw.ne') (lt_of_mem h)
  rwa [List.length_map, List.length_reverse, ← pow_mul] at hlt

/-- Lists of one length are told apart by their numbers. -/
theorem value_inj (hw : 0 < w) (hlen : gs.length = gs'.length) (h : Fits w gs) (h' : Fits w gs')
    (he : value w gs = value w gs') : gs = gs' := by
  have hmap := Nat.ofDigits_inj_of_len_eq (Nat.one_lt_two_pow hw.ne') (by simp [hlen]) (lt_of_mem h)
    (lt_of_mem h') he
  have hinj : Function.Injective UInt8.toNat := fun _ _ => UInt8.toNat_inj.1
  exact List.reverse_inj.1 (List.map_injective_iff.2 hinj hmap)

end Groups
