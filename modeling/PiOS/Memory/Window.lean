import Mathlib.Data.BitVec

namespace PiOS.Memory

variable {w : Nat} {β : Type*}

def load (mem : BitVec w → β) (base : BitVec w) (count : Nat) (value : Nat → β) : BitVec w → β := fun x =>
  if (x - base).toNat < count then value (x - base).toNat else mem x

variable {mem : BitVec w → β} {base : BitVec w} {n m : Nat} {value value' : Nat → β}

@[simp] theorem load_zero : load mem base 0 value = mem := by
  funext x
  simp [load]

theorem load_congr (same : ∀ j < n, value j = value' j) : load mem base n value = load mem base n value' := by
  funext x
  unfold load
  split
  · rename_i inside
    exact same _ inside
  · rfl

theorem sub_base_toNat {j : Nat} (small : j < 2 ^ w) : (base + BitVec.ofNat w j - base).toNat = j := by
  rw [BitVec.add_comm, BitVec.add_sub_cancel, BitVec.toNat_ofNat, Nat.mod_eq_of_lt small]

theorem load_inside {j : Nat} (small : j < 2 ^ w) (inside : j < n) :
    load mem base n value (base + BitVec.ofNat w j) = value j := by
  simp only [load, sub_base_toNat small, if_pos inside]

theorem load_outside {j : Nat} (small : j < 2 ^ w) (outside : n ≤ j) :
    load mem base n value (base + BitVec.ofNat w j) = mem (base + BitVec.ofNat w j) := by
  simp only [load, sub_base_toNat small, if_neg (Nat.not_lt.2 outside)]

theorem load_load (fits : n + m ≤ 2 ^ w) (next : ∀ j < m, value' j = value (n + j)) :
    load (load mem base n value) (base + BitVec.ofNat w n) m value' = load mem base (n + m) value := by
  rcases Nat.eq_zero_or_pos m with rfl | positive
  · rw [load_zero, Nat.add_zero]
  funext x
  have place : x = base + BitVec.ofNat w (x - base).toNat := by
    rw [BitVec.ofNat_toNat, BitVec.setWidth_eq, BitVec.add_comm, BitVec.sub_add_cancel]
  have bound := (x - base).isLt
  generalize (x - base).toNat = j at place bound
  subst place
  rcases Nat.lt_or_ge j n with before | after
  · have outside : m ≤ (base + BitVec.ofNat w j - (base + BitVec.ofNat w n)).toNat := by
      rw [add_sub_add_left_eq_sub, BitVec.toNat_sub, BitVec.toNat_ofNat, BitVec.toNat_ofNat,
        Nat.mod_eq_of_lt bound, Nat.mod_eq_of_lt (a := n) (by omega), Nat.mod_eq_of_lt (by omega)]
      omega
    rw [load, if_neg (Nat.not_lt.2 outside), load_inside bound before, load_inside bound (by omega)]
  · obtain ⟨i, rfl⟩ := Nat.exists_eq_add_of_le after
    have step : base + BitVec.ofNat w (n + i) = base + BitVec.ofNat w n + BitVec.ofNat w i := by
      rw [BitVec.ofNat_add, BitVec.add_assoc]
    rcases Nat.lt_or_ge i m with inside | outside
    · rw [load_inside bound (by omega), step, load_inside (by omega) inside, next i inside]
    · rw [load_outside bound (by omega), step, load_outside (by omega) outside, ← step, load_outside bound after]

end PiOS.Memory
