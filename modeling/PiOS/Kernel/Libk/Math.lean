import PiOS.Kernel.Basic

namespace PiOS.Kernel

def intWrap (n : Int) : Int := n.bmod (2 ^ 16)

theorem intWrap_eq {n : Int} (low : -(2 ^ 15) ≤ n) (high : n < 2 ^ 15) : intWrap n = n := by
  unfold intWrap
  exact Int.bmod_eq_of_le (by omega) (by omega)

def wordMin (a b : Word) : Word := if a < b then a else b
def wordMax (a b : Word) : Word := if a < b then b else a

theorem wordMin_toNat (u v : Word) : (wordMin u v).toNat = min u.toNat v.toNat := by
  unfold wordMin
  split
  · rename_i less
    exact (Nat.min_eq_left (Nat.le_of_lt less)).symm
  · rename_i less
    exact (Nat.min_eq_right (Nat.le_of_not_lt less)).symm

theorem wordMax_toNat (u v : Word) : (wordMax u v).toNat = max u.toNat v.toNat := by
  unfold wordMax
  split
  · rename_i less
    exact (Nat.max_eq_right (Nat.le_of_lt less)).symm
  · rename_i less
    exact (Nat.max_eq_left (Nat.le_of_not_lt less)).symm

theorem word_pos {w : Word} (some : w ≠ 0) : 0 < w.toNat :=
  Nat.pos_of_ne_zero fun zero => some (BitVec.eq_of_toNat_eq zero)

theorem word_ne_zero {w : Word} (positive : 0 < w.toNat) : w ≠ 0 := by
  rintro rfl
  exact absurd positive (by decide)

theorem word_ofNat_toNat {n : Nat} (small : n < 0x10000) : (BitVec.ofNat 16 n).toNat = n := by
  rw [BitVec.toNat_ofNat, Nat.mod_eq_of_lt small]

theorem word_add_toNat {u v : Word} (small : u.toNat + v.toNat < 0x10000) : (u + v).toNat = u.toNat + v.toNat := by
  rw [BitVec.toNat_add, Nat.mod_eq_of_lt small]

theorem word_sub_toNat {u v : Word} (order : v.toNat ≤ u.toNat) : (u - v).toNat = u.toNat - v.toNat :=
  BitVec.toNat_sub_of_le order

theorem Word.negative_iff (w : Word) : w.Negative ↔ 0x8000 ≤ w.toNat := by
  have small := w.isLt
  unfold Word.Negative
  rw [BitVec.toInt_eq_toNat_cond]
  split
  · omega
  · omega

end PiOS.Kernel
