import Mathlib.Tactic.ByContra
import Mathlib.Tactic.SplitIfs

namespace PiOS.Transition

def cycleNext (n : Nat) : Option Nat → Nat
  | none => 0
  | some i => if i + 1 < n then i + 1 else 0

def movesTo (n : Nat) : Option Nat → Nat → Nat
  | none, j => j + 1
  | some i, j => if i < j then j - i else j + n - i

variable {n j : Nat} {last : Option Nat}

theorem cycleNext_lt (positive : 0 < n) (last : Option Nat) : cycleNext n last < n := by
  cases last with
  | none => exact positive
  | some i =>
    simp only [cycleNext]
    split_ifs <;> omega

theorem movesTo_pos (inside : ∀ i, last = some i → i < n) : 0 < movesTo n last j := by
  cases last with
  | none => exact Nat.succ_pos j
  | some i =>
    have := inside i rfl
    simp only [movesTo]
    split_ifs <;> omega

theorem movesTo_next (small : j < n) (inside : ∀ i, last = some i → i < n) (elsewhere : cycleNext n last ≠ j) :
    movesTo n last j = movesTo n (some (cycleNext n last)) j + 1 := by
  cases last with
  | none =>
    have later : 0 < j := Nat.pos_of_ne_zero (Ne.symm elsewhere)
    simp [cycleNext, movesTo, later]
  | some i =>
    have := inside i rfl
    simp only [cycleNext, movesTo] at elsewhere ⊢
    split_ifs at elsewhere ⊢ <;> omega

theorem movesTo_le (small : j < n) (last : Option Nat) : movesTo n last j ≤ n := by
  cases last with
  | none => exact small
  | some i =>
    simp only [movesTo]
    split_ifs <;> omega

theorem movesTo_cycleNext (inside : ∀ i, last = some i → i < n) : movesTo n last (cycleNext n last) = 1 := by
  cases last with
  | none => rfl
  | some i =>
    have := inside i rfl
    simp only [cycleNext, movesTo]
    split_ifs <;> omega

theorem movesTo_trans {i : Nat} (smallI : i < n) (smallJ : j < n)
    (inside : ∀ l, last = some l → l < n) (before : movesTo n last i ≤ movesTo n last j) (other : i ≠ j) :
    movesTo n last i + movesTo n (some i) j = movesTo n last j := by
  cases last with
  | none =>
    simp only [movesTo] at before ⊢
    split_ifs <;> omega
  | some l =>
    have := inside l rfl
    simp only [movesTo] at before ⊢
    split_ifs at before ⊢ <;> omega

theorem arrives_within (small : j < n) (last : Nat → Option Nat) (pick : Nat → Nat)
    (inside : ∀ t i, last t = some i → i < n) (moves : ∀ t < n, last (t + 1) = some (pick t))
    (notPast : ∀ t < n, movesTo n (last t) (pick t) ≤ movesTo n (last t) j) : ∃ t < n, pick t = j := by
  by_contra never
  have missed : ∀ t < n, pick t ≠ j := fun t early arrived => never ⟨t, early, arrived⟩
  have closer : ∀ t ≤ n, movesTo n (last t) j + t ≤ n := by
    intro t early
    induction t with
    | zero => exact movesTo_le small _
    | succ t ih =>
      have there : pick t < n := inside (t + 1) _ (moves t early)
      have way := movesTo_trans there small (inside t) (notPast t early) (missed t early)
      have first := movesTo_pos (j := pick t) (inside t)
      have before := ih (by omega)
      rw [moves t early]
      omega
  have late := closer n (Nat.le_refl n)
  have := movesTo_pos (j := j) (inside n)
  omega

end PiOS.Transition
