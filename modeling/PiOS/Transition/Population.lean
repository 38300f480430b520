import Mathlib.Algebra.Order.BigOperators.Group.Finset
import Mathlib.Algebra.BigOperators.Ring.Finset

namespace PiOS.Transition
open Function

variable {ι φ : Type*} [DecidableEq ι]

def population (members : Finset ι) (place : ι → φ) (P : φ → Prop) [DecidablePred P] : Nat :=
  (members.filter fun i => P (place i)).card

variable {members : Finset ι} {place : ι → φ} {P : φ → Prop} [DecidablePred P]

omit [DecidableEq ι] in
theorem population_eq_sum : population members place P = ∑ i ∈ members, if P (place i) then 1 else 0 := by
  exact Finset.card_filter _ _

theorem population_split {i : ι} (member : i ∈ members) :
    population members place P = population (members.erase i) place P + if P (place i) then 1 else 0 := by
  simp only [population_eq_sum]
  rw [← Finset.sum_erase_add members _ member]

theorem population_others {i : ι} (a : φ) :
    population (members.erase i) (update place i a) P = population (members.erase i) place P := by
  unfold population
  congr 1
  apply Finset.filter_congr
  intro j inside
  rw [update_of_ne (Finset.ne_of_mem_erase inside)]

theorem population_update {i : ι} (member : i ∈ members) (a : φ) :
    population members (update place i a) P + (if P (place i) then 1 else 0) =
      population members place P + (if P a then 1 else 0) := by
  have before : population members place P = _ := population_split member
  have after : population members (update place i a) P =
      population (members.erase i) place P + if P a then 1 else 0 := by
    rw [population_split member, population_others, update_self]
  rw [before, after]
  exact Nat.add_right_comm _ _ _

theorem population_insert {i : ι} (absent : ¬ P (place i)) :
    population (insert i members) place P = population members place P := by
  simp [population, Finset.filter_insert, absent]

omit [DecidableEq ι] in
theorem population_pos {i : ι} (member : i ∈ members) (stands : P (place i)) : 0 < population members place P := by
  apply Finset.card_pos.mpr
  exact ⟨i, Finset.mem_filter.mpr ⟨member, stands⟩⟩

end PiOS.Transition
