import Mathlib.Data.BitVec
import Mathlib.Data.List.Basic
import Mathlib.Logic.Function.Basic

namespace PiOS.Memory
open Function

variable {α β : Type*} [DecidableEq α]

def storeAll (mem : α → β) (place : Nat → α) : List β → α → β
  | [] => mem
  | v :: vs => storeAll (update mem (place 0) v) (fun j => place (j + 1)) vs

variable {mem mem' : α → β} {place place' : Nat → α} {vs : List β} {x : α}

theorem storeAll_append (vs ws : List β) :
    storeAll mem place (vs ++ ws) = storeAll (storeAll mem place vs) (fun j => place (vs.length + j)) ws := by
  induction vs generalizing mem place with
  | nil => simp [storeAll]
  | cons v vs ih =>
    rw [List.cons_append, storeAll, ih, storeAll, List.length_cons]
    congr 1
    funext j
    congr 1
    omega

theorem storeAll_congr (same : ∀ j < vs.length, place j = place' j) :
    storeAll mem place vs = storeAll mem place' vs := by
  induction vs generalizing mem place place' with
  | nil => rfl
  | cons v vs ih =>
    rw [storeAll, storeAll, same 0 (by simp)]
    apply ih
    intro j inside
    exact same (j + 1) (by simpa using inside)

theorem storeAll_outside (outside : ∀ j < vs.length, place j ≠ x) : storeAll mem place vs x = mem x := by
  induction vs generalizing mem place with
  | nil => rfl
  | cons v vs ih =>
    rw [storeAll, ih, update_of_ne (Ne.symm (outside 0 (by simp)))]
    intro j inside
    exact outside (j + 1) (by simpa using inside)

theorem storeAll_inside {j : Nat} (inside : j < vs.length) :
    storeAll mem place vs (place j) = storeAll mem' place vs (place j) := by
  induction vs generalizing mem mem' place j with
  | nil => exact absurd inside (Nat.not_lt_zero j)
  | cons v vs ih =>
    rw [storeAll, storeAll]
    by_cases later : ∃ i < vs.length, place (i + 1) = place j
    · obtain ⟨i, inRest, same⟩ := later
      rw [← same]
      exact ih inRest
    · have outside : ∀ i < vs.length, place (i + 1) ≠ place j := fun i inRest same => later ⟨i, inRest, same⟩
      have first : j = 0 := by
        cases j with
        | zero => rfl
        | succ j => exact absurd rfl (outside j (by simpa using inside))
      subst first
      rw [storeAll_outside outside, storeAll_outside outside, update_self, update_self]

theorem storeAll_apply {j : Nat} (inside : j < vs.length)
    (last : ∀ i < vs.length, place i = place j → i ≤ j) : storeAll mem place vs (place j) = vs[j] := by
  induction vs generalizing mem place j with
  | nil => exact absurd inside (Nat.not_lt_zero j)
  | cons v vs ih =>
    cases j with
    | zero =>
      rw [storeAll, storeAll_outside, update_self, List.getElem_cons_zero]
      intro i inRest same
      exact absurd (last (i + 1) (by simpa using inRest) same) (Nat.not_succ_le_zero i)
    | succ j =>
      rw [storeAll, List.getElem_cons_succ]
      apply ih
      intro i inRest same
      exact Nat.le_of_succ_le_succ (last (i + 1) (by simpa using inRest) same)

def copyAll (mem : α → β) (dest src : Nat → α) : Nat → α → β
  | 0 => mem
  | n + 1 => copyAll (update mem (dest 0) (mem (src 0))) (fun j => dest (j + 1)) (fun j => src (j + 1)) n

section Copy

variable {dest dest' src src' : Nat → α} {n : Nat}

theorem copyAll_add (n m : Nat) : copyAll mem dest src (n + m) =
    copyAll (copyAll mem dest src n) (fun j => dest (n + j)) (fun j => src (n + j)) m := by
  induction n generalizing mem dest src with
  | zero => simp [copyAll]
  | succ n ih =>
    rw [Nat.succ_add, copyAll, ih, copyAll]
    simp only [Nat.succ_add]

theorem copyAll_congr (sameDest : ∀ j < n, dest j = dest' j) (sameSrc : ∀ j < n, src j = src' j) :
    copyAll mem dest src n = copyAll mem dest' src' n := by
  induction n generalizing mem dest dest' src src' with
  | zero => rfl
  | succ n ih =>
    rw [copyAll, copyAll, sameDest 0 (Nat.succ_pos n), sameSrc 0 (Nat.succ_pos n)]
    exact ih (fun j inside => sameDest (j + 1) (Nat.succ_lt_succ inside))
      fun j inside => sameSrc (j + 1) (Nat.succ_lt_succ inside)

theorem copyAll_apart (apart : ∀ i < n, ∀ j < n, dest i ≠ src j) :
    copyAll mem dest src n = storeAll mem dest ((List.range n).map fun j => mem (src j)) := by
  induction n generalizing mem dest src with
  | zero => rfl
  | succ n ih =>
    rw [copyAll, ih fun i inI j inJ => apart (i + 1) (Nat.succ_lt_succ inI) (j + 1) (Nat.succ_lt_succ inJ),
      List.range_succ_eq_map, List.map_cons, storeAll, List.map_map]
    congr 1
    apply List.map_congr_left
    intro j member
    have other := apart 0 (Nat.succ_pos n) (j + 1) (Nat.succ_lt_succ (List.mem_range.mp member))
    exact update_of_ne other.symm _ _

end Copy

theorem cells_apart {w i j : Nat} {a : BitVec w} (smallI : i < 2 ^ w) (smallJ : j < 2 ^ w)
    (same : a + BitVec.ofNat w i = a + BitVec.ofNat w j) : i = j := by
  have values := congrArg BitVec.toNat ((BitVec.add_right_inj a).mp same)
  rwa [BitVec.toNat_ofNat, BitVec.toNat_ofNat, Nat.mod_eq_of_lt smallI, Nat.mod_eq_of_lt smallJ] at values

end PiOS.Memory
