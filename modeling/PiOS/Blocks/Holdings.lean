import Mathlib.Data.List.Perm.Basic

namespace PiOS.Blocks

variable {α β : Type*} {holders : List α} {holds : α → List β} {i : Nat} {x y : α} {extra : List β}

theorem holdings_gain (here : holders[i]? = some x) (more : (holds y).Perm (extra ++ holds x)) :
    ((holders.set i y).flatMap holds).Perm (extra ++ holders.flatMap holds) := by
  induction holders generalizing i with
  | nil => cases here
  | cons z holders ih =>
    cases i with
    | zero =>
      obtain rfl : z = x := by simpa using here
      rw [List.set_cons_zero, List.flatMap_cons, List.flatMap_cons, ← List.append_assoc]
      exact more.append_right _
    | succ i =>
      rw [List.set_cons_succ, List.flatMap_cons, List.flatMap_cons]
      have rest := (ih (by simpa using here)).append_left (holds z)
      apply rest.trans
      rw [← List.append_assoc, ← List.append_assoc]
      exact List.perm_append_comm.append_right _

theorem holdings_loss (here : holders[i]? = some x) (less : (holds x).Perm (extra ++ holds y)) :
    (holders.flatMap holds).Perm (extra ++ (holders.set i y).flatMap holds) := by
  obtain ⟨inside, value⟩ := List.getElem?_eq_some_iff.mp here
  have back : (holders.set i y).set i x = holders := by
    rw [List.set_set, ← value, List.set_getElem_self]
  have there : (holders.set i y)[i]? = some y := List.getElem?_set_self inside
  have gain := holdings_gain there less
  rwa [back] at gain

theorem mem_holdings {b : β} (member : x ∈ holders) (held : b ∈ holds x) : b ∈ holders.flatMap holds :=
  List.mem_flatMap.mpr ⟨x, member, held⟩

theorem holds_length_le (member : x ∈ holders) : (holds x).length ≤ (holders.flatMap holds).length := by
  induction holders with
  | nil => exact (List.not_mem_nil member).elim
  | cons z holders ih =>
    rw [List.flatMap_cons, List.length_append]
    rcases List.mem_cons.mp member with rfl | later
    · exact Nat.le_add_right _ _
    · exact Nat.le_trans (ih later) (Nat.le_add_left _ _)

theorem holders_length_le {n : Nat} (each : ∀ x, n ≤ (holds x).length) :
    n * holders.length ≤ (holders.flatMap holds).length := by
  induction holders with
  | nil => exact Nat.zero_le _
  | cons z holders ih =>
    have first := each z
    rw [List.flatMap_cons, List.length_append, List.length_cons, Nat.mul_succ]
    omega

end PiOS.Blocks
