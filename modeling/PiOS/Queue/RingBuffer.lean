import Mathlib.Data.List.Basic
import Mathlib.Logic.Function.Basic

namespace PiOS.Queue
open Function

variable {α : Type*}

structure RingBuffer (α : Type*) where
  head : Nat
  tail : Nat
  size : Nat
  cell : Nat → α

namespace RingBuffer

variable {r : RingBuffer α} {l : List α} {a : α}

def after (r : RingBuffer α) (n : Nat) : Nat := if n + 1 = r.size then 0 else n + 1

def put (r : RingBuffer α) (a : α) : RingBuffer α :=
  { r with cell := update r.cell r.head a, head := r.after r.head }

def drop (r : RingBuffer α) : RingBuffer α := { r with tail := r.after r.tail }

structure Holds (r : RingBuffer α) (l : List α) : Prop where
  inside : r.tail < r.size
  room : l.length < r.size
  head : r.head = (r.tail + l.length) % r.size
  cells : ∀ n, n < l.length → l[n]? = some (r.cell ((r.tail + n) % r.size))

theorem after_eq {n : Nat} (inside : n < r.size) : r.after n = (n + 1) % r.size := by
  unfold after
  split
  · rename_i last
    rw [last, Nat.mod_self]
  · rename_i earlier
    exact (Nat.mod_eq_of_lt (by omega)).symm

theorem holds_nil {size place : Nat} {cell : Nat → α} (inside : place < size) :
    (RingBuffer.mk place place size cell).Holds [] :=
  ⟨inside, Nat.zero_lt_of_lt inside, (Nat.mod_eq_of_lt inside).symm, fun n small => absurd small (Nat.not_lt_zero n)⟩

theorem place_ne {n m : Nat} (less : n < m) (small : m < r.size) : (r.tail + n) % r.size ≠ (r.tail + m) % r.size := by
  intro same
  have divides := Nat.sub_mod_eq_zero_of_mod_eq same.symm
  rw [Nat.add_sub_add_left, Nat.mod_eq_of_lt (by omega)] at divides
  omega

theorem Holds.head_lt (holds : r.Holds l) : r.head < r.size := by
  rw [holds.head]
  exact Nat.mod_lt _ (Nat.zero_lt_of_lt holds.inside)

theorem Holds.put (holds : r.Holds l) (room : l.length + 1 < r.size) (a : α) : (r.put a).Holds (l ++ [a]) := by
  have inside := holds.head_lt
  refine ⟨holds.inside, by rw [List.length_append]; exact room, ?_, fun n small => ?_⟩
  · change r.after r.head = (r.tail + (l ++ [a]).length) % r.size
    rw [after_eq inside, holds.head, Nat.mod_add_mod, List.length_append, List.length_singleton, Nat.add_assoc]
  · change (l ++ [a])[n]? = some (update r.cell r.head a ((r.tail + n) % r.size))
    rw [List.length_append, List.length_singleton] at small
    by_cases last : n = l.length
    · subst last
      rw [← holds.head, update_self, List.getElem?_concat_length]
    · have early : n < l.length := by omega
      have other : (r.tail + n) % r.size ≠ r.head := by
        rw [holds.head]
        exact place_ne early holds.room
      rw [update_of_ne other, List.getElem?_append_left early]
      exact holds.cells n early

theorem Holds.first (holds : r.Holds (a :: l)) : r.cell r.tail = a := by
  have cell := holds.cells 0 (by simp)
  rw [Nat.add_zero, Nat.mod_eq_of_lt holds.inside] at cell
  exact (Option.some.inj cell).symm

theorem Holds.drop (holds : r.Holds (a :: l)) : r.drop.Holds l := by
  have positive : 0 < r.size := Nat.zero_lt_of_lt holds.inside
  have room := holds.room
  rw [List.length_cons] at room
  have moved : ∀ n, (r.after r.tail + n) % r.size = (r.tail + (n + 1)) % r.size := by
    intro n
    rw [after_eq holds.inside, Nat.mod_add_mod, Nat.add_assoc, Nat.add_comm 1 n]
  refine ⟨?_, Nat.lt_of_succ_lt room, ?_, fun n small => ?_⟩
  · change r.after r.tail < r.size
    rw [after_eq holds.inside]
    exact Nat.mod_lt _ positive
  · change r.head = (r.after r.tail + l.length) % r.size
    rw [moved, holds.head, List.length_cons]
  · change l[n]? = some (r.cell ((r.after r.tail + n) % r.size))
    rw [moved]
    have cell := holds.cells (n + 1) (by simpa using small)
    rwa [List.getElem?_cons_succ] at cell

theorem Holds.head_cases (holds : r.Holds l) : r.tail + l.length < r.size ∧ r.head = r.tail + l.length ∨
      r.size ≤ r.tail + l.length ∧ r.head + r.size = r.tail + l.length := by
  have inside := holds.inside
  have room := holds.room
  rcases Nat.lt_or_ge (r.tail + l.length) r.size with small | large
  · exact Or.inl ⟨small, holds.head.trans (Nat.mod_eq_of_lt small)⟩
  · refine Or.inr ⟨large, ?_⟩
    rw [holds.head, Nat.mod_eq_sub_mod large, Nat.mod_eq_of_lt (by omega)]
    omega

theorem Holds.empty_iff (holds : r.Holds l) : r.tail = r.head ↔ l = [] := by
  have inside := holds.inside
  have room := holds.room
  rw [← List.length_eq_zero_iff]
  rcases holds.head_cases with ⟨-, place⟩ | ⟨-, place⟩
  · omega
  · omega

theorem Holds.full_iff (holds : r.Holds l) :
    r.head + 1 = r.tail ∨ r.tail = 0 ∧ r.head + 1 = r.size ↔ l.length + 1 = r.size := by
  have inside := holds.inside
  have room := holds.room
  rcases holds.head_cases with ⟨small, place⟩ | ⟨large, place⟩
  · omega
  · omega

end RingBuffer

end PiOS.Queue
