import Mathlib.Algebra.Order.BigOperators.Group.List
import Mathlib.Data.BitVec
import Mathlib.Data.List.Basic

namespace PiOS.Queue

variable {α : Type*} (size : α → Nat) (eager : α → Prop)

def total (queue : List α) : Nat := (queue.map size).sum

/-- Of `stock` units every member takes at most its size, in the order of the queue; an eager member finds at
least one. -/
def Admitted (stock : Nat) : List α → Prop
  | [] => True
  | a :: queue => (eager a → 0 < stock) ∧ Admitted (stock - size a) queue

variable {size eager} {stock : Nat} {queue : List α} {a : α}

@[simp] theorem total_cons : total size (a :: queue) = size a + total size queue := by
  simp [total]

theorem total_append_singleton : total size (queue ++ [a]) = total size queue + size a := by
  simp [total]

namespace Admitted

theorem more {stock' : Nat} (admitted : Admitted size eager stock queue) (more : stock ≤ stock') :
    Admitted size eager stock' queue := by
  induction queue generalizing stock stock' with
  | nil => trivial
  | cons a queue ih =>
    refine ⟨fun wants => ?_, ih admitted.2 (by omega)⟩
    have found := admitted.1 wants
    omega

theorem join (admitted : Admitted size eager stock queue) (left : eager a → total size queue < stock) :
    Admitted size eager stock (queue ++ [a]) := by
  induction queue generalizing stock with
  | nil => exact ⟨fun wants => Nat.zero_lt_of_lt (left wants), trivial⟩
  | cons b queue ih =>
    refine ⟨admitted.1, ih admitted.2 fun wants => ?_⟩
    have enough := left wants
    rw [total_cons] at enough
    omega

end Admitted

end PiOS.Queue
