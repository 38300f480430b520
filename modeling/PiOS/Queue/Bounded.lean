import Mathlib.Data.List.Basic
import Mathlib.Tactic.Linarith

namespace PiOS.Queue

variable {α : Type*}

/-- A queue between two counting semaphores, for free places and for elements, and the parties that stand
between a semaphore and the queue. -/
structure Bounded (α : Type*) where
  queue : List α
  free : Int
  avail : Int
  toWrite : Nat
  toRaise : Nat
  toRead : Nat
  toFree : Nat
  sent : List α
  taken : List α

inductive Bounded.Step : Bounded α → Bounded α → Prop
  | same (b : Bounded α) : Step b b
  | reserve (b : Bounded α) (up : 0 < b.free) :
      Step b { b with free := b.free - 1, toWrite := b.toWrite + 1 }
  | write (b : Bounded α) (n : Nat) (pending : b.toWrite = n + 1) (a : α) :
      Step b { b with queue := b.queue ++ [a], toWrite := n, toRaise := b.toRaise + 1, sent := b.sent ++ [a] }
  | raise (b : Bounded α) (n : Nat) (pending : b.toRaise = n + 1) :
      Step b { b with avail := b.avail + 1, toRaise := n }
  | claim (b : Bounded α) (up : 0 < b.avail) :
      Step b { b with avail := b.avail - 1, toRead := b.toRead + 1 }
  | read (b : Bounded α) (n : Nat) (pending : b.toRead = n + 1) (a : α) (rest : List α)
      (first : b.queue = a :: rest) :
      Step b { b with queue := rest, toRead := n, toFree := b.toFree + 1, taken := b.taken ++ [a] }
  | release (b : Bounded α) (n : Nat) (pending : b.toFree = n + 1) :
      Step b { b with free := b.free + 1, toFree := n }

structure Bounded.Balanced (capacity : Nat) (b : Bounded α) : Prop where
  elements : (b.queue.length : Int) = b.avail + b.toRaise + b.toRead
  places : b.free + b.toWrite + b.toFree + b.queue.length = capacity
  free : 0 ≤ b.free
  avail : 0 ≤ b.avail
  ordered : b.sent = b.taken ++ b.queue

namespace Bounded

variable {capacity : Nat} {b b' : Bounded α}

theorem balanced_empty (capacity : Nat) : (⟨[], capacity, 0, 0, 0, 0, 0, [], []⟩ : Bounded α).Balanced capacity :=
  ⟨by simp, by simp, by simp, by simp, rfl⟩

section

variable (balanced : b.Balanced capacity)
include balanced

theorem Balanced.step (step : Step b b') : b'.Balanced capacity := by
  obtain ⟨elements, places, free, avail, ordered⟩ := balanced
  cases step with
  | same => exact ⟨elements, places, free, avail, ordered⟩
  | reserve up =>
    refine ⟨elements, ?_, by linarith, avail, ordered⟩
    push_cast
    linarith
  | write n pending a =>
    rw [pending] at places
    push_cast at places
    refine ⟨?_, ?_, free, avail, by simp [ordered]⟩
    · push_cast [List.length_append, List.length_singleton]
      linarith
    · push_cast [List.length_append, List.length_singleton]
      linarith
  | raise n pending =>
    rw [pending] at elements
    push_cast at elements
    exact ⟨by linarith, places, free, by linarith, ordered⟩
  | claim up =>
    refine ⟨?_, places, free, by linarith, ordered⟩
    push_cast
    linarith
  | read n pending a rest first =>
    rw [pending, first] at elements
    rw [first] at places
    push_cast [List.length_cons] at elements places
    refine ⟨by linarith, ?_, free, avail, by simp [ordered, first]⟩
    push_cast
    linarith
  | release n pending =>
    rw [pending] at places
    push_cast at places
    exact ⟨elements, by linarith, by linarith, avail, ordered⟩

theorem Balanced.length_le : b.queue.length ≤ capacity := by
  have places := balanced.places
  have free := balanced.free
  omega

theorem Balanced.length_toFree_le : b.queue.length + b.toFree ≤ capacity := by
  have places := balanced.places
  have free := balanced.free
  omega

theorem Balanced.room (pending : 0 < b.toWrite) : b.queue.length < capacity := by
  have places := balanced.places
  have free := balanced.free
  omega

theorem Balanced.nonempty (pending : 0 < b.toRead) : b.queue ≠ [] := by
  intro empty
  have elements := balanced.elements
  have avail := balanced.avail
  rw [empty] at elements
  simp only [List.length_nil, Nat.cast_zero] at elements
  omega

theorem Balanced.avail_le : b.avail ≤ capacity := by
  have elements := balanced.elements
  have length := balanced.length_le
  omega

theorem Balanced.free_le : b.free ≤ capacity := by
  have places := balanced.places
  omega

end

end Bounded

end PiOS.Queue
