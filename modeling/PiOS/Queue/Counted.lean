import Mathlib.Data.List.Basic
import Mathlib.Logic.Relation
import Mathlib.Tactic.Linarith

namespace PiOS.Queue

variable {α : Type*}

/-- A queue with a counting semaphore beside it, and the parties that stand between the two. -/
structure Counted (α : Type*) where
  queue : List α
  count : Int
  toRaise : Nat
  toTake : Nat
  toLower : Nat
  sent : List α
  taken : List α

inductive Counted.Step : Counted α → Counted α → Prop
  | append (b : Counted α) (a : α) :
      Step b { b with queue := b.queue ++ [a], toRaise := b.toRaise + 1, sent := b.sent ++ [a] }
  | raise (b : Counted α) (n : Nat) (pending : b.toRaise = n + 1) :
      Step b { b with count := b.count + 1, toRaise := n }
  | lower (b : Counted α) (up : 0 < b.count) :
      Step b { b with count := b.count - 1, toTake := b.toTake + 1 }
  | take (b : Counted α) (n : Nat) (pending : b.toTake = n + 1) (a : α) (rest : List α)
      (first : b.queue = a :: rest) :
      Step b { b with queue := rest, toTake := n, taken := b.taken ++ [a] }
  | grab (b : Counted α) (a : α) (rest : List α) (first : b.queue = a :: rest) :
      Step b { b with queue := rest, toLower := b.toLower + 1, taken := b.taken ++ [a] }
  | settle (b : Counted α) (n : Nat) (pending : b.toLower = n + 1) (up : 0 < b.count) :
      Step b { b with count := b.count - 1, toLower := n }

abbrev Counted.Steps : Counted α → Counted α → Prop := Relation.ReflTransGen Counted.Step

structure Counted.Balanced (b : Counted α) : Prop where
  counted : (b.queue.length : Int) + b.toLower = b.count + b.toRaise + b.toTake
  nonneg : 0 ≤ b.count
  ordered : b.sent = b.taken ++ b.queue

namespace Counted

theorem Balanced.step {b b' : Counted α} (balanced : b.Balanced) (step : Step b b') : b'.Balanced := by
  obtain ⟨counted, nonneg, ordered⟩ := balanced
  cases step with
  | append a =>
    refine ⟨?_, nonneg, ?_⟩
    · push_cast [List.length_append, List.length_singleton]
      linarith
    · simp [ordered]
  | raise n pending | settle n pending =>
    refine ⟨?_, by linarith, ordered⟩
    rw [pending] at counted
    push_cast at counted
    linarith
  | lower up =>
    refine ⟨?_, by linarith, ordered⟩
    push_cast
    linarith
  | take n pending a rest first =>
    refine ⟨?_, nonneg, by simp [ordered, first]⟩
    rw [pending, first] at counted
    push_cast [List.length_cons] at counted
    linarith
  | grab a rest first =>
    refine ⟨?_, nonneg, by simp [ordered, first]⟩
    rw [first] at counted
    push_cast [List.length_cons] at counted ⊢
    linarith

theorem Balanced.steps {b b' : Counted α} (balanced : b.Balanced) (steps : Steps b b') : b'.Balanced := by
  induction steps with
  | refl => exact balanced
  | tail _ step ih => exact ih.step step

theorem balanced_empty : (⟨[], 0, 0, 0, 0, [], []⟩ : Counted α).Balanced := ⟨by simp, by simp, rfl⟩

theorem Balanced.nonempty {b : Counted α} (balanced : b.Balanced) (waits : 0 < b.toTake)
    (orderly : b.toLower ≤ b.toTake - 1) : b.queue ≠ [] := by
  intro empty
  have counted := balanced.counted
  have nonneg := balanced.nonneg
  rw [empty] at counted
  simp only [List.length_nil, Nat.cast_zero] at counted
  omega

theorem Steps.send (b : Counted α) (a : α) :
    Steps b { b with queue := b.queue ++ [a], count := b.count + 1, sent := b.sent ++ [a] } :=
  (Relation.ReflTransGen.single (Step.append b a)).tail (Step.raise _ b.toRaise rfl)

theorem Steps.sendAll (b : Counted α) (as : List α) :
    Steps b { b with queue := b.queue ++ as, count := b.count + as.length, sent := b.sent ++ as } := by
  induction as generalizing b with
  | nil => simpa using Relation.ReflTransGen.refl
  | cons a as ih =>
    have rest := ih { b with queue := b.queue ++ [a], count := b.count + 1, sent := b.sent ++ [a] }
    simp only [List.append_assoc, List.singleton_append, add_assoc] at rest
    refine (Steps.send b a).trans ?_
    simpa [add_comm, add_assoc] using rest

theorem Steps.deliver (b : Counted α) (a : α) (rest : List α) (first : b.queue = a :: rest) (up : 0 < b.count) :
    Steps b { b with queue := rest, count := b.count - 1, taken := b.taken ++ [a] } :=
  (Relation.ReflTransGen.single (Step.grab b a rest first)).tail (Step.settle _ b.toLower rfl up)

end Counted

end PiOS.Queue
