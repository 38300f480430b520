import Mathlib.Data.List.Basic

namespace PiOS.Queue

variable {α : Type*}

/-- Where the one reader of a list is with its first element: it has looked at it, it has completed it but
not removed it, or it has removed it but not completed it. -/
inductive Stage (α : Type*)
  | idle
  | holds (a : α)
  | completed (a : α)
  | removed (a : α)

structure Served (α : Type*) where
  waiting : List α
  stage : Stage α
  appended : List α
  completed : List α

namespace Served

inductive Step : Served α → Served α → Prop
  | append (b : Served α) (a : α) : Step b { b with waiting := b.waiting ++ [a], appended := b.appended ++ [a] }
  | hold (b : Served α) (idle : b.stage = .idle) (a : α) (rest : List α) (first : b.waiting = a :: rest) :
      Step b { b with stage := .holds a }
  | complete (b : Served α) (a : α) (holds : b.stage = .holds a) :
      Step b { b with stage := .completed a, completed := b.completed ++ [a] }
  | dropFirst (b : Served α) (a a' : α) (holds : b.stage = .completed a) (rest : List α)
      (first : b.waiting = a' :: rest) : Step b { b with stage := .idle, waiting := rest }
  | remove (b : Served α) (a a' : α) (holds : b.stage = .holds a) (rest : List α)
      (first : b.waiting = a' :: rest) : Step b { b with stage := .removed a, waiting := rest }
  | completeRemoved (b : Served α) (a : α) (holds : b.stage = .removed a) :
      Step b { b with stage := .idle, completed := b.completed ++ [a] }

def pending (b : Served α) : List α :=
  match b.stage with
  | .idle | .holds _ => b.waiting
  | .completed _ => b.waiting.tail
  | .removed a => a :: b.waiting

structure Ordered (b : Served α) : Prop where
  order : b.appended = b.completed ++ b.pending
  first : ∀ a, b.stage = .holds a ∨ b.stage = .completed a → b.waiting.head? = some a

theorem ordered_empty : (⟨[], .idle, [], []⟩ : Served α).Ordered := ⟨rfl, nofun⟩

variable {b b' : Served α} {a : α}

theorem Ordered.holds_first (ordered : b.Ordered) (holds : b.stage = .holds a) : ∃ rest, b.waiting = a :: rest := by
  have first := ordered.first a (Or.inl holds)
  cases waiting : b.waiting with
  | nil => rw [waiting] at first; cases first
  | cons a' rest =>
    rw [waiting] at first
    obtain rfl := Option.some.inj first
    exact ⟨rest, rfl⟩

theorem Ordered.pending_first (ordered : b.Ordered) (stage : b.stage = .holds a ∨ b.stage = .removed a) :
    ∃ rest, b.pending = a :: rest := by
  rcases stage with holds | removed
  · obtain ⟨rest, waiting⟩ := ordered.holds_first holds
    exact ⟨rest, by simp only [pending, holds, waiting]⟩
  · exact ⟨b.waiting, by simp only [pending, removed]⟩

theorem Ordered.step (ordered : b.Ordered) (step : Step b b') : b'.Ordered := by
  obtain ⟨waiting, stage, appended, completed⟩ := b
  have order := ordered.order
  have first := ordered.first
  cases step with
  | append a =>
    have same : ∀ a', stage = .holds a' ∨ stage = .completed a' → (waiting ++ [a]).head? = some a' := by
      intro a' at_a
      rw [List.head?_append, first a' at_a, Option.some_or]
    refine ⟨?_, same⟩
    cases stage with
    | idle | holds | removed => simp_all [pending]
    | completed a' =>
      have head := first a' (Or.inr rfl)
      cases waiting with
      | nil => cases head
      | cons a'' rest => simp_all [pending]
  | hold idle a rest at_first =>
    cases idle
    cases at_first
    refine ⟨order, fun a' stage => ?_⟩
    rcases stage with same | same
    · cases same; rfl
    · cases same
  | complete a holds =>
    cases holds
    have head := first a (Or.inl rfl)
    cases waiting with
    | nil => cases head
    | cons a' rest =>
      obtain rfl := Option.some.inj head
      refine ⟨?_, fun a'' stage => ?_⟩
      · simp_all [pending]
      · rcases stage with same | same
        · cases same
        · cases same; rfl
  | dropFirst a a' holds rest at_first =>
    cases holds
    cases at_first
    exact ⟨order, nofun⟩
  | remove a a' holds rest at_first =>
    cases holds
    cases at_first
    obtain rfl := Option.some.inj (first a (Or.inl rfl))
    exact ⟨order, nofun⟩
  | completeRemoved a holds =>
    cases holds
    refine ⟨?_, nofun⟩
    simp_all [pending]

end Served

end PiOS.Queue
