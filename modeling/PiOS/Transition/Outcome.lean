import Mathlib.Data.List.Basic

namespace PiOS.Transition

universe u v

variable {ε : Type u} {α β : Type v}

/-- What a fallible computation returns has the property `post`, what it fails with `fault`. -/
def Ensures (x : Except ε α) (post : α → Prop) (fault : ε → Prop) : Prop :=
  match x with
  | .ok a => post a
  | .error e => fault e

variable {a : α} {fault : ε → Prop} {post : α → Prop} {x : Except ε α}

theorem Ensures.ok (h : post a) :
    Ensures (.ok a) post fault := h

theorem Ensures.error {e : ε} (h : fault e) :
    Ensures (.error e) post fault := h

theorem Ensures.any (x : Except ε α) : Ensures x (fun _ => True) fun _ => True := by
  cases x with
  | error e => trivial
  | ok a => trivial

theorem Ensures.bind {f : α → Except ε β} {mid : α → Prop} {post : β → Prop}
    (first : Ensures x mid fault) (next : ∀ a, mid a → Ensures (f a) post fault) : Ensures (x >>= f) post fault := by
  cases x with
  | error e => exact first
  | ok a => exact next a first

theorem Ensures.mono {post' : α → Prop} {fault' : ε → Prop}
    (h : Ensures x post fault) (returns : ∀ a, post a → post' a) (fails : ∀ e, fault e → fault' e) :
    Ensures x post' fault' := by
  cases x with
  | error e => exact fails e h
  | ok a => exact returns a h

theorem Ensures.returned (h : Ensures x post fault) (equal : x = .ok a) : post a := by
  rw [equal] at h
  exact h

theorem Ensures.failed (h : Ensures x post fault) {e : ε} (equal : x = .error e) : fault e := by
  rw [equal] at h
  exact h

theorem Ensures.total (h : Ensures x post fun _ => False) : ∃ a, x = .ok a ∧ post a := by
  cases x with
  | error e => exact absurd h id
  | ok a => exact ⟨a, rfl, h⟩

theorem toOption_eq_some : x.toOption = some a ↔ x = .ok a := by
  cases x with
  | error | ok => simp [Except.toOption]

theorem map_eq_ok {f : α → β} {b : β} : x.map f = .ok b ↔ ∃ a, x = .ok a ∧ f a = b := by
  cases x with
  | error | ok => simp [Except.map]

theorem map_eq_error {f : α → β} {e : ε} : x.map f = .error e ↔ x = .error e := by
  cases x with
  | error | ok => simp [Except.map]

theorem bind_eq_ok {f : α → Except ε β} {b : β} : (x >>= f) = .ok b ↔ ∃ a, x = .ok a ∧ f a = .ok b := by
  cases x with
  | error | ok => simp [bind, Except.bind]

end PiOS.Transition
