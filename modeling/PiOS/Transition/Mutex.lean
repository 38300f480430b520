import Mathlib.Logic.Basic
import Mathlib.Tactic.ByContra

namespace PiOS.Transition

variable {κ : Type*} {count : Int} {holds holds' : κ → Prop} {x : κ}

def Mutex (count : Int) (holds : κ → Prop) : Prop :=
  count = 1 ∧ (∀ y, ¬holds y) ∨ count = 0 ∧ ∃ y, holds y ∧ ∀ z, holds z → z = y

namespace Mutex

section

variable (mutex : Mutex count holds)
include mutex

theorem alone (mine : holds x) {y : κ} (other : holds y) : y = x := by
  rcases mutex with ⟨-, nobody⟩ | ⟨-, owner, -, only⟩
  · exact absurd mine (nobody x)
  · rw [only y other, only x mine]

theorem down (mine : holds x) : count = 0 := by
  rcases mutex with ⟨-, nobody⟩ | ⟨down, -⟩
  · exact absurd mine (nobody x)
  · exact down

theorem nobody (up : 0 < count) : ∀ y, ¬holds y := by
  rcases mutex with ⟨-, nobody⟩ | ⟨down, -⟩
  · exact nobody
  · omega

theorem same (same : ∀ y, holds' y ↔ holds y) : Mutex count holds' := by
  have equal : holds' = holds := funext fun y => propext (same y)
  rwa [equal]

theorem acquire (up : 0 < count) (others : ∀ y, y ≠ x → (holds' y ↔ holds y))
    (mine : holds' x) : Mutex (count - 1) holds' := by
  have nobody := mutex.nobody up
  have one : count = 1 := by
    rcases mutex with ⟨one, -⟩ | ⟨down, -⟩
    · exact one
    · omega
  refine Or.inr ⟨by omega, x, mine, fun z held => ?_⟩
  by_contra other
  exact nobody z ((others z other).1 held)

theorem release (mine : holds x) (others : ∀ y, y ≠ x → (holds' y ↔ holds y))
    (gone : ¬holds' x) : Mutex (count + 1) holds' := by
  have down := mutex.down mine
  refine Or.inl ⟨by omega, fun y held => ?_⟩
  have other : y ≠ x := by
    rintro rfl
    exact gone held
  exact other (mutex.alone mine ((others y other).1 held))

end

end Mutex

end PiOS.Transition
