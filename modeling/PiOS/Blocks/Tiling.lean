import Mathlib.Algebra.BigOperators.Fin
import Mathlib.Algebra.BigOperators.Intervals
import Mathlib.Algebra.Order.BigOperators.Group.Finset
import Mathlib.Data.Finset.Card
import Mathlib.Order.Interval.Finset.Nat

namespace PiOS.Blocks
open Function

/-- A header array over `n` cells. A block starts at each cell with a nonzero header, which is the
block's length; the other cells of the block hold zero, and so do the free cells. -/
structure Tiling (n : Nat) (header : Nat → Nat) : Prop where
  fits : ∀ i < n, header i ≠ 0 → i + header i ≤ n
  clear : ∀ i < n, header i ≠ 0 → ∀ j, i < j → j < i + header i → header j = 0

def Clear (n : Nat) (header : Nat → Nat) : Prop :=
  ∀ i < n, header i ≠ 0 → ∀ j, i < j → j < i + header i → header j = 0

def Boundary (n : Nat) (header : Nat → Nat) (c : Nat) : Prop :=
  ∀ i < n, header i ≠ 0 → i < c → i + header i ≤ c

structure FreeRun (n : Nat) (header : Nat → Nat) (a b : Nat) : Prop where
  start : Boundary n header a
  zero : ∀ j, a ≤ j → j < b → header j = 0

variable {n : Nat} {header : Nat → Nat}

theorem tiling_zero (n : Nat) : Tiling n fun _ => 0 :=
  ⟨fun _ _ h => absurd rfl h, fun _ _ h => absurd rfl h⟩

theorem boundary_zero : Boundary n header 0 := fun _ _ _ h => absurd h (Nat.not_lt_zero _)

variable {c a b : Nat} {k : Nat}

theorem Boundary.skip (clear : Clear n header) (boundary : Boundary n header c)
    (inside : c < n) (block : header c ≠ 0) : Boundary n header (c + header c) := by
  intro i small start before
  rcases Nat.lt_trichotomy i c with less | rfl | greater
  · have := boundary i small start less
    omega
  · exact le_rfl
  · exact absurd (clear c inside block i greater before) start

theorem FreeRun.boundary (free : FreeRun n header a b) (le : a ≤ b) : Boundary n header b := by
  intro i small start before
  by_cases less : i < a
  · have := free.start i small start less
    omega
  · exact absurd (free.zero i (by omega) before) start

theorem FreeRun.extend (free : FreeRun n header a b) (zero : header b = 0) : FreeRun n header a (b + 1) := by
  refine ⟨free.start, fun j low high => ?_⟩
  by_cases last : j = b
  · exact last ▸ zero
  · exact free.zero j low (by omega)

theorem freeRun_empty (boundary : Boundary n header c) : FreeRun n header c c :=
  ⟨boundary, fun j low high => by omega⟩

theorem freeRun_iff (nonempty : a < b) (room : b ≤ n) : FreeRun n header a b ↔
    ∀ c, a ≤ c → c < b → ∀ i < n, header i ≠ 0 → c < i ∨ i + header i ≤ c := by
  constructor
  · intro free c low high i small block
    rcases Nat.lt_or_ge i a with before | behind
    · have := free.start i small block before
      omega
    · have : ¬ i < b := fun inside => block (free.zero i behind inside)
      omega
  · intro outside
    constructor
    · intro i small block before
      rcases outside a le_rfl nonempty i small block with behind | passed
      · omega
      · exact passed
    · intro j low high
      by_contra block
      have := outside j low high j (by omega) block
      omega

theorem Clear.allocate (clear : Clear n header) (free : FreeRun n header a (a + k)) :
    Clear n (update header a k) := by
  intro i small start j low high
  by_cases here : i = a
  · subst here
    rw [update_self] at high
    rw [update_of_ne (by omega)]
    exact free.zero j (by omega) high
  · rw [update_of_ne here] at start high
    -- an old block lies wholly before the run or starts after it
    have apart : j ≠ a := by
      rintro rfl
      have := free.start i small start low
      omega
    rw [update_of_ne apart]
    exact clear i small start j low high

theorem Clear.release (clear : Clear n header) (a : Nat) : Clear n (update header a 0) := by
  intro i small start j low high
  by_cases here : i = a
  · subst here
    simp at start
  · rw [update_of_ne here] at start high
    by_cases there : j = a
    · simp [there]
    · rw [update_of_ne there]
      exact clear i small start j low high

section

variable (tiling : Tiling n header)
include tiling

theorem Tiling.allocate (free : FreeRun n header a (a + k)) (room : a + k ≤ n) : Tiling n (update header a k) := by
  refine ⟨?_, Clear.allocate tiling.clear free⟩
  intro i small start
  by_cases here : i = a
  · subst here
    simpa using room
  · rw [update_of_ne here] at start ⊢
    exact tiling.fits i small start

theorem Tiling.release (a : Nat) : Tiling n (update header a 0) := by
  refine ⟨?_, Clear.release tiling.clear a⟩
  intro i small start
  by_cases here : i = a
  · subst here
    simp at start
  · rw [update_of_ne here] at start ⊢
    exact tiling.fits i small start

theorem Tiling.apart {i j : Nat} (smallI : i < n) (smallJ : j < n)
    (startI : header i ≠ 0) (startJ : header j ≠ 0) (different : i ≠ j) : i + header i ≤ j ∨ j + header j ≤ i := by
  by_contra overlap
  rcases Nat.lt_or_gt_of_ne different with less | greater
  · exact startJ (tiling.clear i smallI startI j less (by omega))
  · exact startI (tiling.clear j smallJ startJ i greater (by omega))

theorem Tiling.sum_skip (inside : c < n) (block : header c ≠ 0) :
    ∑ i ∈ Finset.Ico c n, header i = header c + ∑ i ∈ Finset.Ico (c + header c) n, header i := by
  have fits := tiling.fits c inside block
  have body : ∑ i ∈ Finset.Ico (c + 1) (c + header c), header i = 0 := by
    apply Finset.sum_eq_zero
    intro i member
    rw [Finset.mem_Ico] at member
    exact tiling.clear c inside block i (by omega) member.2
  rw [Finset.sum_eq_sum_Ico_succ_bot inside, ← Finset.sum_Ico_consecutive header (by omega) fits, body, Nat.zero_add]

theorem Tiling.sum_le (starts : Finset Nat)
    (inside : ∀ i ∈ starts, i < n ∧ header i ≠ 0) : ∑ i ∈ starts, header i ≤ n := by
  have disjoint : (starts : Set Nat).PairwiseDisjoint fun i => Finset.Ico i (i + header i) := by
    intro i memberI j memberJ different
    rw [Function.onFun, Finset.disjoint_left]
    intro x inI inJ
    rw [Finset.mem_Ico] at inI inJ
    obtain ⟨smallI, startI⟩ := inside i memberI
    obtain ⟨smallJ, startJ⟩ := inside j memberJ
    rcases tiling.apart smallI smallJ startI startJ different with before | after
    · omega
    · omega
  calc
    ∑ i ∈ starts, header i = ∑ i ∈ starts, (Finset.Ico i (i + header i)).card := by simp
    _ = (starts.biUnion fun i => Finset.Ico i (i + header i)).card :=
      (Finset.card_biUnion disjoint).symm
    _ ≤ (Finset.range n).card := by
      apply Finset.card_le_card
      intro x member
      obtain ⟨i, inStarts, inBlock⟩ := Finset.mem_biUnion.mp member
      rw [Finset.mem_Ico] at inBlock
      obtain ⟨small, start⟩ := inside i inStarts
      have := tiling.fits i small start
      exact Finset.mem_range.mpr (by omega)
    _ = n := Finset.card_range n

end

end PiOS.Blocks
