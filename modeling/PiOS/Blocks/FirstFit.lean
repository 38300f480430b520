import PiOS.Blocks.Tiling

namespace PiOS.Blocks

/-- The walk of a first-fit allocator for `k` cells: it counts free cells in a row and starts to
count anew behind each block. A turn moves on by at least one cell, so `n` turns are enough. -/
def scan (n : Nat) (header : Nat → Nat) (k : Nat) : Nat → Nat → Nat → Option Nat
  | 0, _, _ => none
  | fuel + 1, free, cell =>
    if cell < n then
      if header cell = 0 then
        if free + 1 = k then some (cell + 1 - k) else scan n header k fuel (free + 1) (cell + 1)
      else
        scan n header k fuel 0 (cell + header cell)
    else
      none

structure FirstFit (n : Nat) (header : Nat → Nat) (k i : Nat) : Prop where
  room : i + k ≤ n
  free : FreeRun n header i (i + k)
  first : ∀ j < i, ¬ FreeRun n header j (j + k)

variable {n k : Nat} {header : Nat → Nat} {cell j : Nat}

theorem FirstFit.unique {i j : Nat} (fit : FirstFit n header k i) (other : FirstFit n header k j) : i = j := by
  rcases Nat.lt_trichotomy i j with less | same | greater
  · exact absurd fit.free (other.first i less)
  · exact same
  · exact absurd other.free (fit.first j greater)

theorem exists_firstFit_iff : (∃ i, FirstFit n header k i) ↔ ∃ i, i + k ≤ n ∧ FreeRun n header i (i + k) := by
  classical
  constructor
  · exact fun ⟨i, fit⟩ => ⟨i, fit.room, fit.free⟩
  · intro fits
    obtain ⟨room, free⟩ := Nat.find_spec fits
    refine ⟨Nat.find fits, room, free, ?_⟩
    intro j less free'
    exact Nat.find_min fits less ⟨by omega, free'⟩

theorem not_freeRun_over (block : header cell ≠ 0) (before : j ≤ cell) (after : cell < j + k) :
    ¬ FreeRun n header j (j + k) :=
  fun free => block (free.zero cell before after)

theorem not_freeRun_within (inside : cell < n) (block : header cell ≠ 0) (after : cell < j)
    (reached : j < cell + header cell) : ¬ FreeRun n header j (j + k) := by
  intro free
  have := free.start cell inside block after
  omega

structure Walked (n : Nat) (header : Nat → Nat) (k free cell : Nat) : Prop where
  short : free < k
  counted : free ≤ cell
  run : FreeRun n header (cell - free) cell
  passed : ∀ j < cell - free, ¬ FreeRun n header j (j + k)

variable {free cell : Nat}

theorem walked_start (positive : 0 < k) : Walked n header k 0 0 where
  short := positive
  counted := le_rfl
  run := freeRun_empty boundary_zero
  passed j less := absurd less (Nat.not_lt_zero j)

section

variable (walked : Walked n header k free cell)
include walked

theorem Walked.longer (zero : header cell = 0) (more : free + 1 ≠ k) : Walked n header k (free + 1) (cell + 1) where
  short := by
    have := walked.short
    omega
  counted := Nat.succ_le_succ walked.counted
  run := by
    rw [Nat.add_sub_add_right]
    exact walked.run.extend zero
  passed := by
    rw [Nat.add_sub_add_right]
    exact walked.passed

theorem Walked.skip (clear : Clear n header)
    (inside : cell < n) (block : header cell ≠ 0) : Walked n header k 0 (cell + header cell) where
  short := (Nat.zero_le _).trans_lt walked.short
  counted := Nat.zero_le _
  run := freeRun_empty ((walked.run.boundary (Nat.sub_le _ _)).skip clear inside block)
  passed j less := by
    have short := walked.short
    rcases Nat.lt_or_ge j (cell - free) with passed | later
    · exact walked.passed j passed
    · rcases Nat.lt_or_ge cell j with within | before
      · exact not_freeRun_within inside block within less
      · exact not_freeRun_over block before (by omega)

theorem Walked.found (inside : cell < n)
    (zero : header cell = 0) (enough : free + 1 = k) : FirstFit n header k (cell + 1 - k) := by
  have counted := walked.counted
  have start : cell + 1 - k = cell - free := by omega
  have stop : cell - free + k = cell + 1 := by omega
  rw [start]
  constructor
  · omega
  · rw [stop]
    exact walked.run.extend zero
  · exact walked.passed

theorem Walked.none (outside : n ≤ cell) (i : Nat) : ¬ FirstFit n header k i := by
  intro fit
  have short := walked.short
  have room := fit.room
  exact walked.passed i (by omega) fit.free

theorem Walked.scan (clear : Clear n header) {fuel : Nat}
    (enough : n ≤ cell + fuel) (i : Nat) : scan n header k fuel free cell = some i ↔ FirstFit n header k i := by
  induction fuel generalizing free cell with
  | zero => simpa [Blocks.scan] using walked.none enough i
  | succ fuel ih =>
    unfold Blocks.scan
    split
    case isFalse outside => simpa using walked.none (Nat.le_of_not_lt outside) i
    case isTrue inside =>
      split
      case isFalse block =>
        have progress := Nat.pos_of_ne_zero block
        exact ih (walked.skip clear inside block) (by omega)
      case isTrue zero =>
        split
        case isFalse more => exact ih (walked.longer zero more) (by omega)
        case isTrue last =>
          have fit := walked.found inside zero last
          rw [Option.some.injEq]
          exact ⟨fun same => same ▸ fit, fit.unique⟩

end

theorem scan_eq_some_iff (clear : Clear n header) (positive : 0 < k) {i : Nat} :
    scan n header k n 0 0 = some i ↔ FirstFit n header k i :=
  (walked_start positive).scan clear (Nat.le_add_left n 0) i

theorem scan_zero (fuel free cell : Nat) : scan n header 0 fuel free cell = none := by
  induction fuel generalizing free cell with
  | zero => rfl
  | succ fuel ih => simp [scan, ih]

end PiOS.Blocks
