import Mathlib.Data.Finset.Card
import Mathlib.Data.Fintype.Prod
import Mathlib.Order.Interval.Finset.Nat

namespace PiOS.Blocks

/-- Slots that hold numbers, and a counter from which numbers are taken. Those from `base` up to `next` have
been handed out, each is in one slot, and those in `mark` stand for empty slots. -/
structure Ledger {σ : Type*} (held : σ → Option Nat) (mark : Nat → Prop) (base next : Nat) : Prop where
  base_le : base ≤ next
  ahead : ∀ w, mark w → next ≤ w
  known : ∀ s w, held s = some w → w < next ∨ mark w
  single : ∀ s t w, base ≤ w → w < next → held s = some w → held t = some w → s = t
  kept : ∀ w, base ≤ w → w < next → ∃ s, held s = some w

def Outside {σ : Type*} (held held' : σ → Option Nat) (mark : Nat → Prop) (base : Nat) (s : σ) : Prop :=
  held' s = held s ∨ (held s = none ∧ ∀ w, held' s = some w → w < base ∨ mark w)

variable {σ : Type*} {held held' : σ → Option Nat} {mark : Nat → Prop} {base next : Nat}

theorem ledger_empty (empty : ∀ s, held s = none) (ahead : ∀ w, mark w → base ≤ w) :
    Ledger held mark base base where
  base_le := le_rfl
  ahead := ahead
  known s w holds := by
    rw [empty] at holds
    cases holds
  single s t w low high := absurd high (Nat.not_lt.mpr low)
  kept w low high := absurd high (Nat.not_lt.mpr low)

variable {s : σ} {w : Nat}

theorem Ledger.old_of_outside (ledger : Ledger held mark base next)
    (outside : Outside held held' mark base s) (low : base ≤ w) (high : w < next)
    (now : held' s = some w) : held s = some w := by
  rcases outside with same | ⟨-, spare⟩
  · exact same ▸ now
  · rcases spare w now with below | marked
    · exact absurd low (Nat.not_le.mpr below)
    · exact absurd high (Nat.not_lt.mpr (ledger.ahead w marked))

theorem Ledger.known_of_outside (ledger : Ledger held mark base next)
    (outside : Outside held held' mark base s) (now : held' s = some w) : w < next ∨ mark w := by
  rcases outside with same | ⟨-, spare⟩
  · exact ledger.known s w (same ▸ now)
  · exact (spare w now).imp_left fun below => Nat.lt_of_lt_of_le below ledger.base_le

theorem Outside.keeps (outside : Outside held held' mark base s) (before : held s = some w) : held' s = some w := by
  rcases outside with same | ⟨empty, -⟩
  · exact same.trans before
  · rw [empty] at before
    cases before

theorem Ledger.keep (ledger : Ledger held mark base next)
    (outside : ∀ s, Outside held held' mark base s) : Ledger held' mark base next where
  base_le := ledger.base_le
  ahead := ledger.ahead
  known s _ now := ledger.known_of_outside (outside s) now
  single s t w low high atS atT := ledger.single s t w low high
    (ledger.old_of_outside (outside s) low high atS) (ledger.old_of_outside (outside t) low high atT)
  kept w low high := (ledger.kept w low high).imp fun s => (outside s).keeps

theorem Ledger.grant (ledger : Ledger held mark base next) (unmarked : ¬ mark next)
    (spent : ∀ w, held s = some w → w < base ∨ next ≤ w) (filled : held' s = some next)
    (outside : ∀ t, t ≠ s → Outside held held' mark base t) : Ledger held' mark base (next + 1) where
  base_le := Nat.le_succ_of_le ledger.base_le
  ahead w marked := by
    have different : next ≠ w := fun same => unmarked (same ▸ marked)
    exact Nat.lt_of_le_of_ne (ledger.ahead w marked) different
  known t w now := by
    by_cases here : t = s
    · subst here
      rw [filled, Option.some.injEq] at now
      exact Or.inl (now ▸ Nat.lt_succ_self next)
    · exact (ledger.known_of_outside (outside t here) now).imp_left Nat.lt_succ_of_lt
  single := by
    -- only the filled slot can hold the new number, and it holds no other
    have new : ∀ t, held' t = some next → t = s := by
      intro t now
      by_contra other
      rcases ledger.known_of_outside (outside t other) now with below | marked
      · exact Nat.lt_irrefl next below
      · exact unmarked marked
    intro t u w low high atT atU
    rcases Nat.lt_succ_iff_lt_or_eq.mp high with below | rfl
    · have elsewhere : ∀ v, held' v = some w → v ≠ s := by
        rintro v now rfl
        rw [filled, Option.some.injEq] at now
        exact Nat.ne_of_gt below now
      exact ledger.single t u w low below
        (ledger.old_of_outside (outside t (elsewhere t atT)) low below atT)
        (ledger.old_of_outside (outside u (elsewhere u atU)) low below atU)
    · exact (new t atT).trans (new u atU).symm
  kept w low high := by
    rcases Nat.lt_succ_iff_lt_or_eq.mp high with below | rfl
    · obtain ⟨t, before⟩ := ledger.kept w low below
      have other : t ≠ s := by
        rintro rfl
        rcases spent w before with less | more
        · exact absurd low (Nat.not_le.mpr less)
        · exact absurd below (Nat.not_lt.mpr more)
      exact ⟨t, (outside t other).keeps before⟩
    · exact ⟨s, filled⟩

theorem Ledger.next_le (ledger : Ledger held mark base next) (slots : Finset σ)
    (all : ∀ s w, held s = some w → s ∈ slots) : next ≤ base + slots.card := by
  have covered : (Finset.Ico base next).image some ⊆ slots.image held := by
    intro w member
    obtain ⟨v, range, rfl⟩ := Finset.mem_image.mp member
    rw [Finset.mem_Ico] at range
    obtain ⟨s, holds⟩ := ledger.kept v range.1 range.2
    exact Finset.mem_image.mpr ⟨s, all s v holds, holds⟩
  have count : next - base ≤ slots.card :=
    calc
      next - base = ((Finset.Ico base next).image some).card := by
        rw [Finset.card_image_of_injective _ (Option.some_injective _), Nat.card_Ico]
      _ ≤ (slots.image held).card := Finset.card_le_card covered
      _ ≤ slots.card := Finset.card_image_le
  exact Nat.sub_le_iff_le_add'.mp count

section Rows

variable {ρ κ : Type*} {content : ρ → κ → Option Nat}

def cell (content : ρ → κ → Option Nat) (rows : List ρ) (s : Nat × κ) : Option Nat :=
  rows[s.1]?.bind fun row => content row s.2

variable {rows : List ρ} {row : ρ} {c : κ}

theorem cell_append (s : Nat × κ) : cell content (rows ++ [row]) s = cell content rows s ∨
      (cell content rows s = none ∧ s.1 = rows.length ∧ cell content (rows ++ [row]) s = content row s.2) := by
  rcases Nat.lt_trichotomy s.1 rows.length with old | new | beyond
  · exact Or.inl (by simp [cell, List.getElem?_append_left old])
  · exact Or.inr ⟨by simp [cell, new], new, by simp [cell, new]⟩
  · refine Or.inl ?_
    have none_after : (rows ++ [row])[s.1]? = none := List.getElem?_eq_none (by simp; omega)
    simp [cell, none_after, List.getElem?_eq_none (Nat.le_of_lt beyond)]

theorem Ledger.append (ledger : Ledger (cell content rows) mark base next)
    (spare : ∀ c w, content row c = some w → w < base ∨ mark w) :
    Ledger (cell content (rows ++ [row])) mark base next := by
  apply ledger.keep
  intro s
  rcases cell_append s with same | ⟨empty, -, new⟩
  · exact Or.inl same
  · exact Or.inr ⟨empty, fun w now => spare s.2 w (new ▸ now)⟩

theorem Ledger.append_grant (ledger : Ledger (cell content rows) mark base next)
    (unmarked : ¬ mark next) (filled : content row c = some next)
    (spare : ∀ d, d ≠ c → ∀ w, content row d = some w → w < base ∨ mark w) :
    Ledger (cell content (rows ++ [row])) mark base (next + 1) := by
  refine ledger.grant unmarked (s := (rows.length, c)) ?_ ?_ ?_
  · simp [cell]
  · simp [cell, filled]
  · intro s other
    rcases cell_append s with same | ⟨empty, place, new⟩
    · exact Or.inl same
    · refine Or.inr ⟨empty, fun w now => spare s.2 ?_ w (new ▸ now)⟩
      exact fun column => other (Prod.ext place column)

variable {i : Nat} {before : ρ}

theorem cell_set (here : rows[i]? = some before) (s : Nat × κ) :
    cell content (rows.set i row) s = if s.1 = i then content row s.2 else cell content rows s := by
  have inside : i < rows.length := (List.getElem?_eq_some_iff.mp here).1
  by_cases own : s.1 = i
  · simp [cell, own, inside]
  · simp [cell, own, List.getElem?_set_ne (Ne.symm own)]

section

variable (ledger : Ledger (cell content rows) mark base next)
include ledger

theorem Ledger.set_keep (here : rows[i]? = some before) (same : ∀ c, content row c = content before c) :
    Ledger (cell content (rows.set i row)) mark base next := by
  apply ledger.keep
  intro s
  refine Or.inl ?_
  rw [cell_set here]
  by_cases own : s.1 = i
  · simp [cell, own, here, same]
  · simp [own]

theorem Ledger.set_grant (unmarked : ¬ mark next) (here : rows[i]? = some before)
    (spent : ∀ w, content before c = some w → w < base ∨ next ≤ w)
    (filled : content row c = some next) (same : ∀ d, d ≠ c → content row d = content before d) :
    Ledger (cell content (rows.set i row)) mark base (next + 1) := by
  refine ledger.grant unmarked (s := (i, c)) ?_ ?_ ?_
  · simpa [cell, here] using spent
  · rw [cell_set here]
    simpa using filled
  · intro s other
    refine Or.inl ?_
    rw [cell_set here]
    by_cases own : s.1 = i
    · have column : s.2 ≠ c := fun column => other (Prod.ext own column)
      simp [cell, own, here, same s.2 column]
    · simp [own]

theorem Ledger.next_le_cells [Fintype κ] : next ≤ base + rows.length * Fintype.card κ := by
  have bound := ledger.next_le (Finset.range rows.length ×ˢ Finset.univ) fun s w holds => by
    obtain ⟨row, here, -⟩ := Option.bind_eq_some_iff.mp holds
    simpa using (List.getElem?_eq_some_iff.mp here).1
  simpa [Finset.card_product] using bound

end

end Rows

end PiOS.Blocks
