import Mathlib.Data.List.Nodup
import Mathlib.Logic.Function.Basic

namespace PiOS.Memory
open Function

variable {α : Type*}

def Chain (link : α → Option α) : Option α → List α → Prop
  | head, [] => head = none
  | head, a :: cells => head = some a ∧ Chain link (link a) cells

variable {link link' : α → Option α} {head place target : Option α} {cells cells' before after : List α} {a : α}

theorem Chain.head_eq (chain : Chain link head cells) : head = cells.head? := by
  cases cells with
  | nil => exact chain
  | cons a cells => exact chain.1

theorem Chain.congr (chain : Chain link head cells) (same : ∀ a ∈ cells, link' a = link a) :
    Chain link' head cells := by
  induction cells generalizing head with
  | nil => exact chain
  | cons a cells ih =>
    refine ⟨chain.1, ?_⟩
    rw [same a List.mem_cons_self]
    exact ih chain.2 fun b member => same b (.tail _ member)

theorem Chain.behind (chain : Chain link head (before ++ a :: after)) : Chain link (link a) after := by
  induction before generalizing head with
  | nil => exact chain.2
  | cons b before ih => exact ih chain.2

variable [DecidableEq α]

def patch (link : α → Option α) (place target : Option α) : α → Option α :=
  place.elim link fun b => update link b target

def patchHead (head place target : Option α) : Option α := place.elim target fun _ => head

theorem patch_of_notMem (inside : ∀ b, place = some b → b ∈ cells) (outside : a ∉ cells) :
    patch link place target a = link a := by
  cases place with
  | none => rfl
  | some b => exact update_of_ne (ne_of_mem_of_not_mem (inside b rfl) outside).symm ..

theorem Chain.relink (chain : Chain link head (before ++ cells)) (distinct : (before ++ cells').Nodup)
    (rest : Chain link target cells') :
    Chain (patch link before.getLast? target) (patchHead head before.getLast? target) (before ++ cells') := by
  induction before generalizing head with
  | nil => exact rest
  | cons c before ih =>
    obtain ⟨new, distinct⟩ := List.nodup_cons.mp distinct
    cases last : before.getLast? with
    | none =>
      obtain rfl := List.getLast?_eq_none_iff.mp last
      refine ⟨chain.1, ?_⟩
      rw [show patch link [c].getLast? target c = target from update_self ..]
      exact rest.congr fun a member => update_of_ne (ne_of_mem_of_not_mem member new) ..
    | some b =>
      have later := ih chain.2 distinct
      rw [last] at later
      rw [List.getLast?_cons, last]
      refine ⟨chain.1, ?_⟩
      rw [Option.getD_some, patch_of_notMem (by rintro _ ⟨⟩; exact List.mem_append_left _ (List.mem_of_getLast? last)) new]
      exact later

end PiOS.Memory
