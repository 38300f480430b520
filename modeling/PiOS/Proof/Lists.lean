import PiOS.Kernel.Libk.List
import PiOS.Memory.Chain
import PiOS.Transition.Run

namespace PiOS.Proof.Lists
open Kernel Memory Transition Function

inductive ListOp (ι : Type)
  | append (list : ι) (val : Word) (newNode : Nat)
  | remove (list : ι) (listNode : Nat)

abbrev Sequences (ι : Type) (β : Type := Word) := ι → List (Nat × β)

variable {ι β : Type}

def cells (q : Sequences ι β) (list : ι) : List Nat := (q list).map Prod.fst

structure Represents (s : LinkedLists ι β) (q : Sequences ι β) : Prop where
  forward : ∀ l, Chain s.next (s.first l) (cells q l)
  backward : ∀ l, Chain s.prev (s.last l) (cells q l).reverse
  values : ∀ l, ∀ e ∈ q l, s.val e.1 = e.2
  distinct : ∀ l, (cells q l).Nodup
  apart : ∀ l l' a, a ∈ cells q l → a ∈ cells q l' → l = l'

/-- `kmalloc` returns a node that is in no list, and a node is removed from the list it is in. -/
def Legal (q : Sequences ι) : ListOp ι → Prop
  | .append _ _ newNode => ∀ list, newNode ∉ cells q list
  | .remove list listNode => listNode ∈ cells q list

variable [DecidableEq ι]

def initialised (memory : LinkedLists ι) : LinkedLists ι :=
  { memory with first := fun l => (memory.listInit l).first l, last := fun l => (memory.listInit l).last l }

def listStep (s : LinkedLists ι) : ListOp ι → Except Stop (LinkedLists ι)
  | .append list val newNode => s.listAppend list val newNode
  | .remove list listNode => .ok (s.listRemove list listNode)

def apply (q : Sequences ι) : ListOp ι → Sequences ι
  | .append list val newNode => update q list (q list ++ [(newNode, val)])
  | .remove list listNode => update q list ((q list).eraseP fun e => e.1 = listNode)

variable {s : LinkedLists ι β} {q : Sequences ι β} {l : ι} {first last : Option Nat} {next prev : Nat → Option Nat}
  {val : Nat → β} {own : List Nat} {x : List (Nat × β)} {n : Nat}

theorem Represents.change (rep : Represents s q) (others : ∀ i ≠ l, ∀ a ∈ cells q i, a ∉ own)
    (sameNext : ∀ a ∉ own, next a = s.next a) (samePrev : ∀ a ∉ own, prev a = s.prev a)
    (sameVal : ∀ a ∉ own, val a = s.val a) (inside : x.map Prod.fst ⊆ own) (distinct : (x.map Prod.fst).Nodup)
    (forward : Chain next first (x.map Prod.fst)) (backward : Chain prev last (x.map Prod.fst).reverse)
    (values : ∀ e ∈ x, val e.1 = e.2) :
    Represents ⟨update s.first l first, update s.last l last, next, prev, val⟩
      (update q l x) where
  forward i := by
    by_cases mine : i = l
    · simpa [cells, mine] using forward
    · simp only [cells, update_of_ne mine]
      exact (rep.forward i).congr fun a member => sameNext a (others i mine a member)
  backward i := by
    by_cases mine : i = l
    · simpa [cells, mine] using backward
    · simp only [cells, update_of_ne mine]
      exact (rep.backward i).congr fun a member => samePrev a (others i mine a (List.mem_reverse.mp member))
  values := by
    refine (forall_update_iff q fun _ y => ∀ e ∈ y, val e.1 = e.2).2 ⟨values, fun i other e member => ?_⟩
    rw [sameVal e.1 (others i other e.1 (List.mem_map_of_mem member))]
    exact rep.values i e member
  distinct := (forall_update_iff q fun _ y => (y.map Prod.fst).Nodup).2 ⟨distinct, fun i _ => rep.distinct i⟩
  apart i j a here there := by
    have apart := rep.apart i j a
    have absent := fun i other member => others i other a member
    by_cases mine : i = l <;> by_cases mine' : j = l <;> simp_all [cells]
    all_goals grind

theorem listAppend_eq (rep : Represents s q) (val : β) (n : Nat) : s.listAppend l val n = .ok
    ⟨update s.first l (patchHead (s.first l) (s.last l) (some n)), update s.last l (some n),
      patch (update s.next n none) (s.last l) (some n), update s.prev n (s.last l), update s.val n val⟩ := by
  have first := (rep.forward l).head_eq
  have last := (rep.backward l).head_eq
  cases both : cells q l with
  | nil | cons => simp [LinkedLists.listAppend, LinkedLists.fillNode, LinkedLists.linkNode, first, last, both, patch, patchHead]

theorem listRemove_eq (other : s.next n ≠ some n) : s.listRemove l n =
    ⟨update s.first l (patchHead (s.first l) (s.prev n) (s.next n)),
      update s.last l (patchHead (s.last l) (s.next n) (s.prev n)),
      patch s.next (s.prev n) (s.next n), patch s.prev (s.next n) (s.prev n), s.val⟩ := by
  unfold LinkedLists.listRemove LinkedLists.unlinkBack LinkedLists.unlinkFront
  cases next : s.next n with
  | none => cases s.prev n <;> simp [next, patch, patchHead]
  | some b =>
    have apart : n ≠ b := fun same => other (same ▸ next)
    cases prev : s.prev n <;> simp [next, prev, patch, patchHead, update_of_ne apart]

theorem Represents.append (rep : Represents s q) (val : β) (fresh : ∀ l, n ∉ cells q l) :
    ∃ s', s.listAppend l val n = .ok s' ∧ Represents s' (update q l (q l ++ [(n, val)])) := by
  have names : (q l ++ [(n, val)]).map Prod.fst = cells q l ++ [n] := List.map_append ..
  have distinct : (cells q l ++ [n]).Nodup := List.nodup_append_comm.mp (List.nodup_cons.mpr ⟨fresh l, rep.distinct l⟩)
  have last : s.last l = (cells q l).getLast? := by rw [(rep.backward l).head_eq, List.head?_reverse]
  have away : ∀ {a}, a ∉ cells q l ++ [n] → a ≠ n := fun outside same => outside (by simp [same])
  have old : ∀ {a}, a ∈ cells q l → a ≠ n := fun member => ne_of_mem_of_not_mem member (fresh l)
  refine ⟨_, listAppend_eq rep val n, rep.change ?_ (fun a outside => ?_)
    (fun a outside => update_of_ne (away outside) ..) (fun a outside => update_of_ne (away outside) ..)
    (names ▸ List.Subset.refl _) (names ▸ distinct) ?_ ?_ ?_⟩
  · intro i other a member inside
    rcases List.mem_append.mp inside with own | new
    · exact other (rep.apart i l a member own)
    · exact fresh i (List.mem_singleton.mp new ▸ member)
  · refine (patch_of_notMem (fun b at_b => ?_) outside).trans (update_of_ne (away outside) ..)
    exact List.mem_append_left _ (List.mem_of_getLast? (last.symm.trans at_b))
  · have chain := (rep.forward l).congr fun a member => update_of_ne (old member) none s.next
    rw [← List.append_nil (cells q l)] at chain
    rw [names, last]
    exact chain.relink distinct ⟨rfl, update_self ..⟩
  · rw [names, List.reverse_append]
    refine ⟨rfl, ?_⟩
    rw [update_self]
    exact (rep.backward l).congr fun a member => update_of_ne (old (List.mem_reverse.mp member)) ..
  · intro e member
    rcases List.mem_append.mp member with before | new
    · exact (update_of_ne (old (List.mem_map_of_mem before)) ..).trans (rep.values l e before)
    · rw [List.mem_singleton.mp new]
      exact update_self ..

theorem Represents.remove (rep : Represents s q) (member : n ∈ cells q l) :
    Represents (s.listRemove l n) (update q l ((q l).eraseP fun e => e.1 = n)) := by
  obtain ⟨e, listed, rfl⟩ := List.mem_map.mp member
  obtain ⟨d, before, after, -, same, split, erased⟩ :=
    @List.exists_of_eraseP _ (fun d => decide (d.1 = e.1)) _ _ listed (decide_eq_true rfl)
  have at_n : d.1 = e.1 := of_decide_eq_true same
  have names : cells q l = before.map Prod.fst ++ e.1 :: after.map Prod.fst := by simp [cells, split, at_n]
  have forward := rep.forward l
  have backward := rep.backward l
  have distinct := rep.distinct l
  rw [names] at forward distinct
  rw [names, List.reverse_append, List.reverse_cons, List.append_assoc, List.singleton_append] at backward
  have next : s.next e.1 = (after.map Prod.fst).reverse.getLast? := by
    rw [forward.behind.head_eq, List.getLast?_reverse]
  have prev : s.prev e.1 = (before.map Prod.fst).getLast? := by rw [backward.behind.head_eq, List.head?_reverse]
  have fewer : (before.map Prod.fst ++ after.map Prod.fst).Sublist (cells q l) := by simp [names]
  have rest := (rep.distinct l).sublist fewer
  have other : s.next e.1 ≠ some e.1 := fun loop => (List.nodup_cons.mp (List.nodup_append.mp distinct).2.1).1
    (List.mem_reverse.mp (List.mem_of_getLast? (next.symm.trans loop)))
  rw [listRemove_eq other, erased]
  refine rep.change (fun i other a there here => other (rep.apart i l a there here))
    (fun a outside => patch_of_notMem (fun b at_b => fewer.subset ?_) outside)
    (fun a outside => patch_of_notMem (fun b at_b => fewer.subset ?_) outside) (fun _ _ => rfl) ?_ ?_ ?_ ?_ ?_
  · exact List.mem_append_left _ (List.mem_of_getLast? (prev.symm.trans at_b))
  · exact List.mem_append_right _ (List.mem_reverse.mp (List.mem_of_getLast? (next.symm.trans at_b)))
  · rw [List.map_append]
    exact fewer.subset
  · rwa [List.map_append]
  · rw [List.map_append]
    exact prev ▸ forward.relink rest forward.behind
  · rw [List.map_append, List.reverse_append]
    exact next ▸ backward.relink (List.reverse_append ▸ List.nodup_reverse.mpr rest) backward.behind
  · intro d listed
    exact rep.values l d (split ▸ by simpa using Or.imp_right Or.inr (List.mem_append.mp listed))

theorem lists_represent (memory : LinkedLists ι) (ops : List (ListOp ι))
    (legal : Guarded (fun q op => some (apply q op)) Legal (fun _ => []) ops) :
    ∃ s, ops.foldlM listStep (initialised memory) = .ok s ∧
      Represents s (ops.foldl apply fun _ => []) ∧ ∀ l, (s.first l = none ↔ ops.foldl apply (fun _ => []) l = []) ∧
        (s.last l = none ↔ ops.foldl apply (fun _ => []) l = []) := by
  have start : Represents (initialised memory) fun _ => [] :=
    ⟨fun l => update_self l .., fun l => update_self l .., by simp, fun _ => List.nodup_nil,
      by simp [cells]⟩
  generalize initialised memory = s at start ⊢
  generalize (fun _ : ι => ([] : List (Nat × Word))) = q at start legal ⊢
  induction ops generalizing s q with
  | nil =>
    refine ⟨s, rfl, start, fun l => ?_⟩
    rw [(start.forward l).head_eq, (start.backward l).head_eq]
    simp [cells]
  | cons op ops ih =>
    obtain ⟨allowed, later⟩ := legal _ rfl
    have step : ∃ s', listStep s op = .ok s' ∧ Represents s' (apply q op) := by
      cases op with
      | append list val newNode => exact start.append val allowed
      | remove list listNode => exact ⟨_, rfl, start.remove allowed⟩
    obtain ⟨s', taken, next⟩ := step
    rw [List.foldlM_cons, taken]
    exact ih s' (apply q op) next later

theorem lists_represent_middle : ∃ s, [ListOp.append (0 : Fin 2) 5 8, .append 1 6 16, .append 0 7 24, .append 0 9 32,
    .remove 0 24].foldlM listStep (initialised ⟨fun _ => none, fun _ => some 3, fun _ => none, fun _ => none, fun _ => 0⟩)
      = .ok s ∧ Chain s.next (s.first 0) [8, 32] ∧ Chain s.prev (s.last 0) [32, 8] := by
  obtain ⟨s, reached, rep, -⟩ := lists_represent
    ⟨fun _ => none, fun _ => some 3, fun _ => none, fun _ => none, fun _ => 0⟩
    [ListOp.append (0 : Fin 2) 5 8, .append 1 6 16, .append 0 7 24, .append 0 9 32, .remove 0 24] (by
      simp [Guarded, Legal, apply, cells, Fin.forall_fin_two])
  exact ⟨s, reached, rep.forward 0, rep.backward 0⟩

end PiOS.Proof.Lists
