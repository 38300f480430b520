import PiOS.Proof.Steps
import PiOS.Queue.Counted
import PiOS.Transition.Population

namespace PiOS.Proof
open Kernel Queue Transition Function

def mail (p : Proc) : List Signal × Int := (p.signalQueue, p.signalSema)

def mailbox (members : Nat) (phase : Nat → Phase) (h : History) (j : Nat) (p : Proc) : Counted Signal where
  queue := p.signalQueue
  count := p.signalSema
  toRaise := population (Finset.range members) phase (fun place => place = .up j)
  toTake := if phase j = .waited then 1 else 0
  toLower := 0
  sent := h.sent j
  taken := h.taken j

def target : Phase → Option Nat
  | .append t _ | .up t => some t
  | _ => none

structure Consistent (procs : List Proc) (phase : Nat → Phase) (h : History) : Prop where
  boxes : ∀ (j : Nat) (p : Proc), procs[j]? = some p →
    (mailbox procs.length phase h j p).Balanced
  fresh : ∀ j, procs.length ≤ j → phase j = .user ∧ h.sent j = [] ∧ h.taken j = []
  targets : ∀ i t, target (phase i) = some t → t < procs.length

def Plain : Phase → Prop
  | .waited | .up _ => False
  | _ => True

variable {place : Phase}

theorem Plain.not_up (plain : Plain place) (j : Nat) : place ≠ .up j := by
  rintro rfl
  exact plain

theorem Plain.not_waited (plain : Plain place) : place ≠ .waited := by
  rintro rfl
  exact plain

section

variable {members : Nat} {phase : Nat → Phase} {h : History} {i j : Nat} {p q : Proc}

theorem mailbox_mail (same : mail p = mail q) : mailbox members phase h j p = mailbox members phase h j q := by
  have queue : p.signalQueue = q.signalQueue := congrArg Prod.fst same
  have sema : p.signalSema = q.signalSema := congrArg Prod.snd same
  simp only [mailbox, queue, sema]

theorem raising_update (phase : Nat → Phase) (j : Nat) (place : Phase) (inside : i < members) :
    population (Finset.range members) (update phase i place) (fun place => place = .up j) +
        (if phase i = .up j then 1 else 0) = population (Finset.range members) phase (fun place => place = .up j) +
        (if place = .up j then 1 else 0) :=
  population_update (Finset.mem_range.mpr inside) place

theorem raising_same (phase : Nat → Phase) (j : Nat) (place : Phase) (inside : i < members)
    (before : phase i ≠ .up j) (after : place ≠ .up j) :
    population (Finset.range members) (update phase i place) (fun place => place = .up j) =
      population (Finset.range members) phase (fun place => place = .up j) := by
  simpa [before, after] using raising_update phase j place inside

theorem waiting_same (phase : Nat → Phase) (place : Phase) (before : phase i ≠ .waited)
    (after : place ≠ .waited) (j : Nat) : (update phase i place j = .waited) = (phase j = .waited) := by
  by_cases own : j = i
  · subst own
    simp [before, after]
  · simp [own]

theorem mailbox_move (inside : i < members) {place : Phase} (before : Plain (phase i)) (after : Plain place) :
    mailbox members (update phase i place) h j p = mailbox members phase h j p := by
  simp only [mailbox, raising_same phase j place inside (before.not_up j) (after.not_up j),
    waiting_same phase place before.not_waited after.not_waited]

end

section

variable {k : KernelState} {procs procs' : List Proc} {phase : Nat → Phase} {h h' : History} {i : Nat}

theorem Consistent.mails (consistent : Consistent procs phase h)
    (same : procs'.map mail = procs.map mail) : Consistent procs' phase h := by
  have length : procs'.length = procs.length := by simpa using congrArg List.length same
  refine ⟨fun j p here => ?_, ?_, ?_⟩
  · have mails := congrArg (fun mails => mails[j]?) same
    simp only [List.getElem?_map, here, Option.map_some] at mails
    obtain ⟨q, there, equal⟩ := Option.map_eq_some_iff.mp mails.symm
    rw [length, mailbox_mail equal.symm]
    exact consistent.boxes j q there
  · rw [length]
    exact consistent.fresh
  · rw [length]
    exact consistent.targets

theorem Consistent.move (consistent : Consistent procs phase h) (place : Phase)
    (inside : i < procs.length) (before : Plain (phase i)) (after : Plain place)
    (aims : ∀ t, target place = some t → t < procs.length) : Consistent procs (update phase i place) h := by
  refine ⟨fun j p here => ?_, fun j outside => ?_, fun j t aim => ?_⟩
  · rw [mailbox_move inside before after]
    exact consistent.boxes j p here
  · rw [update_of_ne (by omega)]
    exact consistent.fresh j outside
  · by_cases own : j = i
    · subst own
      rw [update_self] at aim
      exact aims t aim
    · rw [update_of_ne own] at aim
      exact consistent.targets j t aim

theorem Consistent.record (consistent : Consistent procs phase h) (sent : h'.sent = h.sent)
    (taken : h'.taken = h.taken) : Consistent procs phase h' := by
  refine ⟨fun j p here => ?_, fun j outside => ?_, consistent.targets⟩
  · simpa only [mailbox, sent, taken] using consistent.boxes j p here
  · rw [sent, taken]
    exact consistent.fresh j outside

variable {t : Nat} {place : Phase} {signal : Signal} {p : Proc} {queue : List Signal}

theorem Consistent.steps (consistent : Consistent k.procs phase h) {q : Proc}
    (there : k.procs[t]? = some q) {f : Proc → Proc} {phase' : Nat → Phase}
    (own : Counted.Steps (mailbox k.procs.length phase h t q) (mailbox k.procs.length phase' h' t (f q)))
    (others : ∀ j p, j ≠ t → mailbox k.procs.length phase' h' j p = mailbox k.procs.length phase h j p)
    (stay : ∀ j, k.procs.length ≤ j → phase' j = phase j)
    (aims : ∀ j t, target (phase' j) = some t → t < k.procs.length) :
    Consistent (k.modifyProc t f).procs phase' h' := by
  have inside : t < k.procs.length := (List.getElem?_eq_some_iff.mp there).1
  refine ⟨fun j p here => ?_, fun j outside => ?_, fun j t aim => ?_⟩
  · rw [modifyProc_length]
    by_cases same : j = t
    · subst same
      rw [modifyProc_self, there, Option.map_some] at here
      obtain rfl := Option.some.inj here
      exact (consistent.boxes j q there).steps own
    · rw [modifyProc_of_ne _ _ _ same] at here
      rw [others j p same]
      exact consistent.boxes j p here
  · rw [modifyProc_length] at outside
    obtain ⟨idle, sent, taken⟩ := consistent.fresh j outside
    have box := others j q (by omega)
    refine ⟨by rw [stay j outside, idle], ?_, ?_⟩
    · rw [← sent]
      exact congrArg Counted.sent box
    · rw [← taken]
      exact congrArg Counted.taken box
  · rw [modifyProc_length]
    exact aims j t aim

theorem Consistent.aims (consistent : Consistent procs phase h) (aim : ∀ t, target place = some t → t < procs.length) :
    ∀ j t, target (update phase i place j) = some t → t < procs.length := by
  intro j t towards
  by_cases own : j = i
  · subst own
    rw [update_self] at towards
    exact aim t towards
  · rw [update_of_ne own] at towards
    exact consistent.targets j t towards

theorem update_outside (inside : i < procs.length) (j : Nat)
    (outside : procs.length ≤ j) : update phase i place j = phase j :=
  update_of_ne (by omega) _ _

theorem Consistent.append (consistent : Consistent k.procs phase h) (inside : i < k.procs.length)
    (place : phase i = .append t signal)
    (sent : h'.sent = update h.sent t (h.sent t ++ [signal])) (taken : h'.taken = h.taken) :
    Consistent (k.modifyProc t fun q => listAppendSignal q signal).procs (update phase i (.up t)) h' := by
  have small : t < k.procs.length := consistent.targets i t (by rw [place]; rfl)
  refine consistent.steps (List.getElem?_eq_getElem small) ?_ ?_ (update_outside inside)
    (consistent.aims fun u aim => Option.some.inj aim ▸ small)
  · have raising := raising_update phase t (.up t) inside
    have waiting := waiting_same (i := i) phase (.up t) (by simp [place]) (by simp) t
    simp only [place, reduceCtorEq, if_false, if_true, Nat.add_zero] at raising
    apply Relation.ReflTransGen.single
    simpa only [mailbox, raising, waiting, sent, taken, update_self, listAppendSignal] using
      Counted.Step.append (mailbox k.procs.length phase h t k.procs[t]) signal
  · intro j p other
    have raising := raising_same phase j (.up t) inside (by simp [place])
      (by simpa using Ne.symm other)
    have waiting := waiting_same (i := i) phase (.up t) (by simp [place]) (by simp) j
    simp only [mailbox, raising, waiting, sent, taken, update_of_ne other]

theorem Consistent.raise (consistent : Consistent k.procs phase h) (inside : i < k.procs.length)
    (place : phase i = .up t) : Consistent (k.modifyProc t semaphoreUpSignal).procs (update phase i .done) h := by
  have small : t < k.procs.length := consistent.targets i t (by rw [place]; rfl)
  refine consistent.steps (List.getElem?_eq_getElem small) ?_ ?_ (update_outside inside)
    (consistent.aims fun u aim => by cases aim)
  · have raising := raising_update phase t .done inside
    have waiting := waiting_same (i := i) phase .done (by simp [place]) (by simp) t
    simp only [place, reduceCtorEq, if_false, if_true, Nat.add_zero] at raising
    apply Relation.ReflTransGen.single
    simpa only [mailbox, waiting, semaphoreUpSignal] using
      Counted.Step.raise (mailbox k.procs.length phase h t k.procs[t]) _ raising.symm
  · intro j p other
    have raising := raising_same phase j .done inside
      (by simpa [place] using Ne.symm other) (by simp)
    have waiting := waiting_same (i := i) phase .done (by simp [place]) (by simp) j
    simp only [mailbox, raising, waiting]

theorem waiting_of_ne {j : Nat} (other : j ≠ i) : (update phase i place j = .waited) = (phase j = .waited) := by
  rw [update_of_ne other]

section

variable (consistent : Consistent k.procs phase h)
include consistent

theorem Consistent.lower (here : k.procs[i]? = some p) (place : Plain (phase i)) (up : 0 < p.signalSema) :
    Consistent (k.modifyProc i fun p => { p with signalSema := p.signalSema - 1 }).procs
      (update phase i .waited) h := by
  have inside : i < k.procs.length := (List.getElem?_eq_some_iff.mp here).1
  have raising := fun j => raising_same phase j .waited inside
    (place.not_up j) (by simp)
  refine consistent.steps here ?_ ?_ (update_outside inside) (consistent.aims fun u aim => by cases aim)
  · apply Relation.ReflTransGen.single
    simpa only [mailbox, raising, update_self, if_true, place.not_waited, if_false] using
      Counted.Step.lower (mailbox k.procs.length phase h i p) up
  · intro j q other
    simp only [mailbox, raising, waiting_of_ne other]

theorem Consistent.take
    (here : k.procs[i]? = some p) (place : phase i = .waited) (first : p.signalQueue = signal :: queue) :
    Consistent (k.modifyProc i fun p => { p with signalQueue := queue }).procs
      (update phase i .done) (h.recordTaken i [signal]) := by
  have inside : i < k.procs.length := (List.getElem?_eq_some_iff.mp here).1
  have raising := fun j => raising_same phase j .done inside
    (by simp [place]) (by simp)
  refine consistent.steps here ?_ ?_ (update_outside inside) (consistent.aims fun u aim => by cases aim)
  · apply Relation.ReflTransGen.single
    simpa [mailbox, raising, History.recordTaken, place] using
      Counted.Step.take (mailbox k.procs.length phase h i p) 0 (by simp [mailbox, place]) signal queue first
  · intro j q other
    simp only [mailbox, raising, History.recordTaken, update_of_ne other]

theorem Consistent.deliver (here : k.procs[i]? = some p)
    (first : p.signalQueue = signal :: queue) (up : 0 < p.signalSema) : Consistent (k.modifyProc i fun p => { p with
      signalQueue := queue, signalSema := p.signalSema - 1 }).procs phase (h.recordTaken i [signal]) := by
  refine consistent.steps here ?_ ?_ (fun _ _ => rfl) consistent.targets
  · simpa [mailbox, History.recordTaken] using
      Counted.Steps.deliver (mailbox k.procs.length phase h i p) signal queue first up
  · intro j q other
    simp only [mailbox, History.recordTaken, update_of_ne other]

theorem Consistent.send (small : t < k.procs.length)
    (signal : Signal) (sent : h'.sent = update h.sent t (h.sent t ++ [signal])) (taken : h'.taken = h.taken) :
    Consistent (k.modifyProc t fun q => signalled q signal).procs phase h' := by
  refine consistent.steps (List.getElem?_eq_getElem small) ?_ ?_ (fun _ _ => rfl) consistent.targets
  · simpa [mailbox, sent, taken, signalled, semaphoreUpSignal, listAppendSignal] using
      Counted.Steps.send (mailbox k.procs.length phase h t k.procs[t]) signal
  · intro j q other
    simp only [mailbox, sent, taken, update_of_ne other]

theorem Consistent.alarms {k' : KernelState}
    (switched : Switched k k') : Consistent k'.procs phase (h.recordAlarms k.procs k'.procs) := by
  refine ⟨fun j p' there => ?_, fun j outside => ?_, ?_⟩
  · have inside : j < k.procs.length := by
      rw [← switched.length]
      exact (List.getElem?_eq_some_iff.mp there).1
    have here : k.procs[j]? = some k.procs[j] := List.getElem?_eq_getElem inside
    obtain ⟨q, equal, effect⟩ := switched.each j _ here
    obtain rfl := Option.some.inj (there.symm.trans equal)
    obtain ⟨alarms, queue, sema⟩ := effect.mail
    refine (consistent.boxes j _ here).steps ?_
    have recorded : (h.recordAlarms k.procs k'.procs).sent j = h.sent j ++ alarms := by
      simp [History.recordAlarms, here, there, queue]
    have kept : (h.recordAlarms k.procs k'.procs).taken = h.taken := rfl
    simpa only [mailbox, switched.length, recorded, kept, queue, sema] using
      Counted.Steps.sendAll (mailbox k.procs.length phase h j k.procs[j]) alarms
  · rw [switched.length] at outside
    obtain ⟨idle, sent, taken⟩ := consistent.fresh j outside
    refine ⟨idle, ?_, taken⟩
    simp [History.recordAlarms, List.getElem?_eq_none outside, sent]
  · rw [switched.length]
    exact consistent.targets

end

theorem Consistent.grow (consistent : Consistent procs phase h) {child : Proc} (fresh : Fresh child) :
    Consistent (procs ++ [child]) phase h := by
  have raising : ∀ j, population (Finset.range (procs.length + 1)) phase (fun place => place = .up j) =
      population (Finset.range procs.length) phase (fun place => place = .up j) := by
    intro j
    rw [Finset.range_add_one]
    apply population_insert
    simp [(consistent.fresh procs.length le_rfl).1]
  refine ⟨fun j p here => ?_, fun j outside => ?_, fun i t aim => ?_⟩
  · simp only [mailbox, List.length_append, List.length_singleton, raising]
    by_cases inside : j < procs.length
    · rw [List.getElem?_append_left inside] at here
      exact consistent.boxes j p here
    · obtain ⟨idle, sent, taken⟩ := consistent.fresh j (not_lt.mp inside)
      have last : j = procs.length := by
        have small := (List.getElem?_eq_some_iff.mp here).1
        simp only [List.length_append, List.length_singleton] at small
        omega
      subst last
      rw [List.getElem?_append_right le_rfl, Nat.sub_self] at here
      obtain rfl := Option.some.inj here
      have nobody : population (Finset.range procs.length) phase (fun place => place = .up procs.length) =
          0 := by
        apply Finset.card_eq_zero.mpr
        apply Finset.filter_eq_empty_iff.mpr
        intro i _ raises
        exact lt_irrefl _ (consistent.targets i procs.length (by rw [raises]; rfl))
      simpa only [nobody, idle, sent, taken, fresh.queue, fresh.sema, reduceCtorEq, if_false] using
        Counted.balanced_empty
  · simp only [List.length_append, List.length_singleton] at outside
    exact consistent.fresh j (by omega)
  · have small := consistent.targets i t aim
    simp only [List.length_append, List.length_singleton]
    omega

theorem Consistent.start (settled : ∀ p ∈ k.procs, (p.signalQueue.length : Int) = p.signalSema) :
    Consistent (Machine.start k).kernel.procs (Machine.start k).phase (Machine.start k).history := by
  refine ⟨fun j p here => ?_, fun j outside => ?_, fun i t aim => by cases aim⟩
  · have nobody : population (Finset.range k.procs.length) (fun _ => Phase.user)
        (fun place => place = .up j) = 0 := by
      simp [population]
    have balance := settled p (List.mem_of_getElem? here)
    refine ⟨?_, ?_, ?_⟩
    · simpa [mailbox, Machine.start, nobody] using balance
    · simp only [mailbox, ← balance]
      exact Int.natCast_nonneg _
    · simp only [mailbox, Machine.start] at here ⊢
      simp [here]
  · simp only [Machine.start] at outside ⊢
    simp [List.getElem?_eq_none outside]

end

end PiOS.Proof
