import PiOS.Proof.Sched

namespace PiOS.Proof
open Kernel Sched Transition

inductive SchedEffect (sysTicks : BitVec 32) : Proc → Proc → Prop
  | same (p : Proc) : SchedEffect sysTicks p p
  | alarm {p q : Proc} : SchedEffect sysTicks p q → SchedEffect sysTicks p (alarmed sysTicks q)
  | wake {p q : Proc} : SchedEffect sysTicks p q → (q.state = .blocked ∨ q.state = .syscallBlocked) →
      SchedEffect sysTicks p (wake q)

structure Switched (k k' : KernelState) : Prop where
  ticks : k'.sysTicks = k.sysTicks
  semas : k'.semas = k.semas
  length : k'.procs.length = k.procs.length
  each : ∀ (j : Nat) (p : Proc), k.procs[j]? = some p →
    ∃ p', k'.procs[j]? = some p' ∧ SchedEffect k.sysTicks p p'

def Picked (k : KernelState) : Prop :=
  ∀ i : Nat, k.currentProc = some i → ∃ p, k.procs[i]? = some p ∧ (p.state = .runnable ∨ p.state = .syscall)

section

variable {t : BitVec 32} {p q r : Proc}

theorem SchedEffect.trans (first : SchedEffect t p q) (second : SchedEffect t q r) : SchedEffect t p r := by
  induction second with
  | same => exact first
  | alarm _ ih => exact ih.alarm
  | wake _ asleep ih => exact ih.wake asleep

theorem SchedEffect.keeps {α : Type} {π : Proc → α} (alarm : ∀ p, π (alarmed t p) = π p)
    (woken : ∀ p, π (Kernel.wake p) = π p) (effect : SchedEffect t p q) : π q = π p := by
  induction effect with
  | same => rfl
  | alarm _ ih => rw [alarm, ih]
  | wake _ _ ih => rw [woken, ih]

theorem alarmed_eq (t : BitVec 32) (p : Proc) :
    alarmed t p = p ∨ ∃ signal, alarmed t p = { signalled p signal with alarmTicks := 0 } := by
  unfold alarmed
  split
  · exact Or.inr ⟨_, rfl⟩
  · exact Or.inl rfl

theorem alarmed_keeps {α : Type} {π : Proc → α}
    (sent : ∀ p signal, π { signalled p signal with alarmTicks := 0 } = π p) (p : Proc) :
    π (alarmed t p) = π p := by
  rcases alarmed_eq t p with same | ⟨signal, fired⟩
  · rw [same]
  · rw [fired, sent]

theorem SchedEffect.state (effect : SchedEffect t p q) : q.state = p.state ∨
    p.state = .blocked ∧ q.state = .runnable ∨ p.state = .syscallBlocked ∧ q.state = .syscall := by
  induction effect with
  | same => exact Or.inl rfl
  | alarm _ ih => simpa using ih
  | wake _ asleep ih =>
    rcases ih with equal | ⟨-, runs⟩ | ⟨-, runs⟩
    · rcases asleep with blocked | blocked
      · exact Or.inr (Or.inl ⟨equal ▸ blocked, by simp [Kernel.wake, blocked]⟩)
      · exact Or.inr (Or.inr ⟨equal ▸ blocked, by simp [Kernel.wake, blocked]⟩)
    · simp [runs] at asleep
    · simp [runs] at asleep

theorem SchedEffect.mail (effect : SchedEffect t p q) : ∃ alarms : List Signal,
    q.signalQueue = p.signalQueue ++ alarms ∧ q.signalSema = p.signalSema + alarms.length := by
  induction effect with
  | same => exact ⟨[], by simp, by simp⟩
  | @alarm q effect ih =>
    obtain ⟨alarms, queue, sema⟩ := ih
    rcases alarmed_eq t q with same | ⟨signal, fired⟩
    · exact ⟨alarms, by rw [same, queue], by rw [same, sema]⟩
    · refine ⟨alarms ++ [signal], ?_, ?_⟩
      · simp [fired, signalled, semaphoreUpSignal, listAppendSignal, queue]
      · simp [fired, signalled, semaphoreUpSignal, listAppendSignal, sema, add_assoc]
  | wake _ _ ih => exact ih

end

theorem Switched.refl (k : KernelState) : Switched k k :=
  ⟨rfl, rfl, rfl, fun _ p here => ⟨p, here, .same p⟩⟩

variable {k k' : KernelState} {fuel : Nat} {stop : Stop}

theorem Switched.userspace (switched : Switched k k') :
    Switched k (switchToUserspace k') := ⟨switched.ticks, switched.semas, switched.length, switched.each⟩

theorem Switched.trans {k'' : KernelState} (first : Switched k k') (second : Switched k' k'') : Switched k k'' := by
  refine ⟨second.ticks.trans first.ticks, second.semas.trans first.semas, second.length.trans first.length,
    fun j p here => ?_⟩
  obtain ⟨p', there, effect⟩ := first.each j p here
  obtain ⟨p'', last, effect'⟩ := second.each j p' there
  rw [first.ticks] at effect'
  exact ⟨p'', last, effect.trans effect'⟩

theorem Switched.map {α : Type} {π : Proc → α} (switched : Switched k k')
    (sent : ∀ p signal, π { signalled p signal with alarmTicks := 0 } = π p)
    (woken : ∀ p, π (Kernel.wake p) = π p) : k'.procs.map π = k.procs.map π := by
  apply List.ext_getElem?
  intro j
  simp only [List.getElem?_map]
  cases here : k.procs[j]? with
  | none =>
    rw [List.getElem?_eq_none_iff, ← switched.length, ← List.getElem?_eq_none_iff] at here
    rw [here]
  | some p =>
    obtain ⟨q, there, effect⟩ := switched.each j p here
    rw [there]
    exact congrArg some (effect.keeps (alarmed_keeps sent) woken)

theorem Switched.last (switched : Switched k k') {last : Option Nat} : Switched k { k' with lastElement := last } :=
  ⟨switched.ticks, switched.semas, switched.length, switched.each⟩

theorem Switched.set {i : Nat} {p q : Proc} (here : k.procs[i]? = some p)
    (effect : SchedEffect k.sysTicks p q) (last current : Option Nat) (heap : HeapMemory) :
    Switched k { k with procs := k.procs.set i q, lastElement := last, currentProc := current, heap := heap } := by
  refine ⟨rfl, rfl, by simp, fun j p' there => ?_⟩
  by_cases own : i = j
  · subst own
    obtain rfl := Option.some.inj (here.symm.trans there)
    obtain ⟨small, -⟩ := List.getElem?_eq_some_iff.mp here
    exact ⟨q, by simp [small], effect⟩
  · exact ⟨p', by simpa [List.getElem?_set_ne own] using there, .same p'⟩

theorem picked_effect {t : BitVec 32} {p : Proc} (eligible : Eligible k p) :
    SchedEffect t p (picked (alarmed t p)) := by
  have start : SchedEffect t p (alarmed t p) := (SchedEffect.same p).alarm
  unfold picked
  split
  · exact start
  · rename_i sleeps
    rw [alarmed_state] at sleeps
    refine start.wake ?_
    rw [alarmed_state]
    simpa [Eligible, sleeps] using And.left (eligible.resolve_left (by simpa using sleeps))

theorem picked_state (p : Proc) : (picked p).state = .runnable ∨ (picked p).state = .syscall := by
  unfold picked
  split
  · assumption
  · unfold Kernel.wake
    split
    · exact Or.inl rfl
    · exact Or.inr rfl

theorem schedScan_switched (first : Option Nat) (fuel : Nat) (k : KernelState) (out : Except Stop KernelState)
    (ended : schedScan first fuel k = some out) :
    Ensures out (fun k' => Switched k k' ∧ Picked k') fun stop => stop = .panic "kmalloc: out of memory" := by
  induction fuel generalizing k with
  | zero => cases ended
  | succ fuel ih =>
    simp only [schedScan] at ended
    cases there : k.procs[nextElement k.procs k.lastElement]? with
    | none =>
      have moved : schedTurn first k =
          .ok (.again { k with lastElement := some (nextElement k.procs k.lastElement) }) := by
        simp [schedTurn, there]
      rw [moved] at ended
      exact (ih _ ended).mono (fun _ done => ⟨(Switched.refl k).last.trans done.1, done.2⟩) fun _ full => full
    | some p =>
      have turns := schedTurn_turns first there
      generalize schedTurn first k = turn at turns ended
      cases turns with
      | dead => exact (ih _ ended).mono (fun _ done => ⟨(Switched.refl k).last.trans done.1, done.2⟩) fun _ full => full
      | full _ full =>
        cases ended
        unfold alarmHeap at full
        split at full
        · exact signalBlocks_error full
        · cases full
      | pick eligible =>
        cases ended
        refine ⟨Switched.set there (picked_effect eligible) _ _ _, fun i chosen => ?_⟩
        obtain rfl := Option.some.inj chosen
        obtain ⟨small, -⟩ := List.getElem?_eq_some_iff.mp there
        exact ⟨_, List.getElem?_set_self small, picked_state _⟩
      | idle =>
        cases ended
        exact ⟨Switched.set there (SchedEffect.same p).alarm _ _ _, fun i chosen => by cases chosen⟩
      | pass =>
        have switched := Switched.set there (SchedEffect.same p).alarm
        exact (ih _ ended).mono (fun _ done => ⟨(switched _ _ _).trans done.1, done.2⟩) fun _ full => full

theorem schedPickNext_switched (picks : schedPickNext fuel k = some (.ok k')) : Switched k k' ∧ Picked k' := by
  unfold schedPickNext at picks
  split at picks
  · cases picks
  · exact schedScan_switched _ fuel k _ picks

theorem resumeCurrent_eq (resumed : resumeCurrent k = .ok k') : k' = switchToUserspace k := by
  unfold resumeCurrent at resumed
  split at resumed
  · cases resumed
  · exact (Except.ok.inj resumed).symm

theorem interruptEnd_switched {switch : Bool} (ended : interruptEnd fuel switch k = some (.ok k')) :
    Switched k k' ∧ (if switch then Picked k' else k'.currentProc = k.currentProc) := by
  cases switch with
  | true =>
    obtain ⟨picks, chosen, rest⟩ := Option.map_eq_some_iff.mp ended
    cases picks with
    | error stop => cases rest
    | ok next =>
      obtain rfl := resumeCurrent_eq rest
      obtain ⟨switched, runs⟩ := schedPickNext_switched chosen
      exact ⟨switched.userspace, runs⟩
  | false =>
    obtain rfl := resumeCurrent_eq (Option.some.inj ended)
    exact ⟨(Switched.refl k).userspace, rfl⟩

def ResumeFault (stop : Stop) : Prop :=
  stop = .assertion "proc_list.first != NULL" ∨
    stop = .assertion "current_proc->state != PROC_STATE_UNLOADED" ∨ stop = .panic "kmalloc: out of memory"

theorem schedPickNext_fault (failed : schedPickNext fuel k = some (.error stop)) : ResumeFault stop := by
  unfold schedPickNext at failed
  split at failed
  · cases failed
    exact Or.inl rfl
  · exact Or.inr (Or.inr (schedScan_switched _ fuel k _ failed))

theorem resumeCurrent_fault (failed : resumeCurrent k = .error stop) : ResumeFault stop := by
  unfold resumeCurrent at failed
  split at failed
  · exact Or.inr (Or.inl (Except.error.inj failed).symm)
  · cases failed

theorem interruptEnd_fault {switch : Bool}
    (failed : interruptEnd fuel switch k = some (.error stop)) : ResumeFault stop := by
  cases switch with
  | true =>
    obtain ⟨picks, chosen, rest⟩ := Option.map_eq_some_iff.mp failed
    cases picks with
    | error earlier =>
      obtain rfl := Except.error.inj rest
      exact schedPickNext_fault chosen
    | ok next => exact resumeCurrent_fault rest
  | false => exact resumeCurrent_fault (Option.some.inj failed)

theorem intSysCallSwitch_fault (failed : intSysCallSwitch fuel k = some (.error stop)) : ResumeFault stop := by
  obtain ⟨picks, chosen, rest⟩ := Option.map_eq_some_iff.mp failed
  cases picks with
  | error earlier =>
    obtain rfl := Except.error.inj rest
    exact schedPickNext_fault chosen
  | ok next => cases rest

theorem intSysCallSwitch_switched
    (ended : intSysCallSwitch fuel k = some (.ok k')) : Switched k.log k' ∧ Picked k' := by
  obtain ⟨picks, chosen, rest⟩ := Option.map_eq_some_iff.mp ended
  cases picks with
  | error stop => cases rest
  | ok next =>
    obtain rfl := Except.ok.inj rest
    obtain ⟨switched, runs⟩ := schedPickNext_switched chosen
    exact ⟨⟨switched.ticks, switched.semas, switched.length, switched.each⟩, runs⟩

end PiOS.Proof
