import PiOS.Kernel.Machine
import PiOS.Transition.Cycle
import PiOS.Transition.Outcome
import PiOS.Transition.Run

namespace PiOS.Proof
open Kernel Transition

def signalled (p : Proc) (signal : Signal) : Proc := semaphoreUpSignal (listAppendSignal p signal)

/-- What the alarm check of a scan leaves of a process. -/
def alarmed (t : BitVec 32) (p : Proc) : Proc :=
  if alarmDue t p then { signalled p ⟨sigTypeAlarm, p.alarmTicks.setWidth 16⟩ with alarmTicks := 0 } else p

theorem alarmed_quiet (t : BitVec 32) (p : Proc) : alarmDue t (alarmed t p) = false := by
  unfold alarmed
  split
  · simp [alarmDue]
  · rename_i quiet
    exact Bool.eq_false_of_not_eq_true quiet

theorem kmalloc_fails (heap : HeapMemory) (size : Word) :
    Ensures (kmalloc heap size) (fun _ => True) fun stop => stop = .panic "kmalloc: out of memory" := by
  unfold kmalloc
  split
  · exact Ensures.ok trivial
  · exact Ensures.error rfl

theorem signalBlocks_error {heap : HeapMemory} {stop : Stop} (full : signalBlocks heap = .error stop) :
    stop = .panic "kmalloc: out of memory" := by
  have blocks : Ensures (signalBlocks heap) (fun _ => True) fun stop => stop = .panic "kmalloc: out of memory" :=
    Ensures.bind (kmalloc_fails _ _) fun _ _ => Ensures.bind (kmalloc_fails _ _) fun _ _ => Ensures.ok trivial
  exact blocks.failed full

namespace Sched

/-- A process `sched_pick_next` can pick: one that runs, or sleeps on a semaphore that is up, an
alarm sent to it by this scan included. -/
def Eligible (k : KernelState) (p : Proc) : Prop :=
  let p := alarmed k.sysTicks p
  (p.state = .runnable ∨ p.state = .syscall) ∨
    (p.state = .blocked ∨ p.state = .syscallBlocked) ∧ semaReady k.semas p

instance (k : KernelState) (p : Proc) : Decidable (Eligible k p) := by
  unfold Eligible
  infer_instance

def SomeEligible (k : KernelState) : Prop := ∃ p ∈ k.procs, Eligible k p

def LastAlive (k : KernelState) : Prop :=
  ∃ i p, k.lastElement = some i ∧ k.procs[i]? = some p ∧ p.state ≠ .dead

def ringing (k : KernelState) (p : Proc) : Bool := p.state ≠ .dead && alarmDue k.sysTicks p

def signalRoom : Nat → HeapMemory → Except Stop HeapMemory
  | 0, heap => .ok heap
  | n + 1, heap => signalBlocks heap >>= signalRoom n

/-- The heap has room for the signals of the alarms that are due. -/
def AlarmsFit (k : KernelState) : Prop := (signalRoom (k.procs.countP (ringing k)) k.heap).isOk = true

instance (k : KernelState) : Decidable (AlarmsFit k) := inferInstanceAs (Decidable (_ = true))

@[simp] theorem alarmed_state (t : BitVec 32) (p : Proc) : (alarmed t p).state = p.state := by
  unfold alarmed
  split <;> rfl

@[simp] theorem alarmed_idem (t : BitVec 32) (p : Proc) : alarmed t (alarmed t p) = alarmed t p :=
  if_neg (by rw [alarmed_quiet]; decide)

variable {k k' : KernelState} {p : Proc} {first : Option Nat} {fuel : Nat} {i : Nat}

theorem eligible_not_dead (eligible : Eligible k p) : p.state ≠ .dead := by
  intro dead
  simp [Eligible, dead] at eligible

def picked (p : Proc) : Proc :=
  if p.state = .runnable ∨ p.state = .syscall then p else wake p

def alarmHeap (k : KernelState) (p : Proc) : Except Stop HeapMemory :=
  if alarmDue k.sysTicks p then signalBlocks k.heap else .ok k.heap

theorem checkAlarm_eq (here : k.procs[i]? = some p) : checkAlarm k i p = (alarmHeap k p).map fun heap =>
    { k with heap := heap, procs := k.procs.set i (alarmed k.sysTicks p) } := by
  obtain ⟨small, rfl⟩ := List.getElem?_eq_some_iff.mp here
  have sets : ∀ f : Proc → Proc, k.procs.modify i f = k.procs.set i (f k.procs[i]) := by
    intro f
    apply List.ext_getElem?
    intro j
    by_cases same : i = j
    · subst same
      simp [small]
    · simp [same]
  unfold checkAlarm alarmHeap alarmed
  by_cases due : alarmDue k.sysTicks k.procs[i] = true
  · simp only [due, if_true, signalSend]
    cases signalBlocks k.heap with
    | error stop => rfl
    | ok heap =>
      simp only [bind, Except.bind, Except.map, KernelState.modifyProc, List.modify_modify_eq]
      rw [sets]
      rfl
  · simp [due, Except.map]

/-- The state behind the alarm check of the next process. -/
def visited (k : KernelState) (p : Proc) (heap : HeapMemory) : KernelState :=
  { k with
    lastElement := some (nextElement k.procs k.lastElement)
    heap := heap
    procs := k.procs.set (nextElement k.procs k.lastElement) (alarmed k.sysTicks p) }

inductive Turns (first : Option Nat) (k : KernelState) (p : Proc) : Except Stop Turn → Prop
  | dead (dead : p.state = .dead) :
      Turns first k p (.ok (.again { k with lastElement := some (nextElement k.procs k.lastElement) }))
  | full {stop : Stop} (alive : p.state ≠ .dead) (full : alarmHeap k p = .error stop) : Turns first k p (.error stop)
  | pick {heap : HeapMemory} (eligible : Eligible k p) (room : alarmHeap k p = .ok heap) :
      Turns first k p (.ok (.leave { visited k p heap with
        procs := k.procs.set (nextElement k.procs k.lastElement) (picked (alarmed k.sysTicks p))
        currentProc := some (nextElement k.procs k.lastElement) }))
  | idle {heap : HeapMemory} (alive : p.state ≠ .dead) (waits : ¬ Eligible k p) (room : alarmHeap k p = .ok heap)
      (start : first = some (nextElement k.procs k.lastElement)) :
      Turns first k p (.ok (.leave { visited k p heap with currentProc := none }))
  | pass {heap : HeapMemory} (alive : p.state ≠ .dead) (waits : ¬ Eligible k p) (room : alarmHeap k p = .ok heap)
      (elsewhere : first ≠ some (nextElement k.procs k.lastElement)) :
      Turns first k p (.ok (.again (visited k p heap)))

theorem schedTurn_turns (first : Option Nat) (here : k.procs[nextElement k.procs k.lastElement]? = some p) :
    Turns first k p (schedTurn first k) := by
  have small := (List.getElem?_eq_some_iff.mp here).1
  unfold schedTurn
  simp only [here]
  split
  · rename_i dead
    exact .dead dead
  rename_i alive
  rw [checkAlarm_eq (k := { k with lastElement := some (nextElement k.procs k.lastElement) }) here]
  change Turns first k p (Except.map _ (Except.map _ (alarmHeap k p)))
  cases room : alarmHeap k p with
  | error stop => exact .full alive room
  | ok heap =>
    simp only [Except.map, schedLook, List.getElem?_set_self small, alarmed_state]
    by_cases runs : p.state = .runnable ∨ p.state = .syscall
    · simp only [runs, if_true]
      have eligible : Eligible k p := Or.inl (by simpa using runs)
      have turn : Turns first k p _ := .pick eligible room
      simpa only [visited, picked, alarmed_state, runs, if_true] using turn
    · simp only [runs, if_false]
      by_cases ready : (p.state = .blocked ∨ p.state = .syscallBlocked) ∧
          semaReady k.semas (alarmed k.sysTicks p) = true
      · simp only [ready, and_self, if_true]
        have eligible : Eligible k p := Or.inr (by simpa using ready)
        have turn : Turns first k p _ := .pick eligible room
        simpa only [visited, picked, alarmed_state, runs, if_false, List.set_set] using turn
      · simp only [ready, if_false]
        have waits : ¬ Eligible k p := by simpa [Eligible, runs] using ready
        by_cases turned : first = some (nextElement k.procs k.lastElement)
        · rw [if_pos turned.symm]
          exact .idle alive waits room turned
        · rw [if_neg (Ne.symm turned)]
          exact .pass alive waits room turned

theorem nextElement_eq (procs : List Proc) (last : Option Nat) :
    nextElement procs last = cycleNext procs.length last := by
  cases last <;> rfl

structure Valid (k : KernelState) : Prop where
  nonempty : k.procs ≠ []
  inside : ∀ i, k.lastElement = some i → i < k.procs.length

theorem Valid.here (valid : Valid k) : ∃ p, k.procs[nextElement k.procs k.lastElement]? = some p := by
  have small := cycleNext_lt (List.length_pos_iff.mpr valid.nonempty) k.lastElement
  rw [nextElement_eq]
  exact ⟨_, List.getElem?_eq_getElem small⟩

structure Scanned (k k' : KernelState) : Prop where
  ticks : k'.sysTicks = k.sysTicks
  semas : k'.semas = k.semas
  procs : k'.procs.map (alarmed k.sysTicks) = k.procs.map (alarmed k.sysTicks)

theorem map_set_alarmed (t : BitVec 32) {procs : List Proc} (here : procs[i]? = some p) :
    (procs.set i (alarmed t p)).map (alarmed t) = procs.map (alarmed t) := by
  rw [List.map_set, alarmed_idem]
  apply List.ext_getElem?
  intro j
  by_cases same : i = j
  · subst same
    obtain ⟨small, rfl⟩ := List.getElem?_eq_some_iff.mp here
    simp [small]
  · simp [List.getElem?_set_ne same]

theorem Scanned.length (scanned : Scanned k k') : k'.procs.length = k.procs.length := by
  simpa using congrArg List.length scanned.procs

theorem Scanned.symm (scanned : Scanned k k') : Scanned k' k where
  ticks := scanned.ticks.symm
  semas := scanned.semas.symm
  procs := by rw [scanned.ticks]; exact scanned.procs.symm

theorem Scanned.at (scanned : Scanned k k') {j : Nat} (here : k.procs[j]? = some p) :
    ∃ p', k'.procs[j]? = some p' ∧ p'.state = p.state ∧ (Eligible k' p' ↔ Eligible k p) := by
  have same := congrArg (fun procs : List Proc => procs[j]?) scanned.procs
  simp only [List.getElem?_map, here, Option.map_some] at same
  obtain ⟨p', there, equal⟩ := Option.map_eq_some_iff.mp same
  refine ⟨p', there, ?_, ?_⟩
  · rw [← alarmed_state k.sysTicks p', equal, alarmed_state]
  · simp only [Eligible, scanned.ticks, scanned.semas, equal]

theorem visited_scanned (here : k.procs[nextElement k.procs k.lastElement]? = some p) (heap : HeapMemory) :
    Scanned k (visited k p heap) :=
  ⟨rfl, rfl, map_set_alarmed _ here⟩

theorem schedTurn_again (valid : Valid k) (turn : schedTurn first k = .ok (.again k')) :
    Scanned k k' ∧ k'.lastElement = some (nextElement k.procs k.lastElement) := by
  obtain ⟨p, here⟩ := valid.here
  have turns := schedTurn_turns first here
  rw [turn] at turns
  cases turns with
  | dead => exact ⟨⟨rfl, rfl, rfl⟩, rfl⟩
  | pass => exact ⟨visited_scanned here _, rfl⟩

theorem Valid.again (valid : Valid k) (turn : schedTurn first k = .ok (.again k')) : Valid k' := by
  obtain ⟨scanned, last⟩ := schedTurn_again valid turn
  have positive := List.length_pos_iff.mpr valid.nonempty
  refine ⟨List.length_pos_iff.mp (by rw [scanned.length]; exact positive), ?_⟩
  intro i at_i
  rw [last] at at_i
  obtain rfl := Option.some.inj at_i
  rw [scanned.length, nextElement_eq]
  exact cycleNext_lt positive _

theorem AlarmsFit.visited (fits : AlarmsFit k) (here : k.procs[nextElement k.procs k.lastElement]? = some p)
    (alive : p.state ≠ .dead) : ∃ heap, alarmHeap k p = .ok heap ∧ AlarmsFit (visited k p heap) := by
  obtain ⟨small, same⟩ := List.getElem?_eq_some_iff.mp here
  have quiet : ringing k (alarmed k.sysTicks p) = false := by simp [ringing, alarmed_quiet]
  have left (heap : HeapMemory) : (Sched.visited k p heap).procs.countP (ringing (Sched.visited k p heap)) =
      k.procs.countP (ringing k) - if ringing k p then 1 else 0 := by
    have counts := List.countP_set (p := ringing k) (a := alarmed k.sysTicks p) small
    rwa [quiet, same, if_neg Bool.false_ne_true, Nat.add_zero] at counts
  unfold AlarmsFit at fits ⊢
  simp only [left]
  by_cases due : alarmDue k.sysTicks p = true
  · have rings : ringing k p = true := by simp [ringing, alive, due]
    obtain ⟨n, count⟩ := Nat.exists_eq_add_one.mpr (List.countP_pos_iff.mpr ⟨p, List.mem_of_getElem? here, rings⟩)
    rw [count] at fits ⊢
    rw [alarmHeap, if_pos due, if_pos rings]
    cases blocks : signalBlocks k.heap with
    | error stop =>
      rw [signalRoom, blocks] at fits
      cases fits
    | ok heap =>
      rw [signalRoom, blocks] at fits
      exact ⟨heap, rfl, fits⟩
  · rw [alarmHeap, if_neg due, if_neg (by simp [ringing, due])]
    exact ⟨_, rfl, fits⟩

theorem schedTurn_fits (first : Option Nat) (valid : Valid k) (fits : AlarmsFit k) :
    ∃ turn, schedTurn first k = .ok turn ∧ ∀ k', turn = .again k' → AlarmsFit k' := by
  obtain ⟨p, here⟩ := valid.here
  have turns := schedTurn_turns first here
  generalize schedTurn first k = out at turns
  cases turns with
  | dead =>
    refine ⟨_, rfl, fun k' again => ?_⟩
    cases again
    exact fits
  | full alive full =>
    obtain ⟨heap, room, -⟩ := fits.visited here alive
    rw [full] at room
    cases room
  | pick | idle => exact ⟨_, rfl, nofun⟩
  | pass alive _ room =>
    refine ⟨_, rfl, fun k' again => ?_⟩
    cases again
    obtain ⟨heap, room', fits'⟩ := fits.visited here alive
    rw [room] at room'
    cases room'
    exact fits'

theorem schedScan_leaves (first : Option Nat) (j : Nat) (k : KernelState) (valid : Valid k) (fits : AlarmsFit k)
    (p : Proc) (there : k.procs[j]? = some p) (alive : p.state ≠ .dead) (stop : Eligible k p ∨ first = some j) :
    ∃ k', schedScan first (movesTo k.procs.length k.lastElement j) k = some (.ok k') := by
  have small : j < k.procs.length := (List.getElem?_eq_some_iff.mp there).1
  -- the induction is on the moves left until the scan comes to `j`
  generalize moves : movesTo k.procs.length k.lastElement j = fuel
  induction fuel generalizing k p with
  | zero =>
    have := movesTo_pos (j := j) valid.inside
    omega
  | succ fuel ih =>
    simp only [schedScan]
    obtain ⟨turn, made, later⟩ := schedTurn_fits first valid fits
    rw [made]
    cases turn with
    | leave k' => exact ⟨k', rfl⟩
    | again k' =>
      obtain ⟨scanned, last⟩ := schedTurn_again valid made
      obtain ⟨p', there', sameState, sameEligible⟩ := scanned.at there
      have elsewhere : cycleNext k.procs.length k.lastElement ≠ j := by
        intro arrived
        rw [← arrived, ← nextElement_eq] at there stop
        have turns := schedTurn_turns first there
        rw [made] at turns
        cases turns with
        | dead dead => exact alive dead
        | pass _ waits _ ne => exact stop.elim waits ne
      refine ih k' (valid.again made) (later k' rfl) p' there' (by rwa [sameState]) (stop.imp_left sameEligible.mpr) (by rwa [scanned.length]) ?_
      rw [scanned.length, last, nextElement_eq]
      have := movesTo_next small valid.inside elsewhere
      omega

/-- What every turn of a scan that goes on keeps holds before its last turn. -/
theorem schedScan_ends {I : KernelState → Prop} {out : Except Stop KernelState}
    (again : ∀ k k', I k → schedTurn first k = .ok (.again k') → I k') (start : I k)
    (ended : schedScan first fuel k = some out) : ∃ k₁, I k₁ ∧ schedTurn first k₁ = out.map .leave := by
  induction fuel generalizing k with
  | zero => cases ended
  | succ fuel ih =>
    simp only [schedScan] at ended
    split at ended
    · rename_i turn
      cases ended
      exact ⟨k, start, turn⟩
    · rename_i turn
      exact ih (again k _ start turn) ended
    · rename_i turn
      cases ended
      exact ⟨k, start, turn⟩

theorem Scanned.trans {k'' : KernelState} (first : Scanned k k') (second : Scanned k' k'') : Scanned k k'' :=
  ⟨second.ticks.trans first.ticks, second.semas.trans first.semas,
    by have procs := second.procs; rw [first.ticks] at procs; exact procs.trans first.procs⟩

theorem schedScan_stops (valid : Valid k) (ended : schedScan first fuel k = some (.ok k')) :
    SomeEligible k ∨ k'.currentProc = none ∧ ∃ i p, first = some i ∧ k.procs[i]? = some p ∧ p.state ≠ .dead := by
  obtain ⟨k₁, ⟨valid₁, scanned⟩, turn⟩ := schedScan_ends (I := fun k₁ => Valid k₁ ∧ Scanned k k₁)
    (fun k₁ k₂ inv turn => ⟨inv.1.again turn, inv.2.trans (schedTurn_again inv.1 turn).1⟩)
    ⟨valid, rfl, rfl, rfl⟩ ended
  obtain ⟨p, here⟩ := valid₁.here
  obtain ⟨q, there, state, eligible⟩ := scanned.symm.at here
  have turns := schedTurn_turns first here
  rw [turn] at turns
  cases turns with
  | pick picked => exact Or.inl ⟨q, List.mem_of_getElem? there, eligible.mpr picked⟩
  | idle alive _ _ start => exact Or.inr ⟨rfl, _, q, start, there, by rwa [state]⟩

theorem schedScan_room (first : Option Nat) (fuel : Nat) (valid : Valid k) (fits : AlarmsFit k) (stop : Stop) :
    schedScan first fuel k ≠ some (.error stop) := by
  intro ended
  obtain ⟨k₁, ⟨valid₁, fits₁⟩, failed⟩ := schedScan_ends (I := fun k => Valid k ∧ AlarmsFit k)
    (fun k k' inv turn => by
      obtain ⟨out, made, later⟩ := schedTurn_fits first inv.1 inv.2
      exact ⟨inv.1.again turn, later k' (Except.ok.inj (made.symm.trans turn))⟩) ⟨valid, fits⟩ ended
  obtain ⟨turn, made, -⟩ := schedTurn_fits first valid₁ fits₁
  rw [failed] at made
  cases made

def PicksNext (k : KernelState) : Prop :=
  ∃ fuel k', schedPickNext fuel k = some (.ok k') ∧ (¬ SomeEligible k → k'.currentProc = none)

theorem schedPickNext_eq (valid : Valid k) (fuel : Nat) : schedPickNext fuel k = schedScan k.lastElement fuel k := by
  simp [schedPickNext, valid.nonempty]

theorem not_returns (valid : Valid k) (nobody : ¬ SomeEligible k) (dead : ¬ LastAlive k) :
    schedPickNext fuel k ≠ some (.ok k') := by
  rw [schedPickNext_eq valid]
  intro ended
  exact (schedScan_stops valid ended).elim nobody fun stops => dead stops.2

def threadAndUser : KernelState := runningFirst [kernelThread 1 0x211, userProc 2 0 0x212]

def threadSleepsUserExits : List Action :=
  [.sleep (.other 0) (userRegs 0 0 0 0 false) 8, .trap (userRegs Syscall.exit.number 0 0 0 false),
    .call (.refusing fun _ _ => 0), .proceed]

instance (k : KernelState) : Decidable (SomeEligible k) := inferInstanceAs (Decidable (∃ p ∈ k.procs, _))

end Sched

end PiOS.Proof
