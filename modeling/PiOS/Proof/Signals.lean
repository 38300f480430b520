import PiOS.Proof.Mailbox
import PiOS.Proof.SignalFrame

namespace PiOS.Proof.Signals
open Kernel Queue Transition

def SignalAssert (stop : Stop) : Prop :=
  stop = .assertion "current_proc->signal_queue.first" ∨
    stop = .assertion "current_proc->signal_sema.count > 0"

/-- Neither assertion has failed, and the signals taken so far are the first ones sent, in order,
with the others still queued. -/
def SignalsSafe (m : Machine) : Prop :=
  (∀ stop, m.halted = some stop → ¬ SignalAssert stop) ∧
    ∀ (j : Nat) (p : Proc), m.kernel.procs[j]? = some p →
      m.history.sent j = m.history.taken j ++ p.signalQueue

/-- When a signal is about to be delivered, fewer senders stand between `list_append` and
`semaphore_up` on its queue than there are signals in it. -/
def Deliverable (m : Machine) : Action → Prop
  | .leave _ => ∀ i ∈ m.kernel.currentProc, ∀ p ∈ m.kernel.procs[i]?, p.state ≠ .dead →
      signalPending p = true →
      population (Finset.range m.kernel.procs.length) m.phase (fun place => place = .up i) <
        p.signalQueue.length
  | _ => True

instance (m : Machine) (action : Action) : Decidable (Deliverable m action) := by
  apply @Kernel.Action.casesOn (fun action => Decidable (Deliverable m action)) action <;> intros <;>
    dsimp only [Deliverable] <;> infer_instance

structure SignalInv (m : Machine) : Prop where
  consistent : Consistent m.kernel.procs m.phase m.history
  asserts : ∀ stop, m.halted = some stop → ¬ SignalAssert stop

variable {m : Machine} {stop : Stop}

theorem SignalInv.safe (inv : SignalInv m) : SignalsSafe m :=
  ⟨inv.asserts, fun j p here => (inv.consistent.boxes j p here).ordered⟩

theorem SignalInv.halt (inv : SignalInv m) (other : ¬ SignalAssert stop) : SignalInv (m.halt stop) :=
  ⟨inv.consistent, fun _ equal => Option.some.inj equal ▸ other⟩

theorem CallFault.not_signalAssert {p : Proc} {answers : Answers} (fault : CallFault p answers stop) : ¬ SignalAssert stop := by
  rintro (rfl | rfl) <;> exact fault

theorem ResumeFault.not_signalAssert (fault : ResumeFault stop) : ¬ SignalAssert stop := by
  rcases fault with rfl | rfl | rfl <;> simp [SignalAssert]

theorem ReturnFault.not_signalAssert (fault : ReturnFault stop) : ¬ SignalAssert stop := by
  rcases fault with rfl | rfl <;> simp [SignalAssert]

theorem mail_procState (p : Proc) (s : ProcState) : mail { p with procState := s } = mail p := rfl

section

variable {m m' : Machine} {i : Nat} {p : Proc}

theorem SignalInv.next (consistent : Consistent m'.kernel.procs m'.phase m'.history)
    (goes : m'.halted = none) : SignalInv m' :=
  ⟨consistent, fun stop halted => by rw [goes] at halted; cases halted⟩

variable (inv : SignalInv m) (goes : m.halted = none)
include inv goes

theorem resume_inv {before : KernelState} {x : Option (Except Stop KernelState)}
    (mails : Consistent before.procs m.phase m.history)
    (switches : ∀ after, x = some (.ok after) → Switched before after)
    (faults : ∀ stop, x = some (.error stop) → ResumeFault stop)
    (resumed : m.resume before x = some m') : SignalInv m' := by
  rcases resume_cases resumed with ⟨after, result, rfl⟩ | ⟨stop, result, rfl⟩
  · exact SignalInv.next (mails.alarms (switches after result)) goes
  · exact inv.halt (ResumeFault.not_signalAssert (faults stop result))

theorem irq_inv {state : IntHandlerState} {fuel : Nat} (taken : m.irq state fuel = some m') : SignalInv m' := by
  refine resume_inv inv goes ?_ (fun _ ended => (interruptEnd_switched ended).1)
    (fun _ failed => interruptEnd_fault failed) taken
  rw [countTick_procs]
  exact inv.consistent.mails (saveState_map mail_procState _ _)

variable (here : m.kernel.procs[i]? = some p)
include here

theorem trap_inv (state : IntHandlerState) (place : m.phase i = .user) :
    SignalInv ((m.setKernel (intSysCallEnter (countTick (saveState m.kernel state) state) i)).setPhase i .body) := by
  refine SignalInv.next ?_ goes
  have saved := saveState_map mail_procState m.kernel state
  rw [← countTick_procs _ state] at saved
  have entered := (intSysCallEnter_map mail_procState (countTick (saveState m.kernel state) state) i).trans
    (map_modifyProc _ i enterSyscall fun _ => rfl)
  refine Consistent.mails ?_ (entered.trans saved)
  exact inv.consistent.move .body (List.getElem?_eq_some_iff.mp here).1 (by rw [place]; trivial) trivial
    fun _ aim => by cases aim

theorem signal_inv {action : Action} (step : SignalStep m i p action m') : SignalInv m' := by
  have inside := (List.getElem?_eq_some_iff.mp here).1
  cases step with
  | refuse answers place call =>
    refine SignalInv.next (Consistent.mails ?_ (map_modifyProc _ _ _ fun _ => rfl)) goes
    exact inv.consistent.move .done inside (by rw [place]; trivial) trivial fun _ aim => by cases aim
  | down answers place call up =>
    exact SignalInv.next (inv.consistent.lower here (by rw [place]; trivial) up) goes
  | send answers target place call known =>
    refine SignalInv.next (inv.consistent.move _ inside (by rw [place]; trivial) trivial fun t aim => ?_) goes
    exact Option.some.inj aim ▸ known
  | take signal queue place first =>
    have took := inv.consistent.take here place first
    refine SignalInv.next (took.mails ((map_modifyProc _ _ _ ?_).trans ?_)) goes
    · exact fun _ => rfl
    · refine map_modifyProc_congr m.kernel i _ ?_ (memcpyToUserspace_map mail_procState _ _ _ _ _)
      intro q r same
      exact congrArg (fun mail : List Signal × Int => (queue, mail.2)) same
  | parent place =>
    cases found : sigchldTarget m.kernel.procs p p with
    | none =>
      exact SignalInv.next (inv.consistent.move .done inside (by rw [place]; trivial) trivial
        fun _ aim => by cases aim) goes
    | some pp =>
      refine SignalInv.next (inv.consistent.move _ inside (by rw [place]; trivial) trivial
        fun t aim => ?_) goes
      exact Option.some.inj aim ▸ sigchldTarget_lt found
  | append target signal heap place room =>
    refine SignalInv.next (inv.consistent.append inside place ?_ ?_) goes
    · dsimp only [Machine.setPhase]
      split <;> rfl
    · dsimp only [Machine.setPhase]
      split <;> rfl
  | up target place => exact SignalInv.next (inv.consistent.raise inside place) goes

theorem callExit_inv (place : m.phase i = .body) : SignalInv (m.callExit i p) := by
  have inside := (List.getElem?_eq_some_iff.mp here).1
  have marked : (markDead m.kernel i).procs.map mail = m.kernel.procs.map mail := by
    refine (map_modifyProc _ _ _ ?_).trans (mapPageZero_map mail_procState _ _)
    exact fun _ => rfl
  have moved := inv.consistent.move .marked inside (by rw [place]; trivial) trivial
    fun _ aim => by cases aim
  exact SignalInv.next ((moved.mails marked).record rfl rfl) goes

variable {k : KernelState}

theorem exec_inv {answers : Answers} {child : Option Nat} (running : m.kernel.currentProc = some i)
    (call : p.syscall = some .exec) (place : m.phase i = .body)
    (begun : execBegin m.kernel i p answers = .ok (k, child)) :
    SignalInv ((m.setKernel k).setPhase i (child.elim .done .loading)) := by
  have begins := (execBegin_frame running answers call).returned begun
  have inside := (List.getElem?_eq_some_iff.mp here).1
  have plain : Plain (m.phase i) := by rw [place]; trivial
  refine SignalInv.next ?_ goes
  cases child with
  | none =>
    refine Consistent.mails ?_ (begins.map fun _ => rfl)
    exact inv.consistent.move .done inside plain trivial fun _ aim => by cases aim
  | some child =>
    obtain ⟨-, k₁, new, frame, fresh, procs, -⟩ := begins
    have same : k₁.procs.map mail = m.kernel.procs.map mail := frame.map fun _ => rfl
    have moved := inv.consistent.move (.loading child) inside plain trivial fun _ aim => by cases aim
    have grown := (moved.mails same).grow fresh
    rw [← procs] at grown
    exact grown

theorem done_inv {history : History} (plain : Plain (m.phase i))
    (mails : k.procs.map mail = m.kernel.procs.map mail) (sent : history.sent = m.history.sent)
    (taken : history.taken = m.history.taken) :
    SignalInv ({ m with kernel := k, history := history }.setPhase i .done) := by
  have moved := inv.consistent.move .done (List.getElem?_eq_some_iff.mp here).1 plain trivial
    fun _ aim => by cases aim
  exact SignalInv.next ((moved.mails mails).record sent taken) goes

omit here in
theorem segfault_inv {state : IntHandlerState} {fuel : Nat} {heap : HeapMemory} (resumed : { m with
      kernel := segfaulted m.kernel i p state heap
      history := m.history.recordKilled i (livingParent m.kernel.procs p) (sigchldTarget m.kernel.procs p p) }.resume
        (segfaulted m.kernel i p state heap) (interruptEnd fuel true (segfaulted m.kernel i p state heap)) =
          some m') : SignalInv m' := by
  have killed : Consistent ((saveState m.kernel state).modifyProc i killedBySegfault).procs m.phase
      m.history := by
    refine inv.consistent.mails ((map_modifyProc _ _ _ ?_).trans (saveState_map mail_procState _ _))
    exact fun _ => rfl
  have sent : Consistent (segfaulted m.kernel i p state heap).procs m.phase
      (m.history.recordKilled i (livingParent m.kernel.procs p) (sigchldTarget m.kernel.procs p p)) := by
    rw [segfaulted, countTick_procs]
    cases found : sigchldTarget m.kernel.procs p p with
    | none => exact killed.record rfl rfl
    | some pp =>
      refine killed.send ?_ sigchld rfl rfl
      rw [modifyProc_length]
      have lengths := congrArg List.length (saveState_map mail_procState m.kernel state)
      simp only [List.length_map] at lengths
      rw [lengths]
      exact sigchldTarget_lt found
  have notified : SignalInv { m with
      kernel := segfaulted m.kernel i p state heap
      history := _ } := SignalInv.next sent goes
  exact resume_inv notified goes sent (fun _ ended => (interruptEnd_switched ended).1)
    (fun _ failed => interruptEnd_fault failed) resumed

theorem leave_inv (place : m.phase i = .done) (left : intSysCallLeave m.kernel i = .ok k) :
    SignalInv ({ m with
      kernel := k
      history := (m.history.recordReturn i ((k.procs[i]?).getD p).procState).recordTaken i
        (if signalPending p then p.signalQueue.take 1 else []) }.setPhase i .user) := by
  have home := inv.consistent.move .user (List.getElem?_eq_some_iff.mp here).1
    (by rw [place]; trivial) trivial fun _ aim => by cases aim
  refine SignalInv.next ?_ goes
  rcases ((intSysCallLeave_map shaded_shade here).returned left).2 with
    ⟨quiet, same⟩ | ⟨pending, up, signal, queue, first, same⟩
  · have mails : k.procs.map mail = m.kernel.procs.map mail :=
      (map_of_shade (fun _ => rfl) same).trans (map_modifyProc _ i toRunnable fun _ => rfl)
    refine (home.mails mails).record rfl ?_
    simp [Machine.setPhase, History.recordTaken, History.recordReturn, quiet]
  · have mails : k.procs.map mail = (m.kernel.modifyProc i (delivered queue)).procs.map mail :=
      (map_of_shade (fun _ => rfl) same).trans (map_modifyProc _ i toRunnable fun _ => rfl)
    refine ((home.deliver here first up).mails mails).record rfl ?_
    simp [Machine.setPhase, History.recordTaken, History.recordReturn, pending, first]

omit goes in
theorem fault_not_signalAssert {action : Action} {stop : Stop} (running : m.kernel.currentProc = some i)
    (deliverable : Deliverable m action) (fault : Faults m i p action stop) : ¬ SignalAssert stop := by
  cases fault with
  | exec answers _ _ call failed => exact CallFault.not_signalAssert ((execBegin_frame running answers call).failed failed)
  | serve answers _ _ apart failed =>
    rcases (processSyscall_shade answers running apart).failed failed with fault | fault
    · exact CallFault.not_signalAssert fault
    · exact ReturnFault.not_signalAssert fault
  | wait place empty =>
    have full : p.signalQueue ≠ [] :=
      (inv.consistent.boxes i p here).nonempty (by simp [mailbox, place]) (by simp [mailbox])
    exact absurd empty full
  | leave fuel _ place alive failed =>
    obtain ⟨pending, ⟨down, rfl⟩ | rfl | rfl | rfl⟩ := (intSysCallLeave_map shaded_shade here).failed failed
    · -- fewer senders between the two steps than signals queued: the count is up
      have fewer := deliverable i running p here alive pending
      have counted := (inv.consistent.boxes i p here).counted
      simp only [mailbox, place, reduceCtorEq, if_false, Nat.cast_zero, add_zero] at counted
      omega
    · simp [SignalAssert]
    · simp [SignalAssert]
    · simp [SignalAssert]
  | segfault => simp [SignalAssert]
  | notice _ _ _ _ _ full => simp [noticeHeap_error full, SignalAssert]
  | append _ _ _ _ full => simp [signalBlocks_error full, SignalAssert]

end

theorem step_inv {m' : Machine} {action : Action} (inv : SignalInv m) (deliverable : Deliverable m action)
    (taken : m.step action = some m') : SignalInv m' := by
  obtain ⟨goes, steps⟩ := step_cases taken
  cases steps with
  | irq state fuel _ served => exact irq_inv inv goes served
  | others semas heap => exact SignalInv.next inv.consistent goes
  | own i p _ _ running here does =>
    cases does with
    | user phys place => exact SignalInv.next inv.consistent goes
    | trap state place outside => exact trap_inv inv goes here state place
    | signal _ _ step => exact signal_inv inv goes here step
    | exit answers place call => exact callExit_inv inv goes here place
    | exec answers k child place call begun => exact exec_inv inv goes here running call place begun
    | serve answers k place apart served =>
      obtain ⟨same, -⟩ := (processSyscall_shade answers running apart).returned served
      exact done_inv inv goes here (by rw [place]; trivial) (map_of_shade (fun _ => rfl) same) rfl rfl
    | load loaded child place =>
      refine done_inv inv goes here (by rw [place]; trivial) ?_ rfl rfl
      refine (map_modifyProc _ _ _ ?_).trans (map_modifyProc _ _ _ ?_)
      · exact fun _ => rfl
      · exact fun _ => rfl
    | finish fuel _ place dead resumed =>
      refine resume_inv inv goes ?_ (fun _ ended => (intSysCallSwitch_switched ended).1)
        (fun _ failed => intSysCallSwitch_fault failed) resumed
      exact inv.consistent.mails (mapPageZero_map mail_procState _ _)
    | leave fuel k place alive left => exact leave_inv inv goes here place left
    | sleep sema state fuel _ inside place resumed =>
      refine resume_inv inv goes ?_ (fun _ ended => (interruptEnd_switched ended).1)
        (fun _ failed => interruptEnd_fault failed) resumed
      rw [asleep, countTick_procs]
      refine inv.consistent.mails ((saveState_map mail_procState _ _).trans (map_modifyProc _ _ _ ?_))
      exact fun _ => rfl
    | segfault state fuel heap _ place outside room resumed => exact segfault_inv inv goes resumed
    | pageZero page inside =>
      exact SignalInv.next (inv.consistent.mails (mapPageZero_map mail_procState _ _)) goes
    | stop _ stop fault => exact inv.halt (fault_not_signalAssert inv here running deliverable fault)

def receiverAndSender : KernelState := runningFirst [userProc 1 0 0x211, userProc 2 0 0x213]

def completeSend : List Action :=
  wholeCall .sigaction 0x40 0 0 ++
    [tick, .trap (userRegs Syscall.sigsend.number 1 7 9 false), .call (.refusing fun _ _ => 0), .proceed,
      .proceed, .leave 0, tick] ++
    wholeCall .dump 0 0 0

def preemptedSend : List Action :=
  wholeCall .sigaction 0x40 0 0 ++
    [tick, .trap (userRegs Syscall.sigsend.number 1 7 9 false), .call (.refusing fun _ _ => 0), .proceed, tick] ++
    wholeCall .dump 0 0 0

end PiOS.Proof.Signals
