import PiOS.Proof.Frame
import PiOS.Proof.Switch

namespace PiOS.Proof
open Kernel Transition

section

variable {α : Type} {π : Proc → α} {k : KernelState} {p : Proc} {j : Nat}

theorem mapPageZero_map (outside : ∀ p s, π { p with procState := s } = π p) (k : KernelState)
    (page : Word) : (k.mapPageZero page).procs.map π = k.procs.map π := by
  unfold KernelState.mapPageZero
  split
  · exact map_modifyProc _ _ _ fun p => outside p _
  · rfl

theorem saveState_map (outside : ∀ p s, π { p with procState := s } = π p) (k : KernelState)
    (state : IntHandlerState) : (saveState k state).procs.map π = k.procs.map π := by
  unfold saveState
  split
  · rfl
  · exact map_modifyProc _ _ _ fun p => outside p _

@[simp] theorem countTick_procs (k : KernelState) (state : IntHandlerState) : (countTick k state).procs = k.procs := by
  unfold countTick
  split <;> rfl

@[simp] theorem countTick_currentProc (k : KernelState) (state : IntHandlerState) :
    (countTick k state).currentProc = k.currentProc := by
  unfold countTick
  split <;> rfl

@[simp] theorem saveState_currentProc (k : KernelState) (state : IntHandlerState) :
    (saveState k state).currentProc = k.currentProc := by
  unfold saveState
  split <;> rfl

@[simp] theorem mapPageZero_currentProc (k : KernelState) (page : Word) :
    (k.mapPageZero page).currentProc = k.currentProc := by
  unfold KernelState.mapPageZero
  split <;> rfl

theorem mapPageZero_at (here : k.procs[j]? = some p)
    (page : Word) : ∃ s, (k.mapPageZero page).procs[j]? = some { p with procState := s } := by
  unfold KernelState.mapPageZero
  split
  · rename_i i _ _
    by_cases own : j = i
    · subst own
      rw [modifyProc_self, here]
      exact ⟨_, rfl⟩
    · rw [modifyProc_of_ne _ _ _ own, here]
      exact ⟨p.procState, rfl⟩
  · exact ⟨p.procState, here⟩

theorem saveState_at (here : k.procs[j]? = some p)
    (state : IntHandlerState) : ∃ s, (saveState k state).procs[j]? = some { p with procState := s } := by
  unfold saveState
  split
  · exact ⟨p.procState, here⟩
  · rename_i i _
    by_cases own : j = i
    · subst own
      refine ⟨p.procState.save state, (modifyProc_self _ _ _).trans ?_⟩
      rw [here]
      rfl
    · exact ⟨p.procState, (modifyProc_of_ne _ _ _ own).trans here⟩

@[simp] theorem intSysCallEnter_currentProc (k : KernelState) (i : Nat) :
    (intSysCallEnter k i).currentProc = k.currentProc := mapPageZero_currentProc _ _

theorem intSysCallEnter_map (outside : ∀ p s, π { p with procState := s } = π p) (k : KernelState)
    (i : Nat) : (intSysCallEnter k i).procs.map π = (k.modifyProc i enterSyscall).procs.map π :=
  mapPageZero_map outside _ _

theorem afterChunks_map (outside : ∀ p s, π { p with procState := s } = π p) (k : KernelState)
    (chunks : List UserChunk) : (k.afterChunks chunks).procs.map π = k.procs.map π := by
  have mapped : ∀ k : KernelState,
      (chunks.foldl (fun k c => k.mapPageZero c.page) k).procs.map π = k.procs.map π := by
    induction chunks with
    | nil => exact fun k => rfl
    | cons c chunks ih => exact fun k => (ih _).trans (mapPageZero_map outside k c.page)
  exact (mapPageZero_map outside _ _).trans (mapped k)

@[simp] theorem afterChunks_currentProc (k : KernelState) (chunks : List UserChunk) :
    (k.afterChunks chunks).currentProc = k.currentProc := by
  have mapped : ∀ k : KernelState,
      (chunks.foldl (fun k c => k.mapPageZero c.page) k).currentProc = k.currentProc := by
    induction chunks with
    | nil => exact fun k => rfl
    | cons c chunks ih => exact fun k => (ih _).trans (mapPageZero_currentProc k c.page)
  exact (mapPageZero_currentProc _ _).trans (mapped k)

@[simp] theorem memcpyToUserspace_currentProc (k : KernelState) (p : Proc) (ubuff : Word)
    (kbuff : List Byte) (size : Word) : (memcpyToUserspace k p ubuff kbuff size).currentProc = k.currentProc :=
  afterChunks_currentProc k _

theorem memcpyToUserspace_map (outside : ∀ p s, π { p with procState := s } = π p) (k : KernelState)
    (p : Proc) (ubuff : Word) (kbuff : List Byte) (size : Word) :
    (memcpyToUserspace k p ubuff kbuff size).procs.map π = k.procs.map π :=
  afterChunks_map outside k _

end

def shade (p : Proc) : Proc :=
  { core p with syscallState := .zero, signalsHold := false }

variable {procs : List Proc} {procs' : List Proc} {j : Nat}

theorem map_of_shade {α : Type} {π : Proc → α} (blind : ∀ p, π (shade p) = π p)
    (same : procs'.map shade = procs.map shade) : procs'.map π = procs.map π := by
  have equal := congrArg (List.map π) same
  simpa only [List.map_map, Function.comp_def, blind] using equal

def toRunnable (p : Proc) : Proc := { p with state := .runnable }

def delivered (queue : List Signal) (p : Proc) : Proc :=
  { p with signalQueue := queue, signalSema := p.signalSema - 1 }

structure Shaded {α : Type} (π : Proc → α) : Prop where
  procState : ∀ p s, π { p with procState := s } = π p
  syscallState : ∀ p s, π { p with syscallState := s } = π p
  entered : ∀ p s, π { p with signalsHold := true, procState := s } = π p
  restored : ∀ p s, π { p with syscallState := s, signalsHold := false } = π p
  delivered : ∀ queue p q, π p = π q → π (delivered queue p) = π (delivered queue q)
  toRunnable : ∀ p q, π p = π q → π (toRunnable p) = π (toRunnable q)

theorem shaded_shade : Shaded shade where
  procState _ _ := rfl
  syscallState _ _ := rfl
  entered _ _ := rfl
  restored _ _ := rfl
  delivered queue _ _ same := congrArg (delivered queue) same
  toRunnable _ _ same := congrArg toRunnable same

section

variable {k : KernelState} {i : Nat} {p : Proc} {α : Type} {π : Proc → α}

def ReturnFault (stop : Stop) : Prop :=
  stop = .assertion "sp == proc->syscall_state.regs[7]" ∨ stop = .nullDereference

theorem processPgmap_map (view : Shaded π) : Ensures (processPgmap k i p) (fun k' => k'.procs.map π = k.procs.map π ∧
      k'.currentProc = k.currentProc) fun _ => False := by
  have setReg := fun (k : KernelState) (w : Word) => map_modifyProc k i
    (fun p => { p with syscallState := p.syscallState.setReg 0 w }) (π := π) fun p => view.syscallState p _
  unfold processPgmap
  dsimp only
  split
  · split
    · exact Ensures.ok ⟨setReg _ _, rfl⟩
    · apply Ensures.ok
      refine ⟨(setReg _ _).trans ?_, rfl⟩
      exact map_modifyProc _ _ _ fun p => view.syscallState p _
  · exact Ensures.ok ⟨setReg _ _, rfl⟩

theorem signalHandlerReturn_map (view : Shaded π) :
    Ensures (signalHandlerReturn k i) (fun k' => k'.procs.map π = k.procs.map π ∧
      k'.currentProc = k.currentProc) ReturnFault := by
  unfold signalHandlerReturn
  cases k.procs[i]? with
  | none => exact Ensures.error (Or.inr rfl)
  | some proc =>
    dsimp only
    split
    · exact Ensures.error (Or.inl rfl)
    · apply Ensures.ok
      refine ⟨(map_modifyProc _ _ _ ?_).trans (mapPageZero_map view.procState _ _), ?_⟩
      · exact fun q => view.restored q _
      · exact mapPageZero_currentProc _ _

theorem processSyscall_shade (answers : Answers) (running : k.currentProc = some i)
    (apart : p.syscall ≠ some .sigsend ∧ p.syscall ≠ some .sigwait ∧ p.syscall ≠ some .exit ∧ p.syscall ≠ some .exec) :
    Ensures (processSyscall k i p answers) (fun k' => k'.procs.map shade = k.procs.map shade ∧
      k'.currentProc = k.currentProc) (fun stop => CallFault p answers stop ∨ ReturnFault stop) := by
  by_cases pgmap : p.syscall = some .pgmap
  · have outcome : processSyscall k i p answers = processPgmap k i p := by simp only [processSyscall, pgmap]
    rw [outcome]
    exact (processPgmap_map shaded_shade).mono (fun _ same => same) fun _ never => never.elim
  by_cases sighdlrret : p.syscall = some .sighdlrret
  · have outcome : processSyscall k i p answers = signalHandlerReturn k i := by
      simp only [processSyscall, sighdlrret]
    rw [outcome]
    exact (signalHandlerReturn_map shaded_shade).mono (fun _ same => same) fun _ fault => Or.inr fault
  have ordinary : Ordinary p.syscall := by
    unfold Ordinary
    split <;> simp_all
  exact (processSyscall_frame running answers ordinary).mono
    (fun _ frame => ⟨frame.map fun _ => rfl, frame.current⟩) fun _ fault => Or.inl fault

theorem signalHandlerEnter_map (view : Shaded π) (signal : Signal) :
    Ensures (signalHandlerEnter k i signal) (fun k' => k'.procs.map π = k.procs.map π ∧ k'.currentProc = k.currentProc)
      (fun stop => stop = .nullDereference ∨ stop = .assertion "sp >= 0xf000u" ∨
        stop = .assertion "proc->sighandler") := by
  unfold signalHandlerEnter
  cases k.procs[i]? with
  | none => exact Ensures.error (Or.inl rfl)
  | some proc =>
    dsimp only
    split
    · exact Ensures.error (Or.inr (Or.inl rfl))
    · split
      · exact Ensures.error (Or.inr (Or.inr rfl))
      · apply Ensures.ok
        refine ⟨(map_modifyProc _ _ _ ?_).trans ?_, ?_⟩
        · exact fun q => view.entered q _
        · exact (memcpyToUserspace_map view.procState _ _ _ _ _).trans
            (memcpyToUserspace_map view.procState _ _ _ _ _)
        · simp

theorem signalPending_cons (pending : signalPending p = true) : ∃ signal queue, p.signalQueue = signal :: queue := by
  apply List.exists_cons_of_ne_nil
  intro empty
  simp [signalPending, empty] at pending

def DeliveryFault (p : Proc) (stop : Stop) : Prop :=
  p.signalSema ≤ 0 ∧ stop = .assertion "current_proc->signal_sema.count > 0" ∨
    stop = .nullDereference ∨ stop = .assertion "sp >= 0xf000u" ∨ stop = .assertion "proc->sighandler"

theorem deliverSignal_map (view : Shaded π) {signal : Signal} {queue : List Signal}
    (first : p.signalQueue = signal :: queue) : Ensures (deliverSignal k i p)
      (fun k' => k'.currentProc = k.currentProc ∧ 0 < p.signalSema ∧
        k'.procs.map π = (k.modifyProc i (delivered queue)).procs.map π) (DeliveryFault p) := by
  unfold deliverSignal
  rw [first]
  refine Ensures.bind ((signalHandlerEnter_map view signal).mono (fun _ same => same)
    fun _ other => Or.inr other) ?_
  rintro k' ⟨same, current⟩
  split
  · rename_i down
    exact Ensures.error (Or.inl ⟨down, rfl⟩)
  · rename_i up
    exact Ensures.ok ⟨current, not_le.mp up, map_modifyProc_congr k i _ (view.delivered queue) same⟩

def userRestored (k : KernelState) (i : Nat) : KernelState :=
  { k.log with intNoProcModify := true }.modifyProc i fun p => { p with procState := p.syscallState }

theorem userRestored_at (here : k.procs[i]? = some p) :
    (userRestored k i).procs[i]? = some { p with procState := p.syscallState } := by
  obtain ⟨s, logged⟩ := mapPageZero_at here illegalPage
  rw [userRestored, modifyProc_self]
  change (k.mapPageZero illegalPage).procs[i]?.map _ = _
  rw [logged]
  rfl

theorem intSysCallLeave_eq (here : k.procs[i]? = some p) :
    intSysCallLeave k i = (if signalPending p then
        deliverSignal (userRestored k i) i { p with procState := p.syscallState }
      else .ok (userRestored k i)) >>= fun k => .ok (switchToUserspace (k.modifyProc i toRunnable)) := by
  have restored := userRestored_at here
  unfold intSysCallLeave userRestored at *
  dsimp only at restored ⊢
  rw [restored]
  cases pending : signalPending p <;> simp only [signalPending] at pending ⊢ <;> simp only [pending] <;> rfl

theorem intSysCallLeave_map (view : Shaded π) (here : k.procs[i]? = some p) : Ensures (intSysCallLeave k i)
      (fun k' => k'.currentProc = k.currentProc ∧
        (signalPending p = false ∧ k'.procs.map π = (k.modifyProc i toRunnable).procs.map π ∨
        signalPending p = true ∧ 0 < p.signalSema ∧ ∃ signal queue, p.signalQueue = signal :: queue ∧
          k'.procs.map π = ((k.modifyProc i (delivered queue)).modifyProc i toRunnable).procs.map π))
      (fun stop => signalPending p = true ∧ DeliveryFault p stop) := by
  have same : (userRestored k i).procs.map π = k.procs.map π := by
    refine (map_modifyProc _ _ _ ?_).trans (mapPageZero_map view.procState k illegalPage)
    exact fun q => view.procState q _
  have current : (userRestored k i).currentProc = k.currentProc := mapPageZero_currentProc k illegalPage
  have runnable : ∀ {k k' : KernelState}, k'.procs.map π = k.procs.map π →
      (k'.modifyProc i toRunnable).procs.map π = (k.modifyProc i toRunnable).procs.map π :=
    fun {k _} => map_modifyProc_congr k i toRunnable view.toRunnable
  rw [intSysCallLeave_eq here]
  cases pending : signalPending p with
  | false => exact Ensures.ok ⟨current, Or.inl ⟨rfl, runnable same⟩⟩
  | true =>
    obtain ⟨signal, queue, first⟩ := signalPending_cons pending
    have delivery := deliverSignal_map (k := userRestored k i) (i := i)
      (p := { p with procState := p.syscallState }) view first
    refine Ensures.bind (delivery.mono (fun _ done => done) fun stop fault => And.intro rfl fault) ?_
    rintro k₂ ⟨currentToo, up, taken⟩
    refine Ensures.ok ⟨currentToo.trans current, Or.inr ⟨rfl, up, signal, queue, first, runnable ?_⟩⟩
    exact taken.trans (map_modifyProc_congr k i _ (view.delivered queue) same)

end

theorem procByPid_map (procs : List Proc) (pid : Word) :
    procByPid procs pid = (procs.map Proc.pid).findIdx? fun w => w = pid := by
  simp [procByPid, List.findIdx?_map, Function.comp_def]

theorem sigchldTarget_congr (same : procs'.map Proc.pid = procs.map Proc.pid)
    (chld current : Proc) : sigchldTarget procs' chld current = sigchldTarget procs chld current := by
  simp only [sigchldTarget, procByPid_map, same]

theorem procByPid_lt {pid : Word} (found : procByPid procs pid = some j) :
    j < procs.length := (List.findIdx?_eq_some_iff_findIdx_eq.mp found).1

theorem sigchldTarget_lt {chld current : Proc}
    (found : sigchldTarget procs chld current = some j) : j < procs.length := by
  unfold sigchldTarget at found
  split at found
  · cases found
  · exact procByPid_lt found

/-- The heap behind the notice of a death to `target`. -/
def noticeHeap (heap : HeapMemory) (target : Option Nat) : Except Stop HeapMemory :=
  target.elim (.ok heap) fun _ => signalBlocks heap

theorem noticeHeap_error {heap : HeapMemory} {target : Option Nat} {stop : Stop}
    (full : noticeHeap heap target = .error stop) : stop = .panic "kmalloc: out of memory" := by
  cases target with
  | none => cases full
  | some pp => exact signalBlocks_error full

def noticed (k : KernelState) (target : Option Nat) (heap : HeapMemory) : KernelState :=
  target.elim k fun pp => { k with heap := heap }.modifyProc pp fun q => signalled q sigchld

theorem interruptSegfault_eq (k : KernelState) (state : IntHandlerState) (i : Nat) (p : Proc) :
    interruptSegfault (saveState k state) i p =
      if inKernel p then .error (.panic "SEGFAULT INSIDE KERNEL") else
        (noticeHeap k.heap (sigchldTarget k.procs p p)).map
          (noticed ((saveState k state).modifyProc i killedBySegfault) (sigchldTarget k.procs p p)) := by
  have pids : ((saveState k state).modifyProc i killedBySegfault).procs.map Proc.pid = k.procs.map Proc.pid :=
    (map_modifyProc _ i killedBySegfault fun _ => rfl).trans (saveState_map (fun _ _ => rfl) k state)
  have heap : (saveState k state).heap = k.heap := by
    unfold saveState
    split <;> rfl
  unfold interruptSegfault
  split
  · rfl
  · rw [signalSendSigchld, sigchldTarget_congr pids]
    cases sigchldTarget k.procs p p with
    | none => rfl
    | some pp =>
      change (signalBlocks (saveState k state).heap >>= _) = (signalBlocks k.heap).map _
      rw [heap]
      cases signalBlocks k.heap <;> rfl

section

variable {m m' : Machine} {α : Type}

theorem finish_cases {next : α → Machine} {x : Except Stop α} (finished : m.finish next x = some m') :
    (∃ a, x = .ok a ∧ m' = next a) ∨ ∃ stop, x = .error stop ∧ m' = m.halt stop := by
  cases x with
  | ok a => exact Or.inl ⟨a, rfl, (Option.some.inj finished).symm⟩
  | error stop =>
    cases stop with
    | blocked => cases finished
    | _ => exact Or.inr ⟨_, rfl, (Option.some.inj finished).symm⟩

theorem resume_cases {before : KernelState} {x : Option (Except Stop KernelState)}
    (resumed : m.resume before x = some m') :
    (∃ after, x = some (.ok after) ∧ m' = { m with
      kernel := after
      history := m.history.recordAlarms before.procs after.procs }) ∨
    ∃ stop, x = some (.error stop) ∧ m' = m.halt stop := by
  cases x with
  | none => cases resumed
  | some picked =>
    rcases finish_cases resumed with ⟨after, rfl, equal⟩ | ⟨stop, rfl, equal⟩
    · exact Or.inl ⟨after, rfl, equal⟩
    · exact Or.inr ⟨stop, rfl, equal⟩

def asleep (k : KernelState) (i : Nat) (sema : SemaRef) (state : IntHandlerState) : KernelState :=
  countTick (saveState (k.modifyProc i fun p => { p with
    state := if p.state = .syscall then .syscallBlocked else .blocked
    semaBlocked := some sema }) state) state

def segfaulted (k : KernelState) (i : Nat) (p : Proc) (state : IntHandlerState) (heap : HeapMemory) : KernelState :=
  countTick (noticed ((saveState k state).modifyProc i killedBySegfault) (sigchldTarget k.procs p p) heap) state

theorem segfaulted_map {π : Proc → α} (unsent : ∀ q, π (signalled q sigchld) = π q)
    (k : KernelState) (i : Nat) (p : Proc) (state : IntHandlerState) (heap : HeapMemory) :
    (segfaulted k i p state heap).procs.map π = ((saveState k state).modifyProc i killedBySegfault).procs.map π := by
  unfold segfaulted
  rw [countTick_procs]
  cases sigchldTarget k.procs p p with
  | none => rfl
  | some pp => exact map_modifyProc _ _ _ unsent

inductive Faults (m : Machine) (i : Nat) (p : Proc) : Action → Stop → Prop
  | exec (answers : Answers) (stop : Stop) (place : m.phase i = .body) (call : p.syscall = some .exec)
      (failed : execBegin m.kernel i p answers = .error stop) : Faults m i p (.call answers) stop
  | serve (answers : Answers) (stop : Stop) (place : m.phase i = .body)
      (apart : p.syscall ≠ some .sigsend ∧ p.syscall ≠ some .sigwait ∧ p.syscall ≠ some .exit ∧
        p.syscall ≠ some .exec)
      (failed : processSyscall m.kernel i p answers = .error stop) : Faults m i p (.call answers) stop
  | wait (place : m.phase i = .waited) (empty : p.signalQueue = []) :
      Faults m i p .proceed (.assertion "current_proc->signal_queue.first")
  | leave (fuel : Nat) (stop : Stop) (place : m.phase i = .done) (alive : p.state ≠ .dead)
      (failed : intSysCallLeave m.kernel i = .error stop) :
      Faults m i p (.leave fuel) stop
  | segfault (state : IntHandlerState) (fuel : Nat) (place : m.phase i = .user) (inside : inKernel p = true) :
      Faults m i p (.segfault state fuel) (.panic "SEGFAULT INSIDE KERNEL")
  | notice (state : IntHandlerState) (fuel : Nat) (stop : Stop) (place : m.phase i = .user)
      (outside : inKernel p = false)
      (full : noticeHeap m.kernel.heap (sigchldTarget m.kernel.procs p p) = .error stop) :
      Faults m i p (.segfault state fuel) stop
  | append (target : Nat) (signal : Signal) (stop : Stop) (place : m.phase i = .append target signal)
      (full : signalBlocks m.kernel.heap = .error stop) : Faults m i p .proceed stop

inductive SignalStep (m : Machine) (i : Nat) (p : Proc) : Action → Machine → Prop
  | refuse (answers : Answers) (place : m.phase i = .body)
      (call : p.syscall = some .sigwait ∨ p.syscall = some .sigsend) :
      SignalStep m i p (.call answers) ((m.setKernel (m.kernel.setReg i 0 (-einval))).setPhase i .done)
  | down (answers : Answers) (place : m.phase i = .body) (call : p.syscall = some .sigwait)
      (up : 0 < p.signalSema) :
      SignalStep m i p (.call answers) ((m.setKernel (m.kernel.modifyProc i fun p => { p with
        signalSema := p.signalSema - 1 })).setPhase i .waited)
  | send (answers : Answers) (target : Nat) (place : m.phase i = .body)
      (call : p.syscall = some .sigsend) (known : target < m.kernel.procs.length) :
      SignalStep m i p (.call answers)
        (m.setPhase i (.append target ⟨p.syscallState.regs 2, p.syscallState.regs 3⟩))
  | take (signal : Signal) (queue : List Signal) (place : m.phase i = .waited)
      (first : p.signalQueue = signal :: queue) :
      SignalStep m i p .proceed ({ m with
        kernel := ((memcpyToUserspace m.kernel p (p.syscallState.regs 1) signal.bytes
          (BitVec.ofNat 16 sizeofSignal)).modifyProc i fun p => { p with
            signalQueue := queue }).setReg i 0 0
        history := m.history.recordTaken i [signal] }.setPhase i .done)
  | parent (place : m.phase i = .marked) :
      SignalStep m i p .proceed (m.setPhase i ((sigchldTarget m.kernel.procs p p).elim .done
        fun pp => .append pp sigchld))
  | append (target : Nat) (signal : Signal) (heap : HeapMemory) (place : m.phase i = .append target signal)
      (room : signalBlocks m.kernel.heap = .ok heap) :
      SignalStep m i p .proceed ({ m with
        kernel := { m.kernel with heap := heap }.modifyProc target fun q => listAppendSignal q signal
        history := if p.state = RunState.dead then m.history.recordNotice i target signal
          else m.history.recordSent target [signal] }.setPhase i (.up target))
  | up (target : Nat) (place : m.phase i = .up target) :
      SignalStep m i p .proceed
        ((m.setKernel (m.kernel.modifyProc target semaphoreUpSignal)).setPhase i .done)

/-- What an action of the current process comes to: each branch, with the conditions that lead to it. -/
inductive Does (m : Machine) (i : Nat) (p : Proc) : Action → Machine → Prop
  | user (phys : PhysMem) (place : m.phase i = .user) :
      Does m i p (.user phys) (m.setKernel { m.kernel with phys := phys })
  | trap (state : IntHandlerState) (place : m.phase i = .user) (outside : inKernel p = false) :
      Does m i p (.trap state)
        ((m.setKernel (intSysCallEnter (countTick (saveState m.kernel state) state) i)).setPhase i .body)
  | signal (action : Action) (m' : Machine) (step : SignalStep m i p action m') : Does m i p action m'
  | exit (answers : Answers) (place : m.phase i = .body) (call : p.syscall = some .exit) :
      Does m i p (.call answers) (m.callExit i p)
  | exec (answers : Answers) (k : KernelState) (child : Option Nat) (place : m.phase i = .body)
      (call : p.syscall = some .exec) (begun : execBegin m.kernel i p answers = .ok (k, child)) :
      Does m i p (.call answers) ((m.setKernel k).setPhase i (child.elim .done .loading))
  | serve (answers : Answers) (k : KernelState) (place : m.phase i = .body)
      (apart : p.syscall ≠ some .sigsend ∧ p.syscall ≠ some .sigwait ∧ p.syscall ≠ some .exit ∧
        p.syscall ≠ some .exec) (served : processSyscall m.kernel i p answers = .ok k) :
      Does m i p (.call answers) ({ m with
        kernel := k
        history := m.history.recordGrant i (pgmapGrant p m.kernel.pages k.pages) }.setPhase i .done)
  | load (loaded : Loaded) (child : Nat) (place : m.phase i = .loading child) :
      Does m i p (.load loaded) ({ m with
        kernel := execFinish m.kernel i p child loaded
        history := m.history.recordStart child loaded }.setPhase i .done)
  | finish (fuel : Nat) (m' : Machine) (place : m.phase i = .done) (dead : p.state = .dead)
      (resumed : m.resume m.kernel.log (intSysCallSwitch fuel m.kernel) = some m') :
      Does m i p (.leave fuel) m'
  | leave (fuel : Nat) (k : KernelState) (place : m.phase i = .done) (alive : p.state ≠ .dead)
      (left : intSysCallLeave m.kernel i = .ok k) :
      Does m i p (.leave fuel) ({ m with
        kernel := k
        history := (m.history.recordReturn i ((k.procs[i]?).getD p).procState).recordTaken i
          (if signalPending p then p.signalQueue.take 1 else []) }.setPhase i .user)
  | sleep (sema : SemaRef) (state : IntHandlerState) (fuel : Nat) (m' : Machine)
      (inside : inKernel p = true) (place : (m.phase i).maySleep = true)
      (resumed : m.resume (asleep m.kernel i sema state)
        (interruptEnd fuel true (asleep m.kernel i sema state)) = some m') :
      Does m i p (.sleep sema state fuel) m'
  | segfault (state : IntHandlerState) (fuel : Nat) (heap : HeapMemory) (m' : Machine) (place : m.phase i = .user)
      (outside : inKernel p = false)
      (room : noticeHeap m.kernel.heap (sigchldTarget m.kernel.procs p p) = .ok heap)
      (resumed : { m with
        kernel := segfaulted m.kernel i p state heap
        history := m.history.recordKilled i (livingParent m.kernel.procs p)
          (sigchldTarget m.kernel.procs p p) }.resume (segfaulted m.kernel i p state heap)
            (interruptEnd fuel true (segfaulted m.kernel i p state heap)) = some m') :
      Does m i p (.segfault state fuel) m'
  | pageZero (page : Word) (inside : inKernel p = true) :
      Does m i p (.pageZero page) (m.setKernel (m.kernel.mapPageZero page))
  | stop (action : Action) (stop : Stop) (fault : Faults m i p action stop) :
      Does m i p action (m.halt stop)

/-- What a step comes to. Only an interrupt, or the threads beside the kernel, act while no process runs. -/
inductive Steps (m : Machine) : Action → Machine → Prop
  | own (i : Nat) (p : Proc) (action : Action) (m' : Machine) (running : m.kernel.currentProc = some i)
      (here : m.kernel.procs[i]? = some p) (does : Does m i p action m') : Steps m action m'
  | irq (state : IntHandlerState) (fuel : Nat) (m' : Machine) (served : m.irq state fuel = some m') :
      Steps m (.irq state fuel) m'
  | others (semas : Nat → Int) (heap : HeapMemory) :
      Steps m (.others semas heap) (m.setKernel { m.kernel with semas := semas, heap := heap })

variable {action : Action} {i : Nat}

section

variable {p : Proc} {answers : Answers} {fuel : Nat}

theorem does_of_call (here : m.kernel.procs[i]? = some p) (place : m.phase i = .body)
    (called : m.call i p answers = some m') : Does m i p (.call answers) m' := by
  unfold Machine.call at called
  split at called
  · rename_i call
    unfold Machine.callSigwait at called
    split at called
    · exact Option.some.inj called ▸ .signal _ _ (.refuse answers place (Or.inl call))
    split at called
    · cases called
    · rename_i up
      exact Option.some.inj called ▸ .signal _ _ (.down answers place call (not_le.mp up))
  · rename_i call
    unfold Machine.callSigsend at called
    dsimp only at called
    split at called
    · split at called
      · exact Option.some.inj called ▸ .signal _ _ (.refuse answers place (Or.inr call))
      · rename_i found
        exact Option.some.inj called ▸ .signal _ _ (.send answers _ place call (procByPid_lt found))
    · have inside := (List.getElem?_eq_some_iff.mp here).1
      exact Option.some.inj called ▸ .signal _ _ (.send answers i place call inside)
  · rename_i call
    exact Option.some.inj called ▸ .exit answers place call
  · rename_i call
    rcases finish_cases called with ⟨⟨k, child⟩, begun, rfl⟩ | ⟨stop, failed, rfl⟩
    · have does := Does.exec answers k child place call begun
      cases child <;> exact does
    · exact .stop _ stop (.exec answers stop place call failed)
  · rename_i notSigwait notSigsend notExit notExec
    rcases finish_cases called with ⟨k, served, rfl⟩ | ⟨stop, failed, rfl⟩
    · exact .serve answers k place ⟨notSigsend, notSigwait, notExit, notExec⟩ served
    · exact .stop _ stop (.serve answers stop place ⟨notSigsend, notSigwait, notExit, notExec⟩ failed)

theorem does_of_proceed (proceeded : m.proceed i p = some m') : Does m i p .proceed m' := by
  unfold Machine.proceed at proceeded
  dsimp only at proceeded
  split at proceeded
  · rename_i place
    split at proceeded
    · rename_i empty
      exact Option.some.inj proceeded ▸ .stop _ _ (.wait place empty)
    · rename_i first
      exact Option.some.inj proceeded ▸ .signal _ _ (.take _ _ place first)
  · rename_i place
    have step := SignalStep.parent (p := p) place
    split at proceeded
    · rename_i nobody
      rw [nobody] at step
      exact Option.some.inj proceeded ▸ .signal _ _ step
    · rename_i found
      rw [found] at step
      exact Option.some.inj proceeded ▸ .signal _ _ step
  · rename_i place
    rcases finish_cases proceeded with ⟨heap, room, rfl⟩ | ⟨stop, full, rfl⟩
    · exact .signal _ _ (.append _ _ heap place room)
    · exact .stop _ stop (.append _ _ stop place full)
  · rename_i place
    exact Option.some.inj proceeded ▸ .signal _ _ (.up _ place)
  · cases proceeded

theorem does_of_segfault {state : IntHandlerState} (place : m.phase i = .user)
    (killed : m.segfault i p state fuel = some m') : Does m i p (.segfault state fuel) m' := by
  unfold Machine.segfault at killed
  rw [interruptSegfault_eq] at killed
  cases inside : inKernel p with
  | true =>
    rw [inside] at killed
    exact Option.some.inj killed ▸ .stop _ _ (.segfault state fuel place inside)
  | false =>
    rw [inside] at killed
    cases room : noticeHeap m.kernel.heap (sigchldTarget m.kernel.procs p p) with
    | error stop =>
      rw [room] at killed
      exact Option.some.inj killed ▸ .stop _ _ (.notice state fuel stop place inside room)
    | ok heap =>
      rw [room] at killed
      exact .segfault state fuel heap m' place inside room killed

theorem does_of_leave (place : m.phase i = .done) (left : m.leave i p fuel = some m') :
    Does m i p (.leave fuel) m' := by
  unfold Machine.leave at left
  split at left
  · rename_i dead
    exact .finish fuel m' place dead left
  · rename_i alive
    rcases finish_cases left with ⟨k, result, rfl⟩ | ⟨stop, failed, rfl⟩
    · exact .leave fuel k place alive result
    · exact .stop _ stop (.leave fuel stop place alive failed)

theorem steps_of_act (running : m.kernel.currentProc = some i) (here : m.kernel.procs[i]? = some p)
    (acted : m.act i p action = some m') : Steps m action m' := by
  have own : ∀ {action m'}, Does m i p action m' → Steps m action m' := .own i p _ _ running here
  cases action with
  | user phys =>
    obtain ⟨place, equal⟩ := Option.ite_none_right_eq_some.mp acted
    exact Option.some.inj equal ▸ own (.user phys place)
  | trap state =>
    obtain ⟨⟨place, outside⟩, equal⟩ := Option.ite_none_right_eq_some.mp acted
    exact Option.some.inj equal ▸ own (.trap state place outside)
  | call answers =>
    obtain ⟨place, called⟩ := Option.ite_none_right_eq_some.mp acted
    exact own (does_of_call here place called)
  | proceed => exact own (does_of_proceed acted)
  | load loaded =>
    change m.load i p loaded = some m' at acted
    unfold Machine.load at acted
    split at acted
    · rename_i child place
      exact Option.some.inj acted ▸ own (.load loaded child place)
    · cases acted
  | leave fuel =>
    obtain ⟨place, left⟩ := Option.ite_none_right_eq_some.mp acted
    exact own (does_of_leave place left)
  | sleep sema state fuel =>
    obtain ⟨⟨inside, place⟩, slept⟩ := Option.ite_none_right_eq_some.mp acted
    obtain ⟨-, slept⟩ := Option.ite_none_right_eq_some.mp slept
    exact own (.sleep sema state fuel m' inside place slept)
  | irq state fuel => exact .irq state fuel m' acted
  | segfault state fuel =>
    obtain ⟨place, killed⟩ := Option.ite_none_right_eq_some.mp acted
    exact own (does_of_segfault place killed)
  | pageZero page =>
    obtain ⟨inside, equal⟩ := Option.ite_none_right_eq_some.mp acted
    exact Option.some.inj equal ▸ own (.pageZero page inside)
  | others semas heap => exact Option.some.inj acted ▸ .others semas heap

end

theorem step_cases (taken : m.step action = some m') : m.halted = none ∧ Steps m action m' := by
  unfold Machine.step at taken
  split at taken
  · cases taken
  rename_i goes
  refine ⟨Option.not_isSome_iff_eq_none.mp goes, ?_⟩
  split at taken
  · cases action with
    | irq state fuel => exact .irq state fuel m' taken
    | others semas heap => exact Option.some.inj taken ▸ .others semas heap
    | _ => cases taken
  · rename_i running
    split at taken
    · cases taken
    · rename_i here
      exact steps_of_act running here taken

theorem step_act (taken : m.step action = some m') (running : m.kernel.currentProc = some i) :
    ∃ p, m.kernel.procs[i]? = some p ∧ m.act i p action = some m' := by
  simp only [Machine.step, running] at taken
  split at taken
  · cases taken
  split at taken
  · cases taken
  · rename_i here
    exact ⟨_, here, taken⟩

end

end PiOS.Proof
