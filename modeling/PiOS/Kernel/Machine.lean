import PiOS.Kernel.Irq.Interrupt

namespace PiOS.Kernel
open Function

/-- Where a process stands. System calls are served with interrupts on; the places inside one are
those between which others can run and see a difference. -/
inductive Phase
  | user
  | body
  | waited
  | marked
  | append (target : Nat) (signal : Signal)
  | up (target : Nat)
  | loading (child : Nat)
  | done
  deriving DecidableEq

def Phase.maySleep : Phase → Bool
  | .user | .body | .loading _ => true
  | _ => false

structure Return where
  memPages : Fin 16 → Word
  progPages : Fin 16 → Word
  granted : Option (Fin 16 × Word)

/-- What has happened so far, for stating properties; the kernel keeps no such record. For each process: signals
sent and taken, the notices of its end to its `heir`, and its returns to user mode, the latest first. -/
structure History where
  sent : Nat → List Signal
  taken : Nat → List Signal
  notices : Nat → List (Nat × Signal)
  heir : Nat → Option Nat
  granted : Nat → Option (Fin 16 × Word)
  returns : Nat → List Return

structure Machine where
  kernel : KernelState
  phase : Nat → Phase
  halted : Option Stop
  history : History

/-- One thing the machine can do. All but `others` is done by or to the current process. `others` is what
drivers, kernel threads and message queues do to their semaphores and to the heap, with the blocks that are
freed behind a call. -/
inductive Action
  | user (phys : PhysMem)
  | trap (state : IntHandlerState)
  | call (answers : Answers)
  | proceed
  | load (loaded : Loaded)
  | leave (fuel : Nat)
  | sleep (sema : SemaRef) (state : IntHandlerState) (fuel : Nat)
  | irq (state : IntHandlerState) (fuel : Nat)
  | segfault (state : IntHandlerState) (fuel : Nat)
  | pageZero (page : Word)
  | others (semas : Nat → Int) (heap : HeapMemory)

namespace History

def recordSent (h : History) (target : Nat) (signals : List Signal) : History :=
  { h with sent := update h.sent target (h.sent target ++ signals) }

def recordTaken (h : History) (i : Nat) (signals : List Signal) : History :=
  { h with taken := update h.taken i (h.taken i ++ signals) }

def recordAlarms (h : History) (before after : List Proc) : History :=
  { h with sent := fun j =>
      h.sent j ++ match before[j]?, after[j]? with
        | some p, some q => q.signalQueue.drop p.signalQueue.length
        | _, _ => [] }

def recordDeath (h : History) (i : Nat) (heir : Option Nat) : History :=
  { h with heir := update h.heir i heir }

def recordNotice (h : History) (i target : Nat) (signal : Signal) : History :=
  { h.recordSent target [signal] with
    notices := update h.notices i (h.notices i ++ [(target, signal)]) }

def recordKilled (h : History) (i : Nat) (heir target : Option Nat) : History :=
  target.elim (h.recordDeath i heir) fun pp => (h.recordDeath i heir).recordNotice i pp sigchld

def recordGrant (h : History) (i : Nat) (granted : Option (Fin 16 × Word)) : History :=
  { h with granted := update h.granted i granted }

def recordStart (h : History) (child : Nat) (loaded : Loaded) : History :=
  { h with returns := update h.returns child [⟨loaded.memPages, loaded.progPages, none⟩] }

def recordReturn (h : History) (i : Nat) (s : ProcState) : History :=
  { h with
    returns := update h.returns i (⟨s.memPages, s.progPages, h.granted i⟩ :: h.returns i)
    granted := update h.granted i none }

end History

def livingParent (procs : List Proc) (p : Proc) : Option Nat :=
  (sigchldTarget procs p p).filter fun j => procs[j]?.any fun q => q.state ≠ .dead

def pgmapGrant (p : Proc) (before after : PageCounters) : Option (Fin 16 × Word) :=
  if p.syscall = some .pgmap ∧ after.firstFreePage ≠ before.firstFreePage then
    some (Fin.ofNat 16 (p.syscallState.regs 1).toNat, before.firstFreePage)
  else
    none

namespace Machine

def setPhase (m : Machine) (i : Nat) (phase : Phase) : Machine :=
  { m with phase := update m.phase i phase }

def setKernel (m : Machine) (k : KernelState) : Machine := { m with kernel := k }

def halt (m : Machine) (stop : Stop) : Machine := { m with halted := some stop }

def finish {α : Type} (m : Machine) (next : α → Machine) : Except Stop α → Option Machine
  | .ok k => some (next k)
  | .error .blocked => none
  | .error stop => some (m.halt stop)

def resume (m : Machine) (before : KernelState) : Option (Except Stop KernelState) → Option Machine
  | none => none
  | some picked => m.finish (fun after => { m with
      kernel := after
      history := m.history.recordAlarms before.procs after.procs }) picked

def callSigwait (m : Machine) (i : Nat) (p : Proc) : Option Machine :=
  if p.sighandler ≠ 0 ∧ p.signalsHold = false then
    some ((m.setKernel (m.kernel.setReg i 0 (-einval))).setPhase i .done)
  else if p.signalSema ≤ 0 then
    none
  else
    some ((m.setKernel (m.kernel.modifyProc i fun p => { p with
      signalSema := p.signalSema - 1 })).setPhase i .waited)

def callSigsend (m : Machine) (i : Nat) (p : Proc) : Option Machine :=
  let signal : Signal := ⟨p.syscallState.regs 2, p.syscallState.regs 3⟩
  if 0 ≤ (p.syscallState.regs 1).toInt then
    match procByPid m.kernel.procs (p.syscallState.regs 1) with
    | none => some ((m.setKernel (m.kernel.setReg i 0 (-einval))).setPhase i .done)
    | some target => some (m.setPhase i (.append target signal))
  else
    some (m.setPhase i (.append i signal))

def callExit (m : Machine) (i : Nat) (p : Proc) : Machine :=
  { m with
    kernel := markDead m.kernel i
    history := m.history.recordDeath i (livingParent m.kernel.procs p) }.setPhase i .marked

def callExec (m : Machine) (i : Nat) (p : Proc) (answers : Answers) : Option Machine :=
  m.finish (fun begun => (m.setKernel begun.1).setPhase i
    (match begun.2 with
      | none => .done
      | some child => .loading child)) (execBegin m.kernel i p answers)

def call (m : Machine) (i : Nat) (p : Proc) (answers : Answers) : Option Machine :=
  match p.syscall with
  | some .sigwait => m.callSigwait i p
  | some .sigsend => m.callSigsend i p
  | some .exit => some (m.callExit i p)
  | some .exec => m.callExec i p answers
  | _ => m.finish (fun k => { m with
      kernel := k
      history := m.history.recordGrant i (pgmapGrant p m.kernel.pages k.pages) }.setPhase i .done)
      (processSyscall m.kernel i p answers)

def proceed (m : Machine) (i : Nat) (p : Proc) : Option Machine :=
  let k := m.kernel
  match m.phase i with
  | .waited =>
    match p.signalQueue with
    | [] => some (m.halt (.assertion "current_proc->signal_queue.first"))
    | signal :: queue =>
      let k := memcpyToUserspace k p (p.syscallState.regs 1) signal.bytes (BitVec.ofNat 16 sizeofSignal)
      let k := k.modifyProc i fun p => { p with signalQueue := queue }
      some ({ m with
        kernel := k.setReg i 0 0
        history := m.history.recordTaken i [signal] }.setPhase i .done)
  | .marked =>
    match sigchldTarget k.procs p p with
    | none => some (m.setPhase i .done)
    | some pp => some (m.setPhase i (.append pp sigchld))
  | .append target signal =>
    m.finish (fun heap => { m with
      kernel := { k with heap := heap }.modifyProc target fun q => listAppendSignal q signal
      history := if p.state = RunState.dead then m.history.recordNotice i target signal
        else m.history.recordSent target [signal] }.setPhase i (.up target)) (signalBlocks k.heap)
  | .up target => some ((m.setKernel (k.modifyProc target semaphoreUpSignal)).setPhase i .done)
  | _ => none

def load (m : Machine) (i : Nat) (p : Proc) (loaded : Loaded) : Option Machine :=
  match m.phase i with
  | .loading child => some ({ m with
      kernel := execFinish m.kernel i p child loaded
      history := m.history.recordStart child loaded }.setPhase i .done)
  | _ => none

def leave (m : Machine) (i : Nat) (p : Proc) (fuel : Nat) : Option Machine :=
  if p.state = .dead then
    m.resume m.kernel.log (intSysCallSwitch fuel m.kernel)
  else
    m.finish (fun k => { m with
      kernel := k
      history := (m.history.recordReturn i ((k.procs[i]?).getD p).procState).recordTaken i
        (if signalPending p then p.signalQueue.take 1 else []) }.setPhase i .user)
      (intSysCallLeave m.kernel i)

def sleep (m : Machine) (i : Nat) (p : Proc) (sema : SemaRef) (state : IntHandlerState) (fuel : Nat) :
    Option Machine :=
  if semaCount m.kernel.semas p sema = 0 then
    let k := m.kernel.modifyProc i fun p => { p with
      state := if p.state = .syscall then .syscallBlocked else .blocked
      semaBlocked := some sema }
    let k := countTick (saveState k state) state
    m.resume k (interruptEnd fuel true k)
  else
    none

def irq (m : Machine) (state : IntHandlerState) (fuel : Nat) : Option Machine :=
  let k := countTick (saveState m.kernel state) state
  m.resume k (interruptEnd fuel (state.timer || m.kernel.currentProc.isNone) k)

def segfault (m : Machine) (i : Nat) (p : Proc) (state : IntHandlerState) (fuel : Nat) :
    Option Machine :=
  match interruptSegfault (saveState m.kernel state) i p with
  | .error stop => some (m.halt stop)
  | .ok k =>
    let k := countTick k state
    { m with
      kernel := k
      history := m.history.recordKilled i (livingParent m.kernel.procs p)
        (sigchldTarget m.kernel.procs p p) }.resume k (interruptEnd fuel true k)

def act (m : Machine) (i : Nat) (p : Proc) : Action → Option Machine
  | .user phys =>
    if m.phase i = .user then some (m.setKernel { m.kernel with phys := phys }) else none
  | .trap state =>
    if m.phase i = .user ∧ inKernel p = false then
      let k := intSysCallEnter (countTick (saveState m.kernel state) state) i
      some ((m.setKernel k).setPhase i .body)
    else
      none
  | .call answers => if m.phase i = .body then m.call i p answers else none
  | .proceed => m.proceed i p
  | .load loaded => m.load i p loaded
  | .leave fuel => if m.phase i = .done then m.leave i p fuel else none
  | .sleep sema state fuel =>
    if inKernel p ∧ (m.phase i).maySleep then m.sleep i p sema state fuel else none
  | .irq state fuel => m.irq state fuel
  | .segfault state fuel => if m.phase i = .user then m.segfault i p state fuel else none
  | .pageZero page => if inKernel p then some (m.setKernel (m.kernel.mapPageZero page)) else none
  | .others semas heap => some (m.setKernel { m.kernel with semas := semas, heap := heap })

def step (m : Machine) (action : Action) : Option Machine :=
  if m.halted.isSome then
    none
  else
    match m.kernel.currentProc with
    | none =>
      match action with
      | .irq state fuel => m.irq state fuel
      | .others semas heap => some (m.setKernel { m.kernel with semas := semas, heap := heap })
      | _ => none
    | some i =>
      match m.kernel.procs[i]? with
      | none => none
      | some p => m.act i p action

def start (k : KernelState) : Machine where
  kernel := k
  phase := fun _ => .user
  halted := none
  history :=
    { sent := fun j => ((k.procs[j]?).map Proc.signalQueue).getD []
      taken := fun _ => []
      notices := fun _ => []
      heir := fun _ => none
      granted := fun _ => none
      returns := fun j => ((k.procs[j]?).filter fun p => p.type ≠ .kernel).toList.map fun p =>
        ⟨p.procState.memPages, p.procState.progPages, none⟩ }

end Machine

def userProc (pid parent page : Word) : Proc :=
  { Proc.zero with
    pid := pid
    parent := parent
    type := .user
    state := .runnable
    procState := { ProcState.zero with
      memPages := fun j => if j = 15 then page else unmappedPage
      progPages := fun _ => unmappedPage }
    kernelStackPage := page + 1 }

def kernelThread (pid page : Word) : Proc :=
  { Proc.zero with
    pid := pid
    type := .kernel
    state := .runnable
    procState := kernelMapping page ProcState.zero }

def runningFirst (procs : List Proc) : KernelState :=
  { bootKernel (fun _ _ => 0) with
    procs := procs
    currentProc := some 0
    lastElement := some 0
    pages := ⟨0x211 + BitVec.ofNat 16 (2 * procs.length), 0x11⟩ }

def userRegs (r0 r1 r2 r3 : Word) (timer : Bool) : IntHandlerState where
  regs := fun r => if r = 0 then r0 else if r = 1 then r1 else if r = 2 then r2 else
    if r = 3 then r3 else if r = 7 then 0xfffe else 0
  pc := 0
  arithFlags := 0
  timer := timer

def wholeCall (call : Syscall) (r1 r2 r3 : Word) : List Action :=
  [.trap (userRegs call.number r1 r2 r3 false), .call (.refusing fun _ _ => 0), .leave 0]

def tick : Action := .irq (userRegs 0 0 0 0 true) 8

end PiOS.Kernel
