import PiOS.Kernel.Sys.Sysd

namespace PiOS.Kernel

structure IntHandlerState where
  regs : Fin 8 → Word
  pc : Word
  arithFlags : Word
  timer : Bool

def inKernel (p : Proc) : Bool :=
  p.type = .kernel || p.state = .syscall || p.state = .syscallBlocked

def ProcState.save (s : ProcState) (state : IntHandlerState) : ProcState :=
  { s with regs := state.regs, pc := state.pc, arithFlags := state.arithFlags }

/-- `interrupt` saves the interrupted state in the current process; from here on `map_page_zero`
leaves the process alone. -/
def saveState (k : KernelState) (state : IntHandlerState) : KernelState :=
  match k.currentProc with
  | none => { k with intNoProcModify := true }
  | some i => { k.modifyProc i fun p => { p with procState := p.procState.save state } with
    intNoProcModify := true }

def countTick (k : KernelState) (state : IntHandlerState) : KernelState :=
  if state.timer then { k with sysTicks := k.sysTicks + 1 } else k

def killedBySegfault (p : Proc) : Proc :=
  { p with state := .dead, procState := p.procState.setReg 0 139 }

def interruptSegfault (k : KernelState) (i : Nat) (p : Proc) : Except Stop KernelState :=
  if inKernel p then
    .error (.panic "SEGFAULT INSIDE KERNEL")
  else
    signalSendSigchld (k.modifyProc i killedBySegfault) p p

def switchToUserspace (k : KernelState) : KernelState := { k with intNoProcModify := false }

def resumeCurrent (k : KernelState) : Except Stop KernelState :=
  if (k.currentProc.bind fun i => k.procs[i]?).any fun p => p.state = .unloaded then
    .error (.assertion "current_proc->state != PROC_STATE_UNLOADED")
  else
    .ok (switchToUserspace k)

def interruptEnd (fuel : Nat) (shouldSwitchThread : Bool) (k : KernelState) :
    Option (Except Stop KernelState) :=
  if shouldSwitchThread then
    (schedPickNext fuel k).map fun picked => picked.bind resumeCurrent
  else
    some (resumeCurrent k)

def kernelMapping (kernelStackPage : Word) (s : ProcState) : ProcState :=
  { s with
    memPages := fun j =>
      if j = 15 then kernelStackPage else if j = 0 then illegalPage else 0x200 + BitVec.ofNat 16 j
    progPages := fun j => BitVec.ofNat 16 j }

def enterSyscall (p : Proc) : Proc :=
  { p with
    syscallState := p.procState
    procState := kernelMapping p.kernelStackPage p.procState
    state := .syscall }

def intSysCallEnter (k : KernelState) (i : Nat) : KernelState :=
  ({ k.modifyProc i enterSyscall with intNoProcModify := false }).log

def signalPending (p : Proc) : Bool :=
  !p.signalQueue.isEmpty && !p.signalsHold && p.sighandler ≠ 0

def deliverSignal (k : KernelState) (i : Nat) (p : Proc) : Except Stop KernelState := do
  match p.signalQueue with
  | [] => .ok k
  | signal :: queue =>
    let k ← signalHandlerEnter k i signal
    if p.signalSema ≤ 0 then
      .error (.assertion "current_proc->signal_sema.count > 0")
    else
      .ok (k.modifyProc i fun p => { p with signalQueue := queue, signalSema := p.signalSema - 1 })

def intSysCallLeave (k : KernelState) (i : Nat) : Except Stop KernelState := do
  let k := { k.log with intNoProcModify := true }
  let k := k.modifyProc i fun p => { p with procState := p.syscallState }
  let some p := k.procs[i]? | .error .nullDereference
  let k ← if signalPending p then deliverSignal k i p else .ok k
  .ok (switchToUserspace (k.modifyProc i fun p => { p with state := .runnable }))

def intSysCallSwitch (fuel : Nat) (k : KernelState) : Option (Except Stop KernelState) :=
  (schedPickNext fuel { k.log with intNoProcModify := true }).map (Except.map switchToUserspace)

end PiOS.Kernel
