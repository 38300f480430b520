import PiOS.Kernel.Libk.Math
import PiOS.Kernel.Proc.Sched

namespace PiOS.Kernel
open Function

def KernelState.atomicAddInt (k : KernelState) (id : Nat) (val : Int) : KernelState :=
  { k with semas := update k.semas id (intWrap (k.semas id + val)) }

inductive DownPlace
  | outside
  | beforeYield
  | afterYield
  deriving DecidableEq

structure SemaState where
  kernel : KernelState
  place : Nat → DownPlace
  halted : Option Stop

inductive SemaAction
  | up
  | down
  | yield (fuel : Nat)
  | recheck
  | interrupt (fuel : Nat)
  | mode
  | others (semas : Nat → Int)

def blockOn (sema : SemaRef) (p : Proc) : Proc :=
  { p with
    state := if p.state = .syscall then .syscallBlocked else .blocked
    semaBlocked := some sema }

namespace SemaState

variable (s : SemaState) (id : Nat)

def setPlace (i : Nat) (place : DownPlace) : SemaState := { s with place := update s.place i place }

def setKernel (k : KernelState) : SemaState := { s with kernel := k }

def semaphoreDown (i : Nat) : SemaState :=
  if s.kernel.semas id < 0 then
    { s with halted := some (.assertion "count >= 0") }
  else if s.kernel.semas id = 0 then
    (s.setKernel (s.kernel.modifyProc i (blockOn (.other id)))).setPlace i .beforeYield
  else
    s.setKernel (s.kernel.atomicAddInt id (-1))

def semaphoreRecheck (i : Nat) : SemaState :=
  if s.kernel.semas id = 0 then
    s.setPlace i .beforeYield
  else
    (s.setKernel (s.kernel.atomicAddInt id (-1))).setPlace i .outside

def pickNext (fuel : Nat) : Option SemaState :=
  (schedPickNext fuel s.kernel).bind fun picked => picked.toOption.map s.setKernel

def act (i : Nat) (p : Proc) : SemaAction → Option SemaState
  | .down =>
    if s.place i = .outside ∧ (p.state = .runnable ∨ p.state = .syscall) then some (s.semaphoreDown id i) else none
  | .yield fuel => if s.place i = .beforeYield then (s.setPlace i .afterYield).pickNext fuel else none
  | .recheck => if s.place i = .afterYield then some (s.semaphoreRecheck id i) else none
  | .mode =>
    -- into a system call and back
    if s.place i = .outside ∧ p.state = .runnable then
      some (s.setKernel (s.kernel.modifyProc i fun p => { p with state := .syscall }))
    else if s.place i = .outside ∧ p.state = .syscall then
      some (s.setKernel (s.kernel.modifyProc i fun p => { p with state := .runnable }))
    else
      none
  | _ => none

end SemaState

/-- One step over the semaphore `id`. Interrupt handlers raise semaphores as processes do, so `up` is possible
everywhere. -/
def semaStep (id : Nat) (s : SemaState) (action : SemaAction) : Option SemaState :=
  if s.halted.isSome then
    none
  else
    match action with
    | .up => some (s.setKernel (s.kernel.atomicAddInt id 1))
    | .others semas => some (s.setKernel { s.kernel with semas := update semas id (s.kernel.semas id) })
    | .interrupt fuel => (s.setKernel { s.kernel with sysTicks := s.kernel.sysTicks + 1 }).pickNext fuel
    | _ =>
      s.kernel.currentProc.bind fun i => s.kernel.procs[i]?.bind fun p => s.act id i p action

def semaStart (k : KernelState) : SemaState := ⟨k, fun _ => .outside, none⟩

end PiOS.Kernel
