import PiOS.Kernel.Proc.Proc

namespace PiOS.Kernel

def sigTypeControl : Word := 1
def sigTypeAlarm : Word := 2
def sigControlChld : Word := 1

def listAppendSignal (proc : Proc) (signal : Signal) : Proc :=
  { proc with signalQueue := proc.signalQueue ++ [signal] }

def semaphoreUpSignal (proc : Proc) : Proc :=
  { proc with signalSema := proc.signalSema + 1 }

/-- The `kmalloc`s of `signal_send` and of its `list_append`. -/
def signalBlocks (heap : HeapMemory) : Except Stop HeapMemory := do
  let (_, heap) ← kmalloc heap (BitVec.ofNat 16 sizeofSignal)
  let (_, heap) ← kmalloc heap (BitVec.ofNat 16 sizeofListNode)
  .ok heap

def signalSend (k : KernelState) (target : Nat) (signal : Signal) : Except Stop KernelState := do
  let heap ← signalBlocks k.heap
  .ok ({ k with heap := heap }.modifyProc target fun p => semaphoreUpSignal (listAppendSignal p signal))

def alarmDue (sysTicks : BitVec 32) (proc : Proc) : Bool :=
  proc.alarmTicks ≠ 0 && (proc.alarmTicks.setWidth 16).toNat ≤ (sysTicks.setWidth 16).toNat

def checkAlarm (k : KernelState) (i : Nat) (lproc : Proc) : Except Stop KernelState := do
  if alarmDue k.sysTicks lproc then
    let k ← signalSend k i ⟨sigTypeAlarm, lproc.alarmTicks.setWidth 16⟩
    .ok (k.modifyProc i fun p => { p with alarmTicks := 0 })
  else
    .ok k

def semaCount (semas : Nat → Int) (proc : Proc) : SemaRef → Int
  | .signal => proc.signalSema
  | .other id => semas id

def semaReady (semas : Nat → Int) (proc : Proc) : Bool :=
  match proc.semaBlocked with
  | none => false
  | some sema => 0 < semaCount semas proc sema

def wake (proc : Proc) : Proc :=
  { proc with
    state := if proc.state = .blocked then .runnable else .syscall
    semaBlocked := none }

def nextElement (procs : List Proc) : Option Nat → Nat
  | none => 0
  | some i => if i + 1 < procs.length then i + 1 else 0

inductive Turn
  | again (k : KernelState)
  | leave (k : KernelState)

/-- One turn of the loop of `sched_pick_next` behind the alarm. -/
def schedLook (firstElement : Option Nat) (i : Nat) (k : KernelState) : Turn :=
  match k.procs[i]? with
  | none => .again k
  | some lproc =>
    if lproc.state = .runnable ∨ lproc.state = .syscall then
      .leave { k with currentProc := some i }
    else if (lproc.state = .blocked ∨ lproc.state = .syscallBlocked) ∧ semaReady k.semas lproc then
      .leave { k with procs := k.procs.set i (wake lproc), currentProc := some i }
    else if some i = firstElement then
      .leave { k with currentProc := none }
    else
      .again k

def schedTurn (firstElement : Option Nat) (k : KernelState) : Except Stop Turn :=
  let i := nextElement k.procs k.lastElement
  let k := { k with lastElement := some i }
  match k.procs[i]? with
  | none => .ok (.again k)
  | some lproc =>
    if lproc.state = .dead then
      .ok (.again k)
    else
      (checkAlarm k i lproc).map (schedLook firstElement i)

def schedScan (firstElement : Option Nat) : Nat → KernelState → Option (Except Stop KernelState)
  | 0, _ => none
  | fuel + 1, k =>
    match schedTurn firstElement k with
    | .error stop => some (.error stop)
    | .ok (.again k) => schedScan firstElement fuel k
    | .ok (.leave k) => some (.ok k)

def schedPickNext (fuel : Nat) (k : KernelState) : Option (Except Stop KernelState) :=
  if k.procs = [] then
    some (.error (.assertion "proc_list.first != NULL"))
  else
    schedScan k.lastElement fuel k

def clearFd (file : ProcFile) : ProcFile := { file with inode := none }

/-- `make_kernel_thread`. `stale` is what the memory returned by `kmalloc` held before: the fields
the function does not assign keep it. -/
def makeKernelThread (k : KernelState) (stale : Proc) (entry : Word) : Except Stop KernelState := do
  let (addr, heap) ← kmalloc k.heap (BitVec.ofNat 16 sizeofProc)
  let pid := k.pidNow + 1
  let regs : Fin 8 → Word := fun r => if r = 7 ∨ r = 5 then 0xfffe else 0
  let memPages : Fin 16 → Word := fun i =>
    if i = 15 then k.pages.firstFreePage else if i = 0 then 0 else 0x200 + BitVec.ofNat 16 i
  let p := { stale with
    addr := addr
    pid := pid
    type := .kernel
    procState :=
      { regs := regs, pc := entry, arithFlags := 0, memPages := memPages,
        progPages := fun i => BitVec.ofNat 16 i }
    semaBlocked := none
    openFiles := fun fd => clearFd (stale.openFiles fd)
    state := .runnable
    signalQueue := []
    signalSema := 0
    sighandler := 0
    parent := 0 }
  let (_, heap) ← kmalloc heap (BitVec.ofNat 16 sizeofListNode)
  .ok { k with
    heap := heap
    pidNow := pid
    pages := { k.pages with firstFreePage := k.pages.firstFreePage + 1 }
    procs := k.procs ++ [p] }

/-- `sched_init_user_thread`; the new process is the last one of the list. -/
def schedInitUserThread (k : KernelState) (stale : Proc) : Except Stop KernelState := do
  let (addr, heap) ← kmalloc k.heap (BitVec.ofNat 16 sizeofProc)
  let pid := k.pidNow + 1
  let memPages : Fin 16 → Word := fun i => if i = 15 then k.pages.firstFreePage else unmappedPage
  let p := { stale with
    addr := addr
    pid := pid
    type := .user
    procState :=
      { regs := fun _ => 0, pc := 0, arithFlags := 0, memPages := memPages,
        progPages := fun _ => unmappedPage }
    kernelStackPage := k.pages.firstFreePage + 1
    openFiles := fun fd => clearFd (stale.openFiles fd)
    semaBlocked := none
    state := .unloaded
    signalQueue := []
    signalSema := 0
    signalsHold := false
    sighandler := 0
    parent := 0 }
  let (_, heap) ← kmalloc heap (BitVec.ofNat 16 sizeofListNode)
  .ok { k with
    heap := heap
    pidNow := pid
    pages := { k.pages with firstFreePage := k.pages.firstFreePage + 1 + 1 }
    procs := k.procs ++ [p] }

end PiOS.Kernel
