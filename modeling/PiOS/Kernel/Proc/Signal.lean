import PiOS.Kernel.Proc.Sched
import PiOS.Kernel.Proc.Virtual

namespace PiOS.Kernel

def wordBytes (w : Word) : List Byte := [w.setWidth 8, (w >>> 8).setWidth 8]

def wordAt (bytes : List Byte) (index : Nat) : Word :=
  (bytes.getD (2 * index + 1) 0).setWidth 16 <<< 8 ||| (bytes.getD (2 * index) 0).setWidth 16

def ProcState.words (s : ProcState) : List Word :=
  List.ofFn s.regs ++ [s.pc, s.arithFlags] ++ List.ofFn s.memPages ++ List.ofFn s.progPages

def ProcState.bytes (s : ProcState) : List Byte := s.words.flatMap wordBytes

def ProcState.ofBytes (bytes : List Byte) : ProcState where
  regs r := wordAt bytes r
  pc := wordAt bytes 8
  arithFlags := wordAt bytes 9
  memPages i := wordAt bytes (10 + i)
  progPages i := wordAt bytes (26 + i)

def Signal.bytes (s : Signal) : List Byte := wordBytes s.type ++ wordBytes s.number

def ProcState.setReg (s : ProcState) (r : Fin 8) (w : Word) : ProcState :=
  { s with regs := Function.update s.regs r w }

def signalHandlerEnter (k : KernelState) (i : Nat) (signal : Signal) : Except Stop KernelState := do
  let some proc := k.procs[i]? | .error .nullDereference
  let sp := proc.procState.regs 7 - 4 - BitVec.ofNat 16 sizeofProcState
  let k := memcpyToUserspace k proc (sp + 2) proc.procState.bytes (BitVec.ofNat 16 sizeofProcState)
  let sp := sp - BitVec.ofNat 16 sizeofSignal
  let k := memcpyToUserspace k proc (sp + 2) signal.bytes (BitVec.ofNat 16 sizeofSignal)
  if sp.toNat < 0xf000 then
    .error (.assertion "sp >= 0xf000u")
  else if proc.sighandler = 0 then
    .error (.assertion "proc->sighandler")
  else
    .ok (k.modifyProc i fun p => { p with
      signalsHold := true
      procState := { ((((p.procState.setReg 0 (sp + 2)).setReg 1 1).setReg 5 sp).setReg 6 0).setReg 7 sp
        with pc := p.sighandler } })

/-- `memcpy_from_userspace` into `syscall_state` itself. It overwrites the table it looks pages up in, so every
turn reads the image the turns before have left. -/
def copyState (phys : PhysMem) : Nat → List Byte → Nat → Word → Word → Word → List Byte × Word
  | 0, image, _, _, _, page => (image, page)
  | fuel + 1, image, done, ubuff, size, page =>
    if size = 0 then
      (image, page)
    else
      let page := (ProcState.ofBytes image).memPages (virtPagePart ubuff)
      let toCopy := min size.toNat (pageSize - (virtLocalPart ubuff).toNat)
      let image := image.take done ++ readPage phys page (virtLocalPart ubuff) toCopy ++
        image.drop (done + toCopy)
      copyState phys fuel image (done + toCopy) (ubuff + BitVec.ofNat 16 toCopy)
        (size - BitVec.ofNat 16 toCopy) page

def signalHandlerReturn (k : KernelState) (i : Nat) : Except Stop KernelState := do
  let some proc := k.procs[i]? | .error .nullDereference
  let sp := proc.syscallState.regs 5 + BitVec.ofNat 16 sizeofSignal
  let (image, page) := copyState k.phys sizeofProcState proc.syscallState.bytes 0 (sp + 2)
    (BitVec.ofNat 16 sizeofProcState) k.currentPageZero
  let k := k.mapPageZero page
  let state := ProcState.ofBytes image
  let sp := sp + BitVec.ofNat 16 sizeofProcState + 4
  if sp ≠ state.regs 7 then
    .error (.assertion "sp == proc->syscall_state.regs[7]")
  else
    .ok (k.modifyProc i fun p => { p with syscallState := state, signalsHold := false })

def sigchld : Signal := ⟨sigTypeControl, sigControlChld⟩

def sigchldTarget (procs : List Proc) (chld current : Proc) : Option Nat :=
  if chld.parent = 0 then none else procByPid procs current.parent

def signalSendSigchld (k : KernelState) (chld current : Proc) : Except Stop KernelState :=
  match sigchldTarget k.procs chld current with
  | none => .ok k
  | some pp => signalSend k pp sigchld

end PiOS.Kernel
