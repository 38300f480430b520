import PiOS.Kernel.Fs.Vfs
import PiOS.Kernel.Proc.Signal

namespace PiOS.Kernel

inductive Syscall
  | dump | print | «open» | close | read | write | fcntl | exit | procinfo | pgmap
  | sigsend | sigwait | sigaction | sighdlrret | clockticks | alarmset
  | mqcreat | mqsend | mqrecv | exec
  deriving DecidableEq

namespace Syscall

def number : Syscall → Word
  | dump => 0x0
  | print => 0x1
  | «open» => 0x2
  | close => 0x3
  | read => 0x4
  | write => 0x5
  | fcntl => 0x6
  | exit => 0x7
  | procinfo => 0x8
  | pgmap => 0x9
  | sigsend => 0xb
  | sigwait => 0xc
  | sigaction => 0xd
  | sighdlrret => 0xe
  | clockticks => 0xf
  | alarmset => 0x10
  | mqcreat => 0x11
  | mqsend => 0x12
  | mqrecv => 0x13
  | exec => 0x14

def all : List Syscall :=
  [dump, print, «open», close, read, write, fcntl, exit, procinfo, pgmap, sigsend, sigwait, sigaction,
    sighdlrret, clockticks, alarmset, mqcreat, mqsend, mqrecv, exec]

def ofNumber (sysno : Word) : Option Syscall := all.find? fun call => call.number = sysno

end Syscall

def Proc.syscall (p : Proc) : Option Syscall := Syscall.ofNumber (p.syscallState.regs 0)

def fFlags : Word := 0
def fDriverCustomStart : Word := 0x100

def KernelState.log (k : KernelState) : KernelState := k.mapPageZero illegalPage

def KernelState.setReg (k : KernelState) (i : Nat) (r : Fin 8) (w : Word) : KernelState :=
  k.modifyProc i fun p => { p with syscallState := p.syscallState.setReg r w }

def KernelState.setFiles (k : KernelState) (i : Nat) (files : FdTable) : KernelState :=
  k.modifyProc i fun p => { p with openFiles := files }

section Calls

variable (k : KernelState) (i : Nat) (p : Proc) (answers : Answers)

def processPrint : Except Stop KernelState := do
  let (pb, heap) ← kmalloc k.heap (p.syscallState.regs 2 + 1)
  let (k, _) := memcpyFromUserspace k p (p.syscallState.regs 1) (p.syscallState.regs 2 + 1)
  bounded logBuffSize answers.logged
  let heap ← kfree heap pb
  .ok { k.log with heap := heap }

def processOpen : Except Stop KernelState := do
  match procFreeFd p.openFiles with
  | none => .ok (k.setReg i 0 (-etoomanyfiles))
  | some fd =>
    let (path, heap) ← kmalloc k.heap (p.syscallState.regs 2)
    let (k, _) := memcpyFromUserspace k p (p.syscallState.regs 1) (p.syscallState.regs 2)
    let heap ← kfree heap path
    let (rc, files) := vfsOpen p.openFiles fd answers.findInode
    let k := { k.setFiles i files with heap := heap }
    .ok (k.setReg i 0 (if rc.toInt < 0 then rc else BitVec.ofNat 16 fd))

def processClose : Except Stop KernelState := do
  if validateFd (p.syscallState.regs 1) = false then
    .ok (k.setReg i 0 (-ebadfd))
  else
    let (r, files) ← vfsClose p.openFiles (p.syscallState.regs 1)
    .ok ((k.setFiles i files).setReg i 0 r)

def processRead : Except Stop KernelState := do
  if validateFd (p.syscallState.regs 1) = false then
    .ok (k.setReg i 0 (-ebadfd))
  else
    let file ← derefFile p.openFiles (p.syscallState.regs 1)
    let reg ← fileReg k file
    if reg.flags &&& vfsRegFlagKernelBufferOnly ≠ 0 then
      let (ksBuff, heap) ← kmalloc k.heap (p.syscallState.regs 3)
      let (k, files, r) ←
        vfsBlocking { k with heap := heap } p.openFiles (p.syscallState.regs 1) answers
      let k := if 0 < r.toInt then memcpyToUserspace k p (p.syscallState.regs 2) answers.data r else k
      let heap ← kfree k.heap ksBuff
      .ok (({ k with heap := heap }.setFiles i files).setReg i 0 r)
    else
      let (k, files, r) ← vfsBlocking k p.openFiles (p.syscallState.regs 1) answers
      .ok ((k.setFiles i files).setReg i 0 r)

def processWrite : Except Stop KernelState := do
  if validateFd (p.syscallState.regs 1) = false then
    .ok (k.setReg i 0 (-ebadfd))
  else
    let file ← derefFile p.openFiles (p.syscallState.regs 1)
    let reg ← fileReg k file
    if reg.flags &&& vfsRegFlagKernelBufferOnly ≠ 0 then
      let (ksBuff, heap) ← kmalloc k.heap (p.syscallState.regs 3)
      let (k, _) := memcpyFromUserspace k p (p.syscallState.regs 2) (p.syscallState.regs 3)
      let (k, files, r) ←
        vfsBlocking { k with heap := heap } p.openFiles (p.syscallState.regs 1) answers
      let heap ← kfree k.heap ksBuff
      .ok (({ k with heap := heap }.setFiles i files).setReg i 0 r)
    else
      let (k, files, r) ← vfsBlocking k p.openFiles (p.syscallState.regs 1) answers
      .ok ((k.setFiles i files).setReg i 0 r)

def processFcntl : Except Stop KernelState := do
  if validateFd (p.syscallState.regs 1) = false then
    .ok (k.setReg i 0 (-ebadfd))
  else if p.syscallState.regs 2 = fFlags then
    let file ← derefFile p.openFiles (p.syscallState.regs 1)
    let file := if p.syscallState.regs 3 ≠ -1 then { file with fcntlFlags := p.syscallState.regs 3 } else file
    let files ← storeFile p.openFiles (p.syscallState.regs 1) file
    .ok ((k.setFiles i files).setReg i 0 file.fcntlFlags)
  else if (p.syscallState.regs 2).toInt ≥ fDriverCustomStart.toInt then
    let (files, r) ← vfsFioCtl k p.openFiles (p.syscallState.regs 1) answers
    .ok ((k.setFiles i files).setReg i 0 r)
  else
    .ok (k.setReg i 0 (-einval))

def RunState.code : RunState → Word
  | .unloaded => 0 | .runnable => 1 | .blocked => 2 | .syscall => 3 | .syscallBlocked => 4 | .dead => 5

def ProcType.code : ProcType → Word
  | .init => 0 | .user => 1 | .kernel => 2 | .priv => 3

def pagesMapped (table : Fin 16 → Word) (mapped : Word → Bool) : Word :=
  (List.finRange 16).foldl (fun mask j => if mapped (table j) then mask ||| (1 <<< j.val) else mask) 0

def procInfo (proc : Proc) : List Byte :=
  [proc.pid, proc.type.code, proc.state.code, proc.loadBrk,
    pagesMapped proc.syscallState.memPages (fun w => w ≠ 0 && w ≠ 0xff),
    pagesMapped proc.syscallState.progPages (fun w => w ≠ 0),
    if proc.state = .dead then proc.procState.regs 0 else 0].flatMap wordBytes

def processProcinfo : Except Stop KernelState := do
  let target := if p.syscallState.regs 1 ≠ 0 then
      (procByPid k.procs (p.syscallState.regs 1)).bind fun j => k.procs[j]?
    else some p
  match target with
  | none => .ok (k.setReg i 0 (-enotfound))
  | some proc =>
    let k := memcpyToUserspace k p (p.syscallState.regs 2) (procInfo proc)
      (BitVec.ofNat 16 (procInfo proc).length)
    .ok (k.setReg i 0 0)

def processPgmap : Except Stop KernelState :=
  let page := p.syscallState.regs 1
  if inside : 0 ≤ page.toInt ∧ page.toInt < 16 then
    let entry : Fin 16 := ⟨page.toInt.toNat, by omega⟩
    if p.syscallState.memPages entry ≠ unmappedPage ∧ p.syscallState.memPages entry ≠ 0 then
      .ok (k.setReg i 0 (-enotfound))
    else
      let k := { k.modifyProc i fun p => { p with
          syscallState := { p.syscallState with
            memPages := Function.update p.syscallState.memPages entry k.pages.firstFreePage } } with
        pages := { k.pages with firstFreePage := k.pages.firstFreePage + 1 } }
      .ok (k.setReg i 0 0)
  else
    .ok (k.setReg i 0 (-einval))

def processSigaction : Except Stop KernelState :=
  .ok (k.modifyProc i fun p => { p with
    syscallState := p.syscallState.setReg 0 p.sighandler
    sighandler := p.syscallState.regs 1 })

def processSigsend : Except Stop KernelState :=
  let signal : Signal := ⟨p.syscallState.regs 2, p.syscallState.regs 3⟩
  if 0 ≤ (p.syscallState.regs 1).toInt then
    match procByPid k.procs (p.syscallState.regs 1) with
    | none => .ok (k.setReg i 0 (-einval))
    | some target => signalSend k target signal
  else
    signalSend k i signal

def processSigwait : Except Stop KernelState := do
  if p.sighandler ≠ 0 ∧ p.signalsHold = false then
    .ok (k.setReg i 0 (-einval))
  else if p.signalSema ≤ 0 then
    .error .blocked
  else
    match p.signalQueue with
    | [] => .error (.assertion "current_proc->signal_queue.first")
    | signal :: queue =>
      let k := memcpyToUserspace k p (p.syscallState.regs 1) signal.bytes (BitVec.ofNat 16 sizeofSignal)
      let k := k.modifyProc i fun p => { p with signalSema := p.signalSema - 1, signalQueue := queue }
      .ok (k.setReg i 0 0)

def processClockticks : Except Stop KernelState :=
  .ok ((k.setReg i 0 (k.sysTicks.setWidth 16)).setReg i 1 ((k.sysTicks <<< 16).setWidth 16))

/-- Converting an `int` register to `unsigned long` extends its sign. -/
def processAlarmset : Except Stop KernelState :=
  let alarmVal := (p.syscallState.regs 2).signExtend 32 <<< 16 ||| (p.syscallState.regs 1).signExtend 32
  .ok (k.modifyProc i fun p => { p with alarmTicks := alarmVal })

def processMqsend : Except Stop KernelState := do
  let (_, heap) ← kmalloc k.heap (p.syscallState.regs 3)
  let (k, _) := memcpyFromUserspace k p (p.syscallState.regs 6) (p.syscallState.regs 3)
  .ok ({ k with heap := heap }.setReg i 0 answers.mqId)

def processMqrecv : Except Stop KernelState :=
  match answers.mqMsg with
  | none => .ok (k.setReg i 0 (-einval))
  | some (id, type, size, data) =>
    let header := [id, type, size].flatMap wordBytes
    let size := if size.toNat < (p.syscallState.regs 2).toNat then size else p.syscallState.regs 2
    let k := memcpyToUserspace k p (p.syscallState.regs 3) header 6
    let k := memcpyToUserspace k p (p.syscallState.regs 3 + 6) data size
    .ok (k.setReg i 0 0)

def markDead : KernelState :=
  (k.log.modifyProc i fun p => { p with
    syscallState := p.syscallState.setReg 0 (p.syscallState.regs 1)
    state := .dead })

def processExit : Except Stop KernelState :=
  signalSendSigchld (markDead k i) p p

def headerSize : Word := 56

def execBegin : Except Stop (KernelState × Option Nat) := do
  if validateFd (p.syscallState.regs 1) = false then
    .ok (k.setReg i 0 (-ebadfd), none)
  else
    let (k, files, r) ← vfsBlocking k p.openFiles (p.syscallState.regs 1) answers
    let k := k.setFiles i files
    if r ≠ headerSize then
      .ok (k.log.setReg i 0 (-ebadfd), none)
    else
      match answers.child with
      | none => .ok (k.log.setReg i 0 (-ebadfd), none)
      | some stale =>
        let k' ← schedInitUserThread k stale
        -- `strcpy(proc->name, file->inode->name)`
        bounded procNameSize (answers.name.length + 1)
        .ok (k', some k.procs.length)

def loadChild (parent : Word) (loaded : Loaded) (child : Proc) : Proc :=
  { child with
    procState := { child.procState with
      pc := loaded.pc, memPages := loaded.memPages, progPages := loaded.progPages }
    loadBrk := loaded.loadBrk
    parent := parent
    state := .runnable }

def execFinish (child : Nat) (loaded : Loaded) : KernelState :=
  let k := { k.modifyProc child (loadChild p.pid loaded) with pages := loaded.pages }
  k.setReg i 0 ((k.procs[child]?.map Proc.pid).getD 0)

def processExec : Except Stop KernelState := do
  let (k, child) ← execBegin k i p answers
  match child with
  | none => .ok k
  | some child => .ok (execFinish k i p child answers.loaded)

def processSyscall : Except Stop KernelState :=
  match p.syscall with
  | some .dump => .ok k.log
  | some .print => processPrint k p answers
  | some .open => processOpen k i p answers
  | some .close => processClose k i p
  | some .read => processRead k i p answers
  | some .write => processWrite k i p answers
  | some .fcntl => processFcntl k i p answers
  | some .procinfo => processProcinfo k i p
  | some .pgmap => processPgmap k i p
  | some .sigaction => processSigaction k i
  | some .sigsend => processSigsend k i p
  | some .sighdlrret => signalHandlerReturn k i
  | some .sigwait => processSigwait k i p
  | some .clockticks => processClockticks k i
  | some .alarmset => processAlarmset k i p
  | some .mqcreat => .ok (k.setReg i 0 answers.mqId)
  | some .mqsend => processMqsend k i p answers
  | some .mqrecv => processMqrecv k i p answers
  | some .exit => processExit k i p
  | some .exec => processExec k i p answers
  | none => .ok (k.log.setReg i 0 (-einval))

end Calls

end PiOS.Kernel
