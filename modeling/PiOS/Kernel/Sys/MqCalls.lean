import PiOS.Kernel.Libk.SemaphoreDown
import PiOS.Kernel.Sys.Mq
import PiOS.Kernel.Sys.Sysd

namespace PiOS.Kernel

def sizeofMqEntry : Nat := 2 * 6
def sizeofMqMsg : Nat := 2 * 4

structure MqNode where
  node : Nat
  hmsg : Nat
  msg : MqMsg
  deriving DecidableEq

structure MqQueue where
  node : Nat
  entry : Nat
  id : Word
  mq : List MqNode
  len : Word
  lock : Int
  dataAvailable : Int
  deriving DecidableEq

structure Mqs where
  mqs : List MqQueue
  mqId : Word
  mqMsgId : Word
  deriving DecidableEq

namespace Mqs

variable (s : Mqs) (heap : HeapMemory)

def mqsCreate : Except Stop (Mqs × HeapMemory × Word) := do
  let (entry, heap) ← kmalloc heap (BitVec.ofNat 16 sizeofMqEntry)
  let id := s.mqId + 1
  let (node, heap) ← kmalloc heap (BitVec.ofNat 16 sizeofListNode)
  let mqe : MqQueue :=
    { node := node, entry := entry, id := id, mq := [], len := 0, lock := semaphoreUp 0, dataAvailable := 0 }
  .ok ({ s with mqs := s.mqs ++ [mqe], mqId := id }, heap, id)

def findMq (id : Word) : Option (Nat × MqQueue) :=
  (s.mqs.findIdx? fun mqe => mqe.id = id).bind fun i => s.mqs[i]?.map fun mqe => (i, mqe)

def setMq (i : Nat) (mqe : MqQueue) : Mqs := { s with mqs := s.mqs.set i mqe }

def mqPush (mqId : Word) (msg : MqMsg) : Except Stop (Mqs × HeapMemory × Word) :=
  match s.findMq mqId with
  | none => .ok (s, heap, -1)
  | some (i, mqe) => do
    let msg := { msg with id := s.mqMsgId + 1 }
    let (hmsg, heap) ← kmalloc heap (BitVec.ofNat 16 sizeofMqMsg)
    let lock ← semaphoreDown mqe.lock
    let (node, heap) ← kmalloc heap (BitVec.ofNat 16 sizeofListNode)
    let mqe := { mqe with
      mq := mqe.mq ++ [⟨node, hmsg, msg⟩]
      dataAvailable := semaphoreUp mqe.dataAvailable
      len := mqe.len + 1
      lock := semaphoreUp lock }
    .ok ({ s.setMq i mqe with mqMsgId := msg.id }, heap, msg.id)

def removeFirst (heap : HeapMemory) (mqe : MqQueue) : Except Stop (MqQueue × HeapMemory × MqNode) :=
  match mqe.mq with
  | [] => .error .nullDereference
  | m :: rest => do
    let heap ← kfree heap m.node
    .ok ({ mqe with mq := rest }, heap, m)

def mqPop (mqId : Word) : Except Stop (Mqs × HeapMemory × Option MqNode) :=
  match s.findMq mqId with
  | none => .ok (s, heap, none)
  | some (i, mqe) => do
    let dataAvailable ← semaphoreDown mqe.dataAvailable
    let lock ← semaphoreDown mqe.lock
    let (mqe, heap, m) ← removeFirst heap mqe
    let mqe := { mqe with dataAvailable := dataAvailable, len := mqe.len - 1, lock := semaphoreUp lock }
    .ok (s.setMq i mqe, heap, some m)

def mqPopNonblock (mqId : Word) : Except Stop (Mqs × HeapMemory × Option MqNode) :=
  match s.findMq mqId with
  | none => .ok (s, heap, none)
  | some (i, mqe) => do
    let lock ← semaphoreDown mqe.lock
    if mqe.len = 0 then
      .ok (s.setMq i { mqe with lock := semaphoreUp lock }, heap, none)
    else
      let (mqe, heap, m) ← removeFirst heap mqe
      let dataAvailable ← semaphoreDown mqe.dataAvailable
      let mqe := { mqe with dataAvailable := dataAvailable, len := mqe.len - 1, lock := semaphoreUp lock }
      .ok (s.setMq i mqe, heap, some m)

end Mqs

abbrev HeapBytes := Nat → Byte

def HeapBytes.write (bytes : HeapBytes) (ptr : Nat) (data : List Byte) : HeapBytes := fun a =>
  if ptr ≤ a then data.getD (a - ptr) (bytes a) else bytes a

def HeapBytes.read (bytes : HeapBytes) (ptr count : Nat) : List Byte :=
  (List.range count).map fun j => bytes (ptr + j)

structure MqSystem where
  kernel : KernelState
  bytes : HeapBytes
  mqs : Mqs

def MqMsg.header (msg : MqMsg) : List Byte := [msg.id, msg.type, msg.size].flatMap wordBytes

namespace MqSystem

variable (s : MqSystem) (i : Nat) (p : Proc)

def sysMqcreat : Except Stop MqSystem := do
  let (mqs, heap, id) ← s.mqs.mqsCreate s.kernel.heap
  .ok { s with kernel := { s.kernel with heap := heap }.setReg i 0 id, mqs := mqs }

def sysMqsend : Except Stop MqSystem := do
  let (data, heap) ← kmalloc s.kernel.heap (p.syscallState.regs 3)
  let (k, copied) := memcpyFromUserspace s.kernel p (p.syscallState.regs 6) (p.syscallState.regs 3)
  let msg : MqMsg := ⟨0, p.syscallState.regs 2, p.syscallState.regs 3, data⟩
  let (mqs, heap, id) ← s.mqs.mqPush heap (p.syscallState.regs 1) msg
  .ok { kernel := { k with heap := heap }.setReg i 0 id, bytes := s.bytes.write data copied, mqs := mqs }

def mqPopBy : Except Stop (Mqs × HeapMemory × Option MqNode) :=
  if p.syscallState.regs 6 ≠ 0 then
    s.mqs.mqPopNonblock s.kernel.heap (p.syscallState.regs 1)
  else
    s.mqs.mqPop s.kernel.heap (p.syscallState.regs 1)

def sysMqrecv : Except Stop MqSystem := do
  let (mqs, heap, res) ← s.mqPopBy p
  match res with
  | none => .ok { s with kernel := { s.kernel with heap := heap }.setReg i 0 (-einval), mqs := mqs }
  | some m =>
    let size := wordMin m.msg.size (p.syscallState.regs 2)
    let k := memcpyToUserspace s.kernel p (p.syscallState.regs 3) m.msg.header 6
    let k := memcpyToUserspace k p (p.syscallState.regs 3 + 6) (s.bytes.read m.msg.data size.toNat) size
    let heap ← kfree heap m.hmsg
    let heap ← kfree heap m.msg.data
    .ok { s with kernel := { k with heap := heap }.setReg i 0 0, mqs := mqs }

end MqSystem

structure MqEvent where
  procs : List Proc
  phys : PhysMem
  caller : Nat

def MqSystem.before (s : MqSystem) (e : MqEvent) : MqSystem :=
  { s with kernel := { s.kernel with procs := e.procs, phys := e.phys, currentProc := some e.caller } }

def MqSystem.call (s : MqSystem) (e : MqEvent) : Option MqSystem := do
  let p ← e.procs[e.caller]?
  match p.syscall with
  | some .mqcreat => ((s.before e).sysMqcreat e.caller).toOption
  | some .mqsend => ((s.before e).sysMqsend e.caller p).toOption
  | some .mqrecv => ((s.before e).sysMqrecv e.caller p).toOption
  | _ => none

def MqSystem.start (kernel : KernelState) (bytes : HeapBytes) : MqSystem := ⟨kernel, bytes, ⟨[], 0, 0⟩⟩

end PiOS.Kernel
