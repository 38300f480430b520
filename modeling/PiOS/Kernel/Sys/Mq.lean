import PiOS.Kernel.Libk.Kmalloc
import PiOS.Kernel.Libk.Semaphore

namespace PiOS.Kernel

structure MqMsg where
  id : Word
  type : Word
  size : Word
  data : Nat
  deriving DecidableEq

structure MqEntry where
  mq : List MqMsg
  len : Word
  lock : Int
  dataAvailable : Int

def mqsCreate : MqEntry := ⟨[], 0, 1, 0⟩

inductive MqReturn
  | id (msg : Word)
  | msg (m : MqMsg)
  | null
  deriving DecidableEq

inductive MqPlace
  | returned (value : MqReturn)
  | pushKmalloc (msg : MqMsg)
  | pushDownLock (msg : MqMsg)
  | pushAppend (msg : MqMsg)
  | pushUpData (msg : MqMsg)
  | pushLen (msg : MqMsg)
  | pushUpLock (msg : MqMsg)
  | popDownData
  | popDownLock
  | popRemove
  | popLen (m : MqMsg)
  | popUpLock (m : MqMsg)
  | nonblockDownLock
  | nonblockTest
  | nonblockGiveUp
  | nonblockRemove
  | nonblockDownData (m : MqMsg)
  | nonblockLen (m : MqMsg)
  | nonblockUpLock (m : MqMsg)
  deriving DecidableEq

-- `mq.first->val` and `list_remove` of the first node
def takeFirst (mqe : MqEntry) (place : MqMsg → MqPlace) : Except Stop (MqEntry × MqPlace) :=
  match mqe.mq with
  | [] => .error .nullDereference
  | m :: rest => .ok ({ mqe with mq := rest }, place m)

def downLock (mqe : MqEntry) (place : MqPlace) : Except Stop (MqEntry × MqPlace) :=
  (semaphoreDown mqe.lock).map fun count => ({ mqe with lock := count }, place)

def downData (mqe : MqEntry) (place : MqPlace) : Except Stop (MqEntry × MqPlace) :=
  (semaphoreDown mqe.dataAvailable).map fun count => ({ mqe with dataAvailable := count }, place)

def upLock (mqe : MqEntry) (value : MqReturn) : Except Stop (MqEntry × MqPlace) :=
  .ok ({ mqe with lock := semaphoreUp mqe.lock }, .returned value)

/-- `kmalloc` in a heap that others use as well: `room` says if it finds a block. Every node of the list is one. -/
def allocating (room : Bool) (mqe : MqEntry) (next : MqEntry × MqPlace) : Except Stop (MqEntry × MqPlace) :=
  if room = true ∧ mqe.mq.length < heapArrSize then .ok next else .error (.panic "kmalloc: out of memory")

def mqNext (room : Bool) (mqe : MqEntry) : MqPlace → Except Stop (MqEntry × MqPlace)
  | .returned _ => .error .blocked
  | .pushKmalloc msg => allocating room mqe (mqe, .pushDownLock msg)
  | .pushDownLock msg => downLock mqe (.pushAppend msg)
  | .pushAppend msg => allocating room mqe ({ mqe with mq := mqe.mq ++ [msg] }, .pushUpData msg)
  | .pushUpData msg => .ok ({ mqe with dataAvailable := semaphoreUp mqe.dataAvailable }, .pushLen msg)
  | .pushLen msg => .ok ({ mqe with len := mqe.len + 1 }, .pushUpLock msg)
  | .pushUpLock msg => upLock mqe (.id msg.id)
  | .popDownData => downData mqe .popDownLock
  | .popDownLock => downLock mqe .popRemove
  | .popRemove => takeFirst mqe .popLen
  | .popLen m => .ok ({ mqe with len := mqe.len - 1 }, .popUpLock m)
  | .popUpLock m => upLock mqe (.msg m)
  | .nonblockDownLock => downLock mqe .nonblockTest
  | .nonblockTest => .ok (mqe, if mqe.len = 0 then .nonblockGiveUp else .nonblockRemove)
  | .nonblockGiveUp => upLock mqe .null
  | .nonblockRemove => takeFirst mqe .nonblockDownData
  | .nonblockDownData m => downData mqe (.nonblockLen m)
  | .nonblockLen m => .ok ({ mqe with len := mqe.len - 1 }, .nonblockUpLock m)
  | .nonblockUpLock m => upLock mqe (.msg m)

inductive MqCall
  | push (msg : MqMsg)
  | pop
  | popNonblock

structure MqState (ι : Type) where
  mqe : MqEntry
  mqMsgId : Word
  place : ι → MqPlace
  sent : List MqMsg
  taken : List MqMsg

inductive MqAction (ι : Type)
  | call (i : ι) (c : MqCall)
  | next (i : ι) (room : Bool)

def MqAction.actor {ι : Type} : MqAction ι → ι
  | .call i _ => i
  | .next i _ => i

def mqStart (ι : Type) : MqState ι := ⟨mqsCreate, 0, fun _ => .returned .null, [], []⟩

def appended : MqPlace → List MqMsg
  | .pushAppend msg => [msg]
  | _ => []

def removed (mqe : MqEntry) : MqPlace → List MqMsg
  | .popRemove | .nonblockRemove => mqe.mq.take 1
  | _ => []

variable {ι : Type} [DecidableEq ι]

def MqState.move (s : MqState ι) (i : ι) (place : MqPlace) : MqState ι :=
  { s with place := Function.update s.place i place }

def MqState.enter (s : MqState ι) (i : ι) : MqCall → MqState ι
  | .push msg =>
    { s.move i (.pushKmalloc { msg with id := s.mqMsgId + 1 }) with mqMsgId := s.mqMsgId + 1 }
  | .pop => s.move i .popDownData
  | .popNonblock => s.move i .nonblockDownLock

def mqStep (s : MqState ι) : MqAction ι → Option (MqState ι)
  | .call i c =>
    match s.place i with
    | .returned _ => some (s.enter i c)
    | _ => none
  | .next i room =>
    (mqNext room s.mqe (s.place i)).toOption.map fun (mqe, place) =>
      { s.move i place with
        mqe := mqe
        sent := s.sent ++ appended (s.place i)
        taken := s.taken ++ removed s.mqe (s.place i) }

end PiOS.Kernel
