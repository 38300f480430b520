import PiOS.Kernel.Libk.Ringbuff
import PiOS.Kernel.Libk.Semaphore
import PiOS.Kernel.Libk.SemaphoreDown

namespace PiOS.Kernel

structure Spinlock where
  locked : Bool
  owner : Word

def spinlockInit : Spinlock := ⟨false, -1⟩

def spinlockUnlock (sl : Spinlock) (pid : Word) : Spinlock :=
  if pid ≠ sl.owner ∨ sl.locked = false then sl else { sl with locked := false }

structure Blockq where
  rbuff : Ringbuff
  notEmpty : Int
  notFull : Int
  size : Nat
  maxSize : Nat
  baseSize : Nat
  queueLock : Spinlock

def blockqInit (maxSize baseSize : Word) (buff : Nat → Byte) : Blockq where
  rbuff := ringbuffInit (sizeWrap (maxSize.toNat * baseSize.toNat)) buff
  notEmpty := 0
  notFull := maxSize.toInt
  size := 0
  maxSize := maxSize.toNat
  baseSize := baseSize.toNat
  queueLock := spinlockInit

inductive BlockqPlace
  | returned
  | pushDown (elem : List Byte)
  | pushLock (elem : List Byte)
  | pushOwner (elem : List Byte)
  | pushWrite (elem : List Byte) (wlen : Nat)
  | pushCheck (wb : Nat)
  | pushSize
  | pushCheckSize
  | pushUp
  | pushUnlock
  | popDown
  | popLock
  | popOwner
  | popCheckSize
  | popRead (buff : List Byte)
  | popCheck (rb : Nat)
  | popSize
  | popUp
  | popUnlock
  deriving DecidableEq

def lockQueue (q : Blockq) (place : BlockqPlace) : Except Stop (Blockq × BlockqPlace) :=
  if q.queueLock.locked then .error .blocked
  else .ok ({ q with queueLock := { q.queueLock with locked := true } }, place)

def ownQueue (q : Blockq) (pid : Word) (place : BlockqPlace) : Except Stop (Blockq × BlockqPlace) :=
  .ok ({ q with queueLock := { q.queueLock with owner := pid } }, place)

def unlockQueue (q : Blockq) (pid : Word) : Except Stop (Blockq × BlockqPlace) :=
  .ok ({ q with queueLock := spinlockUnlock q.queueLock pid }, .returned)

def checkThat (q : Blockq) (condition : Bool) (text : String) (place : BlockqPlace) :
    Except Stop (Blockq × BlockqPlace) :=
  if condition then .ok (q, place) else .error (.assertion text)

def writeEnds (q : Blockq) (wlen : Nat) : Bool := q.baseSize ≤ wlen || ringbuffFull q.rbuff

def readEnds (q : Blockq) (rlen : Nat) : Bool := q.baseSize ≤ rlen || ringbuffEmpty q.rbuff

def blockqNext (q : Blockq) (pid : Word) : BlockqPlace → Except Stop (Blockq × BlockqPlace)
  | .returned => .error .blocked
  | .pushDown elem => (semaphoreDown q.notFull).map fun count => ({ q with notFull := count }, .pushLock elem)
  | .pushLock elem => lockQueue q (.pushOwner elem)
  | .pushOwner elem => ownQueue q pid (.pushWrite elem 0)
  | .pushWrite elem wlen =>
    if writeEnds q wlen then .ok (q, .pushCheck wlen)
    else .ok ({ q with rbuff := ringbuffPut q.rbuff (elem.getD wlen 0) }, .pushWrite elem (wlen + 1))
  | .pushCheck wb => checkThat q (wb = q.baseSize) "wb == s->base_size" .pushSize
  | .pushSize => .ok ({ q with size := sizeWrap (q.size + 1) }, .pushCheckSize)
  | .pushCheckSize => checkThat q (q.size ≤ q.maxSize) "s->size <= s->max_size" .pushUp
  | .pushUp => .ok ({ q with notEmpty := intWrap (q.notEmpty + 1) }, .pushUnlock)
  | .pushUnlock => unlockQueue q pid
  | .popDown => (semaphoreDown q.notEmpty).map fun count => ({ q with notEmpty := count }, .popLock)
  | .popLock => lockQueue q .popOwner
  | .popOwner => ownQueue q pid .popCheckSize
  | .popCheckSize => checkThat q (0 < q.size) "s->size > 0" (.popRead [])
  | .popRead buff =>
    if readEnds q buff.length then .ok (q, .popCheck buff.length)
    else
      let (byte, rbuff) := ringbuffGet q.rbuff
      .ok ({ q with rbuff := rbuff }, .popRead (buff ++ [byte]))
  | .popCheck rb => checkThat q (rb = q.baseSize) "rb == s->base_size" .popSize
  | .popSize => .ok ({ q with size := sizeWrap (q.size + 2 ^ 16 - 1) }, .popUp)
  | .popUp => .ok ({ q with notFull := intWrap (q.notFull + 1) }, .popUnlock)
  | .popUnlock => unlockQueue q pid

structure BlockqState (ι : Type) where
  q : Blockq
  place : ι → BlockqPlace
  halted : Option Stop
  written : List (List Byte)
  popped : List (List Byte)

inductive BlockqAction (ι : Type)
  | push (i : ι) (elem : List Byte)
  | pop (i : ι)
  | next (i : ι)

def writtenBy (q : Blockq) : BlockqPlace → List (List Byte)
  | .pushWrite elem wlen => if writeEnds q wlen then [elem] else []
  | _ => []

def poppedBy (q : Blockq) : BlockqPlace → List (List Byte)
  | .popRead buff => if readEnds q buff.length then [buff] else []
  | _ => []

variable {ι : Type} [DecidableEq ι]

def BlockqState.move (s : BlockqState ι) (i : ι) (place : BlockqPlace) : BlockqState ι :=
  { s with place := Function.update s.place i place }

def blockqStep (pid : ι → Word) (s : BlockqState ι) (action : BlockqAction ι) : Option (BlockqState ι) :=
  if s.halted.isSome then
    none
  else
    match action with
    | .push i elem =>
      if s.place i = .returned ∧ elem.length = s.q.baseSize then some (s.move i (.pushDown elem)) else none
    | .pop i => if s.place i = .returned then some (s.move i .popDown) else none
    | .next i =>
      match blockqNext s.q (pid i) (s.place i) with
      | .ok (q, place) => some { s.move i place with
          q := q
          written := s.written ++ writtenBy s.q (s.place i)
          popped := s.popped ++ poppedBy s.q (s.place i) }
      | .error .blocked => none
      | .error stop => some { s with halted := some stop }

def blockqStart (ι : Type) (q : Blockq) : BlockqState ι := ⟨q, fun _ => .returned, none, [], []⟩

end PiOS.Kernel
