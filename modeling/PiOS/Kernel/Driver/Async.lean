import PiOS.Kernel.Driver.Drivers
import PiOS.Kernel.Libk.SemaphoreDown

namespace PiOS.Kernel
open Function

inductive ReqQueue
  | tar | kbd | ttyRead | ttyWrite
  deriving DecidableEq

inductive SubmitLock
  | tar | tmp | tty | kbd
  deriving DecidableEq

def ReqQueue.lock : ReqQueue → SubmitLock
  | .tar => .tar
  | .kbd => .kbd
  | .ttyRead | .ttyWrite => .tty

structure Request where
  id : Nat
  pid : Word
  type : Word
  size : Word
  flags : Word
  deriving DecidableEq

def Request.wantsWouldblock (r : Request) : Bool := r.flags &&& vfsAsyncFlagWantWouldblock ≠ 0

/-- What submitters and driver threads share: lists, semaphores, locks, `read_queue_buff` and
`list_read_pending`, and the lengths of the ring buffers. The rest records what has happened. -/
structure AsyncShared where
  list : ReqQueue → List Request
  listSema : ReqQueue → Int
  lock : SubmitLock → Int
  pending : ReqQueue → Word
  available : ReqQueue → Word
  dataSignal : ReqQueue → Int
  finSema : Nat → Int
  appended : ReqQueue → List Nat
  finalized : List Nat
  rejected : List Nat
  freed : List Nat

inductive SubmitPlace
  | outside
  | called (driver : Driver) (r : Request)
  | locked (driver : Driver) (r : Request)
  | append (q : ReqQueue) (r : Request)
  | raise (q : ReqQueue) (r : Request)
  | unlock (lock : SubmitLock) (r : Request) (rc : Word)
  | returned (r : Request) (rc : Word)
  | waits (r : Request)
  deriving DecidableEq

inductive ThreadPlace
  | down
  | first
  | process (r : Request)
  | removeProcessed (r : Request)
  | waitData (r : Request)
  | lockRing (r : Request)
  | readRing (r : Request)
  | unlockRing (r : Request)
  | remove (r : Request)
  | finalize (r : Request)
  deriving DecidableEq

def ReqQueue.serve (q : ReqQueue) (r : Request) : ThreadPlace :=
  match q with
  | .tar => .process r
  | .ttyWrite => .remove r
  | .ttyRead | .kbd => .waitData r

namespace AsyncShared

variable (s : AsyncShared)

def vfsAsyncFinalize (r : Request) : AsyncShared :=
  { s with
    finSema := update s.finSema r.id (intWrap (s.finSema r.id + 1))
    finalized := s.finalized ++ [r.id] }

def downLock (lock : SubmitLock) : Except Stop AsyncShared :=
  (semaphoreDown (s.lock lock)).map fun count => { s with lock := update s.lock lock count }

def upLock (lock : SubmitLock) : AsyncShared :=
  { s with lock := update s.lock lock (intWrap (s.lock lock + 1)) }

def addPending (q : ReqQueue) (size : Word) : AsyncShared :=
  { s with pending := update s.pending q (s.pending q + size) }

def wouldBlock (q : ReqQueue) (r : Request) : Bool :=
  r.wantsWouldblock && decide ((s.pending q).toNat ≥ (s.available q).toNat)

/-- `async_request` up to its lock, or the whole of it for drivers that have none. The root filesystem has
no `async_request` and refuses. -/
def submitCalled (driver : Driver) (r : Request) : Except Stop (AsyncShared × SubmitPlace) :=
  match driver with
  | .rootfs => .ok (s, .returned r (-enosup))
  | .tar => (s.downLock .tar).map (·, .locked .tar r)
  | .tmp => (s.downLock .tmp).map (·, .locked .tmp r)
  | .tty => (s.downLock .tty).map (·, .locked .tty r)
  | .kbd =>
    if r.type ≠ 1 then .ok (s, .returned r (-enosup)) else (s.downLock .kbd).map (·, .locked .kbd r)
  | .sio | .serial1 | .serial2 =>
    if r.type ≠ vfsAsyncTypeWrite then .ok (s, .returned r (-enosup))
    else .ok (s.vfsAsyncFinalize r, .returned r 0)
  | .i2c =>
    -- other types of requests are neither completed nor refused
    if r.size ≠ 0 ∧ r.type ≠ vfsAsyncTypeWrite ∧ r.type ≠ vfsAsyncTypeRead then .ok (s, .returned r 0)
    else .ok (s.vfsAsyncFinalize r, .returned r 0)

/-- The tests under the lock, with what follows up to the next operation on a list or a semaphore. `tar` and
`tmp` return without `semaphore_up` when they refuse. -/
def submitLocked (driver : Driver) (r : Request) : Except Stop (AsyncShared × SubmitPlace) :=
  match driver with
  | .tar => if r.type ≠ vfsAsyncTypeRead then .ok (s, .returned r (-enosup)) else .ok (s, .append .tar r)
  | .tmp =>
    if r.type = vfsAsyncTypeRead ∨ r.type = vfsAsyncTypeWrite then .ok (s.vfsAsyncFinalize r, .unlock .tmp r 0)
    else .ok (s, .returned r (-enosup))
  | .tty =>
    if r.type = vfsAsyncTypeRead then
      if s.wouldBlock .ttyRead r then .ok (s, .unlock .tty r (-ewouldblock))
      else .ok (s.addPending .ttyRead r.size, .append .ttyRead r)
    else if r.type = vfsAsyncTypeWrite then .ok (s, .append .ttyWrite r)
    else .ok (s, .unlock .tty r (-enosup))
  | .kbd =>
    if s.wouldBlock .kbd r then .ok (s, .unlock .kbd r (-ewouldblock))
    else .ok (s.addPending .kbd r.size, .append .kbd r)
  | _ => .error .blocked

def submitNext : SubmitPlace → Except Stop (AsyncShared × SubmitPlace)
  | .outside => .error .blocked
  | .called driver r => s.submitCalled driver r
  | .locked driver r => s.submitLocked driver r
  | .append q r => .ok ({ s with
      list := update s.list q (s.list q ++ [r])
      appended := update s.appended q (s.appended q ++ [r.id]) }, .raise q r)
  | .raise q r => .ok ({ s with
      listSema := update s.listSema q (intWrap (s.listSema q + 1)) }, .unlock q.lock r 0)
  | .unlock lock r rc => .ok (s.upLock lock, .returned r rc)
  | .returned r rc =>
    if rc.toInt < 0 then
      .ok ({ s with rejected := s.rejected ++ [r.id], freed := s.freed ++ [r.id] }, .outside)
    else
      .ok (s, .waits r)
  | .waits r => (semaphoreDown (s.finSema r.id)).map fun count => ({ s with
      finSema := update s.finSema r.id count
      freed := s.freed ++ [r.id] }, .outside)

def removeFirst (q : ReqQueue) : Except Stop AsyncShared :=
  match s.list q with
  | [] => .error .nullDereference
  | _ :: rest => .ok { s with list := update s.list q rest }

def ttyBuffSize : Nat := 255

def readSize (q : ReqQueue) (r : Request) : Word :=
  match q with
  | .ttyRead => BitVec.ofNat 16 (min r.size.toNat ttyBuffSize)
  | _ => r.size

def signalLeft (q : ReqQueue) (left : Word) : Except Stop Int :=
  if q = .kbd ∧ left ≠ 0 then
    if s.dataSignal q < 2 then .ok (if s.dataSignal q = 0 then 1 else s.dataSignal q)
    else .error (.assertion "s->count < 2")
  else
    .ok (s.dataSignal q)

def readRing (q : ReqQueue) (r : Request) : Except Stop AsyncShared :=
  let size := readSize q r
  let left := BitVec.ofNat 16 ((s.available q).toNat - size.toNat)
  (s.signalLeft q left).map fun signal => { s with
    available := update s.available q left
    dataSignal := update s.dataSignal q signal
    pending := update s.pending q (s.pending q - size) }

def waitData (q : ReqQueue) (r : Request) : Except Stop (AsyncShared × ThreadPlace) :=
  if s.available q = 0 then
    if q = .ttyRead ∧ r.wantsWouldblock then
      .error (.assertion "!(req->flags & VFS_ASYNC_FLAG_WANT_WOULDBLOCK)")
    else
      (semaphoreDown (s.dataSignal q)).map fun count =>
        ({ s with dataSignal := update s.dataSignal q count }, .waitData r)
  else if q = .kbd ∧ r.pid ≠ 0 then
    .error (.assertion "req->pid == 0")
  else
    .ok (s, .lockRing r)

def threadNext (q : ReqQueue) : ThreadPlace → Except Stop (AsyncShared × ThreadPlace)
  | .down => (semaphoreDown (s.listSema q)).map fun count =>
    ({ s with listSema := update s.listSema q count }, .first)
  | .first =>
    match s.list q with
    | [] => .error .nullDereference
    | r :: _ => .ok (s, q.serve r)
  | .process r =>
    if r.type = vfsAsyncTypeRead then .ok (s.vfsAsyncFinalize r, .removeProcessed r)
    else .ok (s, .removeProcessed r)
  | .removeProcessed _ => (s.removeFirst q).map (·, .down)
  | .waitData r => s.waitData q r
  | .lockRing r => (s.downLock q.lock).map (·, .readRing r)
  | .readRing r => (s.readRing q r).map (·, .unlockRing r)
  | .unlockRing r => .ok (s.upLock q.lock, .remove r)
  | .remove r => (s.removeFirst q).map (·, .finalize r)
  | .finalize r => .ok (s.vfsAsyncFinalize r, .down)

end AsyncShared

structure AsyncState (ι : Type) where
  shared : AsyncShared
  place : ι → SubmitPlace
  thread : ReqQueue → ThreadPlace
  next : Nat
  halted : Option Stop

inductive AsyncAction (ι : Type)
  | submit (i : ι) (driver : Driver) (pid type size flags : Word)
  | next (i : ι)
  | thread (q : ReqQueue)
  | input (q : ReqQueue) (available : Word) (dataSignal : Int)

section

variable {ι : Type} [DecidableEq ι] (s : AsyncState ι)

def AsyncState.settle {φ : Type} (out : Except Stop (AsyncShared × φ)) (move : AsyncShared → φ → AsyncState ι) :
    Option (AsyncState ι) :=
  match out with
  | .ok (shared, place) => some (move shared place)
  | .error .blocked => none
  | .error stop => some { s with halted := some stop }

def asyncStep (action : AsyncAction ι) : Option (AsyncState ι) :=
  if s.halted.isSome then
    none
  else
    match action with
    | .submit i driver pid type size flags =>
      if s.place i = .outside then
        some { s with
          place := update s.place i (.called driver ⟨s.next, pid, type, size, flags⟩)
          next := s.next + 1 }
      else
        none
    | .next i => s.settle (s.shared.submitNext (s.place i)) fun shared place =>
      { s with shared := shared, place := update s.place i place }
    | .thread q => s.settle (s.shared.threadNext q (s.thread q)) fun shared place =>
      { s with shared := shared, thread := update s.thread q place }
    | .input q available dataSignal => some { s with
        shared := { s.shared with
          available := update s.shared.available q available
          dataSignal := update s.shared.dataSignal q dataSignal } }

end

def asyncStart (ι : Type) : AsyncState ι where
  shared := ⟨fun _ => [], fun _ => 0, fun _ => 1, fun _ => 0, fun _ => 0, fun _ => 0, fun _ => 0, fun _ => [], [], [], []⟩
  place := fun _ => .outside
  thread := fun _ => .down
  next := 0
  halted := none

end PiOS.Kernel
