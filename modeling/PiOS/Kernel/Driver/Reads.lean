import PiOS.Kernel.Driver.Async
import PiOS.Kernel.Libk.Ringbuff

namespace PiOS.Kernel

inductive ReadDevice
  | kbd | tty
  deriving DecidableEq

def ReadDevice.buffSize : ReadDevice → Nat
  | .kbd => 16
  | .tty => 255

structure ReadRing where
  rb : Ringbuff
  dataSignal : Int

def readRingInit (size : Nat) : ReadRing := ⟨ringbuffInit size fun _ => 0, 0⟩

def ReadRing.submit (ring : ReadRing) (bytes : List Byte) : Except Stop ReadRing :=
  (semaphoreBinaryUp ring.dataSignal).map fun signal => ⟨(ringbuffWrite ring.rb bytes).2, signal⟩

structure ReadDone where
  id : Nat
  value : Word
  placed : List Byte
  deriving DecidableEq

/-- What `SYS_READ` copies to the user from its kernel buffer. Behind what was placed there is what the
buffer held before, `stale`. -/
def ReadDone.copied (stale : Nat → Nat → Byte) (x : ReadDone) : List Byte :=
  if 0 < x.value.toInt then (List.range x.value.toNat).map fun j => x.placed.getD j (stale x.id j) else []

/-- What the submitters and the thread of a device share; `pending` is `list_read_pending` of `kbd.c` and
`read_queue_buff` of `tty.c`. `typed` and `done` record what has happened. -/
structure Reads where
  ring : ReadRing
  list : List Request
  listSema : Int
  insertLock : Int
  pending : Word
  typed : List Byte
  done : List ReadDone

inductive ReaderPlace
  | outside
  | called (r : Request)
  | locked (r : Request)
  | count (r : Request)
  | append (r : Request)
  | raise (r : Request)
  | unlock (r : Request) (rc : Word)
  | returned (r : Request) (rc : Word)
  | waits (r : Request)
  deriving DecidableEq

inductive ServerPlace
  | down
  | first
  | test (r : Request)
  | sleep (r : Request)
  | lock (r : Request)
  | read (r : Request) (got : List Byte)
  | signal (r : Request) (got : List Byte)
  | count (r : Request) (got : List Byte)
  | unlock (r : Request) (got : List Byte)
  | remove (r : Request) (got : List Byte)
  | finalize (r : Request) (got : List Byte)
  deriving DecidableEq

namespace ReadDevice

/-- The request as the thread goes on with it. `tty` lowers `req->size`, which nobody else reads; the list keeps
the size of the submission. -/
def take (d : ReadDevice) (r : Request) : Request :=
  match d with
  | .kbd => r
  | .tty => { r with size := BitVec.ofNat 16 (min r.size.toNat d.buffSize) }

def afterRead (d : ReadDevice) (r : Request) (got : List Byte) : ServerPlace :=
  match d with
  | .kbd => .signal r got
  | .tty => .count r got

def result (d : ReadDevice) (r : Request) (got : List Byte) : Word :=
  match d with
  | .kbd => r.size
  | .tty => BitVec.ofNat 16 got.length

end ReadDevice

namespace Reads

variable (s : Reads)

def wouldBlock (r : Request) : Bool :=
  r.wantsWouldblock && decide (s.pending.toNat ≥ s.ring.rb.length)

def afterTest (r : Request) : ReaderPlace :=
  if s.wouldBlock r then .unlock r (-ewouldblock) else .count r

/-- The tests under the lock. A write goes to a list of its own, which is not part of this state. -/
def submitLocked (d : ReadDevice) (r : Request) : ReaderPlace :=
  match d with
  | .kbd => s.afterTest r
  | .tty =>
    if r.type = vfsAsyncTypeRead then s.afterTest r
    else if r.type = vfsAsyncTypeWrite then .unlock r 0
    else .unlock r (-enosup)

def downLock : Except Stop Reads :=
  (semaphoreDown s.insertLock).map fun count => { s with insertLock := count }

def upLock : Reads := { s with insertLock := intWrap (s.insertLock + 1) }

def submitNext (d : ReadDevice) : ReaderPlace → Except Stop (Reads × ReaderPlace)
  | .outside => .error .blocked
  | .called r =>
    if d = .kbd ∧ r.type ≠ 1 then .ok (s, .returned r (-enosup)) else s.downLock.map (·, .locked r)
  | .locked r => .ok (s, s.submitLocked d r)
  | .count r => .ok ({ s with pending := s.pending + r.size }, .append r)
  | .append r => .ok ({ s with list := s.list ++ [r] }, .raise r)
  | .raise r => .ok ({ s with listSema := intWrap (s.listSema + 1) }, .unlock r 0)
  | .unlock r rc => .ok (s.upLock, .returned r rc)
  | .returned r rc => .ok (s, if rc.toInt < 0 then .outside else .waits r)
  | .waits r =>
    if r.type ≠ vfsAsyncTypeRead ∨ s.done.any fun x => x.id = r.id then .ok (s, .outside) else .error .blocked

def serverTest (d : ReadDevice) (r : Request) : Except Stop (Reads × ServerPlace) :=
  if s.ring.rb.length = 0 then
    if d = .tty ∧ r.wantsWouldblock then .error (.assertion "!(req->flags & VFS_ASYNC_FLAG_WANT_WOULDBLOCK)")
    else .ok (s, .sleep r)
  else if d = .kbd ∧ r.pid ≠ 0 then .error (.assertion "req->pid == 0")
  else .ok (s, .lock r)

def serverRead (d : ReadDevice) (r : Request) (got : List Byte) : Reads × ServerPlace :=
  if got.length < r.size.toNat ∧ ringbuffEmpty s.ring.rb = false then
    ({ s with ring := { s.ring with rb := (ringbuffGet s.ring.rb).2 } }, .read r (got ++ [(ringbuffGet s.ring.rb).1]))
  else
    (s, d.afterRead r got)

def serverSignal : Except Stop Reads :=
  if s.ring.rb.length ≠ 0 then
    (semaphoreBinaryUp s.ring.dataSignal).map fun signal => { s with ring := { s.ring with dataSignal := signal } }
  else
    .ok s

def serverNext (d : ReadDevice) : ServerPlace → Except Stop (Reads × ServerPlace)
  | .down => (semaphoreDown s.listSema).map fun count => ({ s with listSema := count }, .first)
  | .first =>
    match s.list with
    | [] => .error .nullDereference
    | r :: _ => .ok (s, .test (d.take r))
  | .test r => s.serverTest d r
  | .sleep r => (semaphoreDown s.ring.dataSignal).map fun count =>
    ({ s with ring := { s.ring with dataSignal := count } }, .test r)
  | .lock r => s.downLock.map (·, .read r [])
  | .read r got => .ok (s.serverRead d r got)
  | .signal r got => s.serverSignal.map (·, .count r got)
  | .count r got => .ok ({ s with pending := s.pending - r.size }, .unlock r got)
  | .unlock r got => .ok (s.upLock, .remove r got)
  | .remove r got =>
    match s.list with
    | [] => .error .nullDereference
    | _ :: rest => .ok ({ s with list := rest }, .finalize r got)
  | .finalize r got => .ok ({ s with done := s.done ++ [⟨r.id, d.result r got, got⟩] }, .down)

def input (bytes : List Byte) : Except Stop Reads :=
  (s.ring.submit bytes).map fun ring =>
    { s with ring := ring, typed := s.typed ++ bytes.take (ringbuffWrite s.ring.rb bytes).1 }

end Reads

structure ReadState (ι : Type) where
  shared : Reads
  place : ι → ReaderPlace
  server : ServerPlace
  next : Nat
  halted : Option Stop

inductive ReadAction (ι : Type)
  | submit (i : ι) (pid type size flags : Word)
  | next (i : ι)
  | server
  | input (bytes : List Byte)

section

variable {ι : Type} [DecidableEq ι]

def ReadState.settle {φ : Type} (s : ReadState ι) (out : Except Stop φ) (move : φ → ReadState ι) :
    Option (ReadState ι) :=
  match out with
  | .ok result => some (move result)
  | .error .blocked => none
  | .error stop => some { s with halted := some stop }

def readStep (d : ReadDevice) (s : ReadState ι) (action : ReadAction ι) : Option (ReadState ι) :=
  if s.halted.isSome then
    none
  else
    match action with
    | .submit i pid type size flags =>
      if s.place i = .outside then
        some { s with
          place := Function.update s.place i (.called ⟨s.next, pid, type, size, flags⟩)
          next := s.next + 1 }
      else
        none
    | .next i => s.settle (s.shared.submitNext d (s.place i)) fun out =>
      { s with shared := out.1, place := Function.update s.place i out.2 }
    | .server => s.settle (s.shared.serverNext d s.server) fun out =>
      { s with shared := out.1, server := out.2 }
    | .input bytes =>
      if d = .kbd ∧ bytes.length ≠ 1 then none else s.settle (s.shared.input bytes) fun shared =>
        { s with shared := shared }

end

def readStart (ι : Type) (d : ReadDevice) : ReadState ι where
  shared := ⟨readRingInit d.buffSize, [], 0, 1, 0, [], []⟩
  place := fun _ => .outside
  server := .down
  next := 0
  halted := none

end PiOS.Kernel
