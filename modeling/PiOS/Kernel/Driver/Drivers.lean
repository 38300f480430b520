import PiOS.Kernel.Fs.Vfs
import PiOS.Kernel.Libk.Semaphore

namespace PiOS.Kernel
open Function

def vfsAsyncTypeRead : Word := 1
def vfsAsyncTypeWrite : Word := 2
def vfsAsyncFlagWantWouldblock : Word := 1

structure AsyncReq where
  reqId : Word
  file : Nat
  fid : Nat
  vnodeData : Bool
  type : Word
  vbuff : List Byte
  size : Word
  flags : Word
  deriving DecidableEq

def AsyncReq.bytes (req : AsyncReq) : List Byte :=
  (List.range req.size.toNat).map fun j => req.vbuff.getD j 0

def AsyncReq.wantsWouldblock (req : AsyncReq) : Bool := req.flags &&& vfsAsyncFlagWantWouldblock ≠ 0

structure RingBuff where
  head : Word
  tail : Word
  size : Word
  deriving DecidableEq

def ringbuffLength (rb : RingBuff) : Word :=
  if rb.head.toNat ≥ rb.tail.toNat then rb.head - rb.tail else rb.head + rb.size - rb.tail

structure TarState where
  reqList : List AsyncReq
  listSema : Int
  listLock : Int

structure TmpState where
  lock : Int
  allocFid : Nat → List Byte

structure TtyState where
  reqReadList : List AsyncReq
  reqWriteList : List AsyncReq
  listReadSema : Int
  listWriteSema : Int
  readDataSignal : Int
  insertLock : Int
  readQueueBuff : Word
  readRb : RingBuff

structure KbdState where
  reqList : List AsyncReq
  dataAvailable : Int
  listSema : Int
  insertLock : Int
  listReadPending : Word
  cBuff : RingBuff

structure I2cState where
  driverData : Nat → Option (Word × Word)
  stale : Word × Word
  device : Byte → Byte → Option Byte
  written : List (Byte × Byte × Byte)

structure Finalized where
  req : AsyncReq
  res : Word
  bytes : List Byte

structure DriverState where
  tar : TarState
  tmp : TmpState
  tty : TtyState
  kbd : KbdState
  i2c : I2cState
  log : List Byte
  serial : Bool → List Byte
  finalized : List Finalized

def vfsAsyncFinalize (s : DriverState) (req : AsyncReq) (ret : Word) (bytes : List Byte) : DriverState :=
  { s with finalized := s.finalized ++ [⟨req, ret, bytes⟩] }

section Submit

variable (s : DriverState) (req : AsyncReq)

def tarSubmitReq : Except Stop (Word × DriverState) := do
  let listLock ← semaphoreDown s.tar.listLock
  let tar := { s.tar with listLock := listLock }
  if req.type ≠ vfsAsyncTypeRead then
    .ok (-enosup, { s with tar := tar })
  else
    let tar := { tar with reqList := tar.reqList ++ [req], listSema := semaphoreUp tar.listSema }
    .ok (0, { s with tar := { tar with listLock := semaphoreUp tar.listLock } })

def tmpWrite (tmp : TmpState) : Word × TmpState :=
  let fdat := tmp.allocFid req.fid
  let new := if req.size.toNat > fdat.length then req.bytes else req.bytes ++ fdat.drop req.size.toNat
  (req.size, { tmp with allocFid := update tmp.allocFid req.fid new })

def tmpRead (tmp : TmpState) : Word × List Byte :=
  let dat := tmp.allocFid req.fid
  let size := min req.size.toNat dat.length
  (BitVec.ofNat 16 size, dat.take size)

def tmpSubmitReq : Except Stop (Word × DriverState) := do
  let lock ← semaphoreDown s.tmp.lock
  let tmp := { s.tmp with lock := lock }
  if req.type = vfsAsyncTypeRead then
    let (res, bytes) := tmpRead req tmp
    .ok (0, vfsAsyncFinalize { s with tmp := { tmp with lock := semaphoreUp tmp.lock } } req res bytes)
  else if req.type = vfsAsyncTypeWrite then
    let (res, tmp) := tmpWrite req tmp
    .ok (0, vfsAsyncFinalize { s with tmp := { tmp with lock := semaphoreUp tmp.lock } } req res [])
  else
    .ok (-enosup, { s with tmp := tmp })

def ttySubmitReq : Except Stop (Word × DriverState) := do
  let insertLock ← semaphoreDown s.tty.insertLock
  let tty := { s.tty with insertLock := insertLock }
  if req.type = vfsAsyncTypeRead then
    if req.wantsWouldblock ∧ tty.readQueueBuff.toNat ≥ (ringbuffLength tty.readRb).toNat then
      .ok (-ewouldblock, { s with tty := { tty with insertLock := semaphoreUp tty.insertLock } })
    else
      let tty := { tty with
        readQueueBuff := tty.readQueueBuff + req.size
        reqReadList := tty.reqReadList ++ [req]
        listReadSema := semaphoreUp tty.listReadSema }
      .ok (0, { s with tty := { tty with insertLock := semaphoreUp tty.insertLock } })
  else if req.type = vfsAsyncTypeWrite then
    let tty := { tty with
      reqWriteList := tty.reqWriteList ++ [req]
      listWriteSema := semaphoreUp tty.listWriteSema }
    .ok (0, { s with tty := { tty with insertLock := semaphoreUp tty.insertLock } })
  else
    .ok (-enosup, { s with tty := { tty with insertLock := semaphoreUp tty.insertLock } })

def kbdSubmitReq : Except Stop (Word × DriverState) := do
  if req.type ≠ 1 then
    .ok (-enosup, s)
  else
    let insertLock ← semaphoreDown s.kbd.insertLock
    let kbd := { s.kbd with insertLock := insertLock }
    if req.wantsWouldblock ∧ kbd.listReadPending.toNat ≥ (ringbuffLength kbd.cBuff).toNat then
      .ok (-ewouldblock, { s with kbd := { kbd with insertLock := semaphoreUp kbd.insertLock } })
    else
      let kbd := { kbd with
        listReadPending := kbd.listReadPending + req.size
        reqList := kbd.reqList ++ [req]
        listSema := semaphoreUp kbd.listSema }
      .ok (0, { s with kbd := { kbd with insertLock := semaphoreUp kbd.insertLock } })

def sioSubmitRequest : Except Stop (Word × DriverState) :=
  if req.type ≠ vfsAsyncTypeWrite then
    .ok (-enosup, s)
  else
    .ok (0, vfsAsyncFinalize { s with log := s.log ++ req.vbuff.takeWhile (· ≠ 0) } req req.size [])

def serialSubmitRequest : Except Stop (Word × DriverState) :=
  if req.type ≠ vfsAsyncTypeWrite then
    .ok (-enosup, s)
  else
    -- the second line leaves out escape characters
    let sent := if req.vnodeData then req.bytes.filter (· ≠ 0x1b) else req.bytes
    .ok (0, vfsAsyncFinalize { s with
      serial := update s.serial req.vnodeData (s.serial req.vnodeData ++ sent) } req req.size [])

def i2cSubmitRequest : Except Stop (Word × DriverState) :=
  let dat := (s.i2c.driverData req.file).getD s.i2c.stale
  let i2c := { s.i2c with driverData := update s.i2c.driverData req.file (some dat) }
  if req.size ≠ 0 then
    if req.type = vfsAsyncTypeWrite then
      let write := (dat.1.setWidth 8, dat.2.setWidth 8, req.vbuff.getD 0 0)
      .ok (0, vfsAsyncFinalize { s with i2c := { i2c with written := i2c.written ++ [write] } } req 1 [])
    else if req.type = vfsAsyncTypeRead then
      match i2c.device (dat.1.setWidth 8) (dat.2.setWidth 8) with
      | none => .ok (0, vfsAsyncFinalize { s with i2c := i2c } req 0 [])
      | some byte => .ok (0, vfsAsyncFinalize { s with i2c := i2c } req 1 [byte])
    else
      .ok (0, { s with i2c := i2c })
  else
    .ok (0, vfsAsyncFinalize { s with i2c := i2c } req 0 [])

end Submit

def Driver.asyncRequest : Driver → Option (DriverState → AsyncReq → Except Stop (Word × DriverState))
  | .rootfs => none
  | .tar => some tarSubmitReq
  | .tmp => some tmpSubmitReq
  | .tty => some ttySubmitReq
  | .kbd => some kbdSubmitReq
  | .sio => some sioSubmitRequest
  | .serial1 | .serial2 => some serialSubmitRequest
  | .i2c => some i2cSubmitRequest

def driversInit (allocFid : Nat → List Byte) (i2c : I2cState) : DriverState where
  tar := ⟨[], 0, 1⟩
  tmp := ⟨1, allocFid⟩
  tty := ⟨[], [], 0, 0, 0, 1, 0, ⟨0, 0, 256⟩⟩
  kbd := ⟨[], 0, 0, 1, 0, ⟨0, 0, 17⟩⟩
  i2c := i2c
  log := []
  serial := fun _ => []
  finalized := []

end PiOS.Kernel
