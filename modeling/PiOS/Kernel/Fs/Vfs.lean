import PiOS.Kernel.Proc.Virtual

namespace PiOS.Kernel

def vfsRegFlagKernelBufferOnly : Word := 1

/-- What `struct vfs_reg` says about a driver: its flags and which entry points are not `NULL`. -/
structure VfsReg where
  flags : Word
  asyncRequest : Bool
  fioCtl : Bool

def Driver.vfsReg : Driver → VfsReg
  | .rootfs => ⟨0, false, false⟩
  | .tar => ⟨0, true, false⟩
  | .i2c => ⟨vfsRegFlagKernelBufferOnly, true, true⟩
  | .tmp | .tty | .sio | .kbd | .serial1 | .serial2 => ⟨vfsRegFlagKernelBufferOnly, true, false⟩

structure Loaded where
  pc : Word
  memPages : Fin 16 → Word
  progPages : Fin 16 → Word
  loadBrk : Word
  pages : PageCounters

/-- What the code behind the function pointers of a driver, the loader and the message queues answers in one
system call. `child` is the stale memory of the process `elf_load` makes, if it accepts the header, and `name`
that of the file's inode. `logged` is how many bytes `internal_log` makes of the text of `SYS_PRINT`. -/
structure Answers where
  findInode : Option Nat
  asyncRequest : Word
  res : Word
  data : List Byte
  offset : Word
  driverData : Option Nat
  fioCtl : Word
  phys : PhysMem
  mqId : Word
  mqMsg : Option (Word × Word × Word × List Byte)
  child : Option Proc
  name : List Byte
  loaded : Loaded
  logged : Nat

def Answers.refusing (phys : PhysMem) : Answers where
  findInode := none
  asyncRequest := -enosup
  res := 0
  data := []
  offset := 0
  driverData := none
  fioCtl := -enosup
  phys := phys
  mqId := 0
  mqMsg := none
  child := none
  name := []
  loaded := ⟨0, fun _ => 0, fun _ => 0, 0, ⟨0, 0⟩⟩
  logged := 0

def procNameSize : Nat := 16
def logBuffSize : Nat := 512

/-- A store that nothing in the source keeps inside its array. -/
def bounded (room need : Nat) : Except Stop Unit := if need ≤ room then .ok () else .error .outOfBounds

def procMaxFiles : Nat := 16

abbrev FdTable := Fin 16 → ProcFile

def validateFd (fd : Word) : Bool := !(decide (fd.toInt > procMaxFiles) || decide (fd.toInt < 0))

def derefFile (files : FdTable) (fd : Word) : Except Stop ProcFile :=
  if inside : fd.toNat < 16 then .ok (files ⟨fd.toNat, inside⟩) else .error .outOfBounds

def storeFile (files : FdTable) (fd : Word) (file : ProcFile) : Except Stop FdTable :=
  if inside : fd.toNat < 16 then
    .ok (Function.update files ⟨fd.toNat, inside⟩ file)
  else
    .error .outOfBounds

def procFreeFd (files : FdTable) : Option (Fin 16) :=
  (List.finRange 16).find? fun fd => (files fd).inode = none

def fileReg (k : KernelState) (file : ProcFile) : Except Stop VfsReg :=
  match file.inode with
  | none => .error .nullDereference
  | some inode =>
    match (k.inodes inode).vnode with
    | none => .error .nullDereference
    | some vnode => .ok (k.vnodes vnode).reg.vfsReg

def vfsOpen (files : FdTable) (fd : Fin 16) : Option Nat → Word × FdTable
  | none => (-enotfound, files)
  | some inode => (0, Function.update files fd ⟨some inode, 0, 0, none⟩)

def vfsClose (files : FdTable) (fd : Word) : Except Stop (Word × FdTable) := do
  let file ← derefFile files fd
  if file.inode = none then
    .ok (-ebadfd, files)
  else
    let files ← storeFile files fd { file with inode := none }
    .ok (0, files)

def seekSet : Word := 0
def seekCur : Word := 1

def vfsSeek (file : ProcFile) (off whence : Word) : Word × ProcFile :=
  if file.inode = none then
    (-ebadfd, file)
  else if whence = seekSet then
    if off.Negative then (-einval, file) else (off, { file with offset := off })
  else if whence = seekCur then
    -- the sum of a `size_t` and a `ssize_t` is a `size_t`
    if file.offset + off < 0 then
      (-einval, file)
    else
      (file.offset + off, { file with offset := file.offset + off })
  else
    (file.offset, file)

def sizeofSemaphore : Nat := 2
def sizeofVfsAsyncReq : Nat := 20

/-- `vfs_read_blocking` and `vfs_write_blocking`, which differ in the type of the request only. An accepted
request is completed while the caller sleeps. -/
def vfsBlocking (k : KernelState) (files : FdTable) (fd : Word) (answers : Answers) :
    Except Stop (KernelState × FdTable × Word) := do
  let file ← derefFile files fd
  if file.inode = none then
    .ok (k, files, -ebadfd)
  else
    let reg ← fileReg k file
    if reg.asyncRequest = false then
      .ok (k, files, -enosup)
    else
      let (lock, heap) ← kmalloc k.heap (BitVec.ofNat 16 sizeofSemaphore)
      let (req, heap) ← kmalloc heap (BitVec.ofNat 16 sizeofVfsAsyncReq)
      let heap ← kfree heap req
      let heap ← kfree heap lock
      let files ← storeFile files fd
        { file with offset := answers.offset, driverData := answers.driverData }
      if answers.asyncRequest.toInt < 0 then
        .ok ({ k with heap := heap }, files, answers.asyncRequest)
      else
        .ok ({ k with heap := heap, phys := answers.phys }, files, answers.res)

def vfsFioCtl (k : KernelState) (files : FdTable) (fd : Word) (answers : Answers) :
    Except Stop (FdTable × Word) := do
  let file ← derefFile files fd
  if file.inode = none then
    .ok (files, -ebadfd)
  else
    let reg ← fileReg k file
    if reg.fioCtl = false then
      .ok (files, -enosup)
    else
      let files ← storeFile files fd { file with driverData := answers.driverData }
      .ok (files, answers.fioCtl)

end PiOS.Kernel
