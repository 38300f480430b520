import PiOS.Kernel.Driver.Drivers

namespace PiOS.Kernel
open Function

abbrev CString := List Char

def strcnt (str : CString) (pat : Char) : Nat := str.count pat

def strncmpSame (lhs rhs : CString) (count : Nat) : Bool := lhs.take count = rhs.take count

def strchr (str : CString) (ch : Char) : Option Nat := str.findIdx? (· = ch)

structure Mount where
  reg : Driver
  absMountPath : CString

/-- `vfs_mount` of a driver on an entry of the root filesystem; `vfs_abs_path_alloc` puts the path of the
root in front. -/
def vfsMountEntry (mounts : List Mount) (reg : Driver) (pathPrefix name : String) : List Mount :=
  mounts ++ [⟨reg, '/' :: (pathPrefix.toList ++ name.toList)⟩]

def rootfsCreate (mounts : List Mount) : List Mount :=
  let mounts := vfsMountEntry mounts .tmp "" "tmp/"
  let mounts := vfsMountEntry mounts .tty "dev/" "tty"
  let mounts := vfsMountEntry mounts .sio "dev/" "log"
  let mounts := vfsMountEntry mounts .kbd "dev/" "kbd"
  let mounts := vfsMountEntry mounts .serial1 "dev/" "ttyS0"
  let mounts := vfsMountEntry mounts .serial2 "dev/" "ttyS1"
  vfsMountEntry mounts .i2c "dev/" "i2c"

def mountList : List Mount := vfsMountEntry (rootfsCreate [⟨.rootfs, ['/']⟩]) .tar "" "sd/"

def segmentEnd (mountPath path : CString) : Nat :=
  match strchr (path.drop (mountPath.length - 1)) '/' with
  | some n => mountPath.length - 1 + n
  | none => path.length

def vnodeForTurn (path : CString) (best : Option Nat × Nat) (itv : Mount × Nat) : Option Nat × Nat :=
  let mountPath := itv.1.absMountPath
  if strcnt mountPath '/' > best.2 ∧ strncmpSame mountPath path mountPath.length ∧
      strncmpSame mountPath path (segmentEnd mountPath path) then
    (some itv.2, strcnt mountPath '/')
  else
    best

def vfsVnodeFor (path : CString) : Option Nat := (mountList.zipIdx.foldl (vnodeForTurn path) (none, 0)).1

def vnodeReg (vnode : Nat) : Option Driver := mountList[vnode]?.map Mount.reg

def deviceInodes : Nat := 5

/-- The `root_inode` in the file of a driver. `serial.c` has one for both lines. -/
def Driver.rootInode : Driver → Option Nat
  | .tty => some 0
  | .sio => some 1
  | .kbd => some 2
  | .serial1 | .serial2 => some 3
  | .i2c => some 4
  | .rootfs | .tmp | .tar => none

def Driver.vnodeData : Driver → Bool
  | .serial2 => true
  | _ => false

structure DeviceState (ι : Type) where
  files : ι → FdTable
  inodeVnode : Nat → Option Nat
  drivers : DriverState

namespace DeviceState

variable {ι : Type} [DecidableEq ι] (s : DeviceState ι)

/-- `vfs_find_inode`. The `find_inode` of a device takes its only inode, that of a filesystem the inode `found`,
if it has one; all of them set `inode->vnode`. -/
def vfsFindInode (path : CString) (found : Option Nat) : Option Nat × DeviceState ι :=
  match vfsVnodeFor path with
  | none => (none, s)
  | some vnode =>
    match ((vnodeReg vnode).bind Driver.rootInode).or (found.map (deviceInodes + ·)) with
    | none => (none, s)
    | some inode => (some inode, { s with inodeVnode := update s.inodeVnode inode (some vnode) })

def sysOpen (i : ι) (path : CString) (found : Option Nat) : DeviceState ι :=
  match procFreeFd (s.files i) with
  | none => s
  | some fd =>
    let (inode, s) := s.vfsFindInode path found
    { s with files := update s.files i (vfsOpen (s.files i) fd inode).2 }

def sysClose (i : ι) (fd : Word) : Except Stop (DeviceState ι) :=
  if validateFd fd = false then
    .ok s
  else
    (vfsClose (s.files i) fd).map fun out => { s with files := update s.files i out.2 }

def fileDriver (i : ι) (fd : Word) : Except Stop Driver := do
  let file ← derefFile (s.files i) fd
  match (file.inode.bind s.inodeVnode).bind vnodeReg with
  | none => .error .nullDereference
  | some driver => .ok driver

end DeviceState

def Driver.submit (driver : Driver) (drivers : DriverState) (req : AsyncReq) : Except Stop DriverState :=
  match driver.asyncRequest with
  | none => .ok drivers
  | some request => (request drivers { req with vnodeData := driver.vnodeData }).map Prod.snd

def DeviceState.sysWrite {ι : Type} (s : DeviceState ι) (i : ι) (fd : Word) (req : AsyncReq) :
    Except Stop (DeviceState ι) :=
  if validateFd fd = false then
    .ok s
  else do
    let driver ← s.fileDriver i fd
    let drivers ← driver.submit s.drivers { req with type := vfsAsyncTypeWrite }
    .ok { s with drivers := drivers }

inductive DeviceAction (ι : Type)
  | «open» (i : ι) (path : CString) (found : Option Nat)
  | close (i : ι) (fd : Word)
  | write (i : ι) (fd : Word) (req : AsyncReq)

def deviceStep {ι : Type} [DecidableEq ι] (s : DeviceState ι) : DeviceAction ι → Option (DeviceState ι)
  | .open i path found => some (s.sysOpen i path found)
  | .close i fd => (s.sysClose i fd).toOption
  | .write i fd req => (s.sysWrite i fd req).toOption

def deviceStart (ι : Type) (drivers : DriverState) : DeviceState ι :=
  ⟨fun _ _ => ⟨none, 0, 0, none⟩, fun _ => none, drivers⟩

end PiOS.Kernel
