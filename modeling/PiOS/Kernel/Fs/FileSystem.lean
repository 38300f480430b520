import PiOS.Kernel.Fs.Mount
import PiOS.Kernel.Libk.Kprintf

namespace PiOS.Kernel

def byteChar (b : Byte) : Char := Char.ofNat b.toNat

def vfsVnodeForIn (mounts : List Mount) (path : CString) : Option Nat :=
  (mounts.zipIdx.foldl (vnodeForTurn path) (none, 0)).1

inductive DirNode
  | node (name : CString) (subdirs : List DirNode) (files : List (CString × Nat)) (inode : Option Nat)

namespace DirNode

def name : DirNode → CString
  | node name _ _ _ => name

def subdirs : DirNode → List DirNode
  | node _ subdirs _ _ => subdirs

def files : DirNode → List (CString × Nat)
  | node _ _ files _ => files

def inode : DirNode → Option Nat
  | node _ _ _ inode => inode

end DirNode

def getSlashPos : CString → Nat → Option Nat
  | [], _ => none
  | '/' :: _, 0 => some 0
  | '/' :: s, n + 1 => (getSlashPos s n).map (· + 1)
  | _ :: s, n => (getSlashPos s n).map (· + 1)

def dirTreeDescend (path : CString) : Nat → Nat → DirNode → Option DirNode
  | 0, _, node => some node
  | fuel + 1, dirDepth, node =>
    match getSlashPos path dirDepth with
    | none | some 0 => some node
    | some (index + 1) =>
      match node.subdirs.find? fun val => strncmpSame val.name path (index + 2) with
      | none => none
      | some val => dirTreeDescend path fuel (dirDepth + 1) val

/-- `dir_tree_get_file` for the end `path` of the string `whole`: of an empty path the last character is
looked for before it. -/
def dirTreeGetFile (node : DirNode) (whole path : CString) : Option Nat :=
  match dirTreeDescend path (path.length + 1) 0 node with
  | none => none
  | some node =>
    if whole.getLast? = some '/' ∧ node.name = path then
      node.inode
    else
      (node.files.find? fun file => file.1 = path).map Prod.snd

def maxFiles : Nat := 64
def sizeofInode : Nat := 2 * 5

structure TmpFile where
  node : Nat
  inode : Nat
  nameBlock : Nat
  name : CString
  fid : Word
  size : Word

abbrev CText := { text : List Byte // 0 ∉ text }

def logTargetTty : Word := 1
def logTargetSerial : Word := 2

structure LogFrame where
  logBuff : Nat
  args : Nat

/-- The kernel with its filesystems: the contents of memory, the mounts, the root filesystem, `tmp.c`, the
archive, and the log. -/
structure FileSystem where
  kernel : KernelState
  bytes : HeapBytes
  mounts : List Mount
  rooted : ∀ v ∈ mounts, v.absMountPath.head? = some '/'
  inList : List (CString × Nat)
  tmpFiles : List TmpFile
  tmpFid : Word
  allocFid : Nat → Option Nat
  tarDirTree : DirNode
  procName : Nat → CText
  logTargetMask : Word
  ttyOut : List Byte
  serialOut : List Byte

def bootFileSystem (phys : PhysMem) : FileSystem where
  kernel := bootKernel phys
  bytes := fun _ => 0
  mounts := []
  rooted := fun _ member => (List.not_mem_nil member).elim
  inList := []
  tmpFiles := []
  tmpFid := 0
  allocFid := fun _ => none
  tarDirTree := .node [] [] [] none
  procName := fun _ => ⟨[], List.not_mem_nil⟩
  logTargetMask := logTargetSerial
  ttyOut := []
  serialOut := []

namespace FileSystem

variable (s : FileSystem)

def setHeap (heap : HeapMemory) : FileSystem := { s with kernel := { s.kernel with heap := heap } }

def setVnode (inode vnode : Nat) : FileSystem :=
  { s with kernel := { s.kernel with inodes := Function.update s.kernel.inodes inode ⟨some vnode⟩ } }

def tmpCreate (path : CString) : Except Stop (Nat × FileSystem) := do
  let (res, heap) ← kmalloc s.kernel.heap (BitVec.ofNat 16 sizeofInode)
  let (name, heap) ← kmalloc heap (BitVec.ofNat 16 (path.length + 1))
  let (node, heap) ← kmalloc heap (BitVec.ofNat 16 sizeofListNode)
  .ok (res, { s.setHeap heap with
    tmpFid := s.tmpFid + 1
    allocFid := Function.update s.allocFid s.tmpFid.toNat none
    tmpFiles := s.tmpFiles ++ [⟨node, res, name, path, s.tmpFid, 0⟩] })

def tmpFindInode (self : Nat) (path : CString) : Except Stop (Option Nat × FileSystem) :=
  match s.tmpFiles.find? fun file => file.name = path with
  | some file => .ok (some file.inode, s.setVnode file.inode self)
  | none =>
    if s.tmpFid.toNat ≥ maxFiles then
      .ok (none, s)
    else do
      let (res, s) ← s.tmpCreate path
      .ok (some res, s.setVnode res self)

def foundInode (self : Nat) : Option Nat → Option Nat × FileSystem
  | none => (none, s)
  | some inode => (some inode, s.setVnode inode self)

def findInode (path : CString) : Except Stop (Option Nat × FileSystem) :=
  match vfsVnodeForIn s.mounts path with
  | none => .ok (none, s)
  | some vnode =>
    match s.mounts[vnode]? with
    | none => .error .nullDereference
    | some mount =>
      let vnodeLocalPath := path.drop mount.absMountPath.length
      match mount.reg with
      | .rootfs => .ok (s.foundInode vnode ((s.inList.find? fun ent => ent.1 = vnodeLocalPath).map Prod.snd))
      | .tmp => s.tmpFindInode vnode vnodeLocalPath
      | .tar => .ok (s.foundInode vnode (dirTreeGetFile s.tarDirTree path vnodeLocalPath))
      | driver => .ok (s.foundInode vnode driver.rootInode)

/-- What `sprintf` makes of `"%d: %s[%s(%d)%s%s]: "` without a level and the name of a function. -/
def logPrefix (i : Nat) (p : Proc) : List Byte :=
  formatInt (s.kernel.sysTicks.setWidth 16) ++ [ascii ':', ascii ' ', ascii '['] ++ (s.procName i).val ++
    [ascii '('] ++ formatInt p.pid ++ [ascii ')', ascii ']', ascii ':', ascii ' ']

def ttySubmitBuff : Nat := 128

def ttyDirectWrite (text : List Byte) : Except Stop FileSystem := do
  let (lock, heap) ← kmalloc s.kernel.heap (BitVec.ofNat 16 sizeofSemaphore)
  let (req, heap) ← kmalloc heap (BitVec.ofNat 16 sizeofVfsAsyncReq)
  let (heapBuff, heap) ← kmalloc heap (BitVec.ofNat 16 text.length)
  let (node, heap) ← kmalloc heap (BitVec.ofNat 16 sizeofListNode)
  let heap ← kfree heap node
  let heap ← kfree heap req
  let heap ← kfree heap lock
  let heap ← kfree heap heapBuff
  .ok { s.setHeap heap with ttyOut := s.ttyOut ++ text.take ttySubmitBuff }

def logToTty (text : List Byte) : Except Stop FileSystem :=
  if s.logTargetMask &&& logTargetTty ≠ 0 then s.ttyDirectWrite text else .ok s

def logToSerial (text : List Byte) : FileSystem :=
  if s.logTargetMask &&& logTargetSerial ≠ 0 then
    { s with kernel := s.kernel.log, serialOut := s.serialOut ++ text }
  else
    s

def internalLog (frame : LogFrame) (i : Nat) (p : Proc) (message : Nat → Printer → Except Stop Printer) :
    Except Stop FileSystem := do
  let limit := frame.logBuff + logBuffSize
  let c ← Printer.put limit ⟨s.bytes, frame.logBuff, 0, frame.args⟩ (s.logPrefix i p) [0]
  let c ← message limit c
  let c ← c.put limit [] [ascii '\n', 0]
  let s ← s.logToTty (c.bytes.read frame.logBuff (c.buff - frame.logBuff + 1))
  .ok (s.logToSerial (cBytes c.bytes frame.logBuff))

def logFormat (frame : LogFrame) (i : Nat) (p : Proc) (str : Nat) : Except Stop FileSystem :=
  s.internalLog frame i p fun limit c => Printer.vsprintf limit { c with str := str }

end FileSystem

end PiOS.Kernel
