import PiOS.Kernel.Fs.FileSystem

namespace PiOS.Kernel

def strcpyAt (str : CString) (offset : Nat) (src : CString) : CString := str.take offset ++ src

def fullPath (pathPrefix name : CString) : CString := strcpyAt (strcpyAt [] 0 pathPrefix) pathPrefix.length name

structure RootInode where
  name : CString
  fid : Word
  size : Word
  type : Word

structure Rootfs where
  fs : FileSystem
  ffid : Word
  inode : Nat → RootInode
  getAbs : Driver → Nat → Option CString

structure CreateEntry where
  self : Nat
  pathPrefix : CString
  name : CString
  type : Word

def sizeofEnt : Nat := 2 * 2

namespace Rootfs

variable (s : Rootfs)

def init : Rootfs := { s with fs := { s.fs with inList := [] }, ffid := 0 }

def rootfsCreateEntry (c : CreateEntry) : Except Stop (Nat × Rootfs) := do
  let (_, heap) ← kmalloc s.fs.kernel.heap (BitVec.ofNat 16 sizeofEnt)
  let (inode, heap) ← kmalloc heap (BitVec.ofNat 16 sizeofInode)
  let (_, heap) ← kmalloc heap (BitVec.ofNat 16 (c.pathPrefix.length + c.name.length + 1))
  let entPath := fullPath c.pathPrefix c.name
  let (_, heap) ← kmalloc heap (BitVec.ofNat 16 sizeofListNode)
  .ok (inode, { s with
    fs := { s.fs.setHeap heap with inList := s.fs.inList ++ [(entPath, inode)] }.setVnode inode c.self
    ffid := s.ffid + 1
    inode := Function.update s.inode inode ⟨entPath.drop c.pathPrefix.length, s.ffid, 0, c.type⟩ })

def createEntries : Rootfs → List CreateEntry → Except Stop (List (CreateEntry × Nat) × Rootfs)
  | s, [] => .ok ([], s)
  | s, c :: calls => do
    let (inode, s) ← s.rootfsCreateEntry c
    let (entries, s) ← createEntries s calls
    .ok ((c, inode) :: entries, s)

def rootfsVfsFindInode (self : Nat) (path : CString) : Option Nat × Rootfs :=
  let (inode, fs) := s.fs.foundInode self ((s.fs.inList.find? fun ent => ent.1 = path).map Prod.snd)
  (inode, { s with fs := fs })

def rootfsVfsAbsolutePath (inode : Nat) : Option CString :=
  (s.fs.inList.find? fun ent => (s.inode ent.2).fid = (s.inode inode).fid).map Prod.fst

def vfsAbsPathAlloc (inode : Nat) : Except Stop CString :=
  match (s.fs.kernel.inodes inode).vnode with
  | none => .ok (s.inode inode).name
  | some vnode =>
    match s.fs.mounts[vnode]? with
    | none => .error .nullDereference
    | some mount =>
      match if mount.reg = .rootfs then s.rootfsVfsAbsolutePath inode else s.getAbs mount.reg inode with
      | none => .error .nullDereference
      | some pathInsideVnode => .ok (fullPath mount.absMountPath pathInsideVnode)

end Rootfs

end PiOS.Kernel
