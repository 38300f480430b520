import PiOS.Kernel.Fs.FileSystem

namespace PiOS.Kernel

namespace FileSystem

section Drivers

variable (s : FileSystem) (file : ProcFile) (type : Word) (vbuff : Nat) (size : Word)

abbrev Submitted := FileSystem × ProcFile × Word × Word

def tmpExtend (old : Option Nat) : Except Stop (Nat × HeapMemory) :=
  match old with
  | none => kmalloc s.kernel.heap size
  | some ptr => do
    let heap ← kfree s.kernel.heap ptr
    kmalloc heap size

def setTmpSize (inode : Nat) : FileSystem :=
  { s with tmpFiles := s.tmpFiles.map fun f => if f.inode = inode then { f with size := size } else f }

def tmpWriteFile (f : TmpFile) : Except Stop FileSystem :=
  let fid := f.fid.toNat
  let data := s.bytes.read vbuff size.toNat
  if size.toNat > f.size.toNat then do
    let (new, heap) ← s.tmpExtend size (s.allocFid fid)
    .ok { (s.setHeap heap).setTmpSize size f.inode with
      allocFid := Function.update s.allocFid fid (some new)
      bytes := s.bytes.write new data }
  else
    match s.allocFid fid with
    | none => .ok s
    | some ptr => .ok { s with bytes := s.bytes.write ptr data }

def tmpReadFile (f : TmpFile) : FileSystem × Word :=
  let count := min size.toNat f.size.toNat
  match s.allocFid f.fid.toNat with
  | none => (s, BitVec.ofNat 16 count)
  | some ptr => ({ s with bytes := s.bytes.write vbuff (s.bytes.read ptr count) }, BitVec.ofNat 16 count)

def tmpSubmit : Except Stop Submitted :=
  match file.inode.bind fun n => s.tmpFiles.find? fun f => f.inode = n with
  | none => .error .nullDereference
  | some f =>
    if type = vfsAsyncTypeRead then
      let (s, res) := s.tmpReadFile vbuff size f
      .ok (s, file, 0, res)
    else do
      let s ← s.tmpWriteFile vbuff size f
      .ok (s, file, 0, size)

end Drivers

section Calls

variable (s : FileSystem) (frame : LogFrame) (i : Nat) (p : Proc)

def userBlock (ubuff size : Word) : Except Stop (FileSystem × Nat) := do
  let (ptr, heap) ← kmalloc s.kernel.heap size
  let (k, copied) := memcpyFromUserspace s.kernel p ubuff size
  .ok ({ s with kernel := { k with heap := heap }, bytes := s.bytes.write ptr copied }, ptr)

def sysPrint : Except Stop FileSystem := do
  let (s, pb) ← s.userBlock p (p.syscallState.regs 1) (p.syscallState.regs 2 + 1)
  let s ← s.logFormat frame i p pb
  let heap ← kfree s.kernel.heap pb
  .ok (s.setHeap heap)

end Calls

end FileSystem

end PiOS.Kernel
