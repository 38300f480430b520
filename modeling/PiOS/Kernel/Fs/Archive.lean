import PiOS.Kernel.Fs.DirTree
import PiOS.Kernel.Fs.Tar

namespace PiOS.Kernel

def tarSizeOffset : Nat := 124
def tarTypeOffset : Nat := 156
def tarUstarOffset : Nat := 257
def sizeofTarT : Word := 500

inductive InodeType
  | file
  | directory
  deriving DecidableEq

structure TarInode where
  ptr : Nat
  fid : Word
  type : InodeType
  size : Word
  name : CString

abbrev SectorBuff := UserMemory

def SectorBuff.read (buff : SectorBuff) (offset count : Nat) : List Byte :=
  (List.range count).map fun i => buff (BitVec.ofNat 16 (offset + i))

@[irreducible] def SectorBuff.sdReadAdapter (card : Card) (buff : SectorBuff) (sector : Word) : SectorBuff :=
  sdReadBlock card buff 0 sector sizeofTarT 0

def convertOctal (octal : List Byte) : Word :=
  octal.foldl (fun res c => res * 8 + (c.setWidth 16 - (ascii '0').setWidth 16)) 0

def sectorsSkip (size : Word) : Word := (size + sectorSize - 1) / sectorSize + 1

/-- The name in a header. It is not longer than `sector_buff`, whose last bytes are never written. -/
def SectorBuff.name (buff : SectorBuff) : List Byte := (buff.read 0 512).takeWhile (· ≠ 0)

def SectorBuff.isUstar (buff : SectorBuff) : Bool :=
  buff.read tarUstarOffset 5 = [ascii 'u', ascii 's', ascii 't', ascii 'a', ascii 'r']

def SectorBuff.type (buff : SectorBuff) : InodeType :=
  if buff (BitVec.ofNat 16 tarTypeOffset) = ascii '5' then .directory else .file

structure TarScan where
  emptySectors : Nat
  sector : Word
  sectorBuff : SectorBuff
  heap : HeapMemory
  tarDirTree : DirNode
  passed : List TarInode

def tarTurn (card : Card) (bytes : HeapBytes) (s : TarScan) : Except Stop TarScan :=
  let buff := s.sectorBuff.sdReadAdapter card s.sector
  if buff 0 = 0 then
    .ok { s with emptySectors := s.emptySectors + 1, sector := s.sector + 1, sectorBuff := buff }
  else if ! buff.isUstar then
    .error (.panic "tarFS: invalid header")
  else do
    let size := convertOctal (buff.read tarSizeOffset 11)
    let (inode, heap) ← kmalloc s.heap (BitVec.ofNat 16 sizeofInode)
    let (_, heap) ← kmalloc heap (BitVec.ofNat 16 buff.name.length)
    let node : TarInode := ⟨inode, s.sector, buff.type, size, buff.name.map byteChar⟩
    let (heap, tree) ← dirTreeAddPath bytes heap s.tarDirTree ⟨node.ptr, node.name⟩
    .ok ⟨s.emptySectors, s.sector + sectorsSkip size, buff, heap, tree, s.passed ++ [node]⟩

/-- `while (empty_sectors < 2)`; nothing is returned as long as `fuel` is too small. `bytes` has the contents
of the memory at every member. -/
def tarScan (card : Card) (bytes : Nat → HeapBytes) : Nat → TarScan → Option (Except Stop TarScan)
  | 0, _ => none
  | fuel + 1, s =>
    if s.emptySectors < 2 then
      match tarTurn card (bytes s.passed.length) s with
      | .error stop => some (.error stop)
      | .ok s => tarScan card bytes fuel s
    else
      some (.ok s)

def tarMakeDirTree (card : Card) (bytes : Nat → HeapBytes) (heap : HeapMemory) (fuel : Nat) :
    Option (Except Stop TarScan) :=
  match dirTreeInit heap with
  | .error stop => some (.error stop)
  | .ok (heap, root) => tarScan card bytes fuel ⟨0, 0, fun _ => 0, heap, root, []⟩

end PiOS.Kernel
