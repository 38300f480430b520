import PiOS.Kernel.Libk.Math

namespace PiOS.Kernel

def sectorSize : Word := 512

abbrev Card := Nat → Nat → Byte

abbrev UserMemory := Word → Byte

def sdReceive (card : Card) (addr buffSize buffOffset : Word) (s : UserMemory × Word) (i : Nat) :
    UserMemory × Word :=
  if buffOffset ≤ BitVec.ofNat 16 i ∧ BitVec.ofNat 16 i < buffSize + buffOffset then
    (Function.update s.1 s.2 (card addr.toNat i), s.2 + 1)
  else
    s

-- the command to the card has 16 bits for the sector number
def sdReadBlock (card : Card) (mem : UserMemory) (vbuff addr buffSize buffOffset : Word) : UserMemory :=
  ((List.range 512).foldl (sdReceive card addr buffSize buffOffset) (mem, vbuff)).1

structure TarFile where
  fid : Word
  size : Word
  offset : Word
  deriving DecidableEq

structure TarCursor where
  mem : UserMemory
  vbuff : Word
  sector : Word
  newLen : Word

def TarCursor.sdReadAdapter (card : Card) (c : TarCursor) (len offset : Word) : UserMemory :=
  sdReadBlock card c.mem c.vbuff c.sector len offset

def tarReadSectors (card : Card) : Nat → Word → TarCursor → TarCursor
  | 0, _, c => c
  | fuel + 1, i, c =>
    if i < c.newLen / 512 then
      tarReadSectors card fuel (i + 1)
        { mem := c.sdReadAdapter card sectorSize 0
          vbuff := c.vbuff + sectorSize
          sector := c.sector + 1
          newLen := c.newLen - sectorSize }
    else
      c

def tarReadRest (card : Card) (c : TarCursor) : UserMemory :=
  if c.newLen = 0 then
    c.mem
  else
    let c := tarReadSectors card 128 0 c
    if c.newLen = 0 then c.mem else c.sdReadAdapter card c.newLen 0

def tarReadBlocking (card : Card) (mem : UserMemory) (file : TarFile) (vbuff len : Word) :
    Word × UserMemory × TarFile :=
  if file.size ≤ file.offset then
    (0, mem, file)
  else
    let len := if file.size < file.offset + len then file.size - file.offset else len
    let pos := file.offset % sectorSize
    let sector := file.fid + file.offset / sectorSize + 1
    let readlen := wordMin len (sectorSize - pos)
    let c : TarCursor := ⟨mem, vbuff, sector, len⟩
    let mem := tarReadRest card
      ⟨c.sdReadAdapter card readlen pos, vbuff + readlen, sector + 1, len - readlen⟩
    (len, mem, { file with offset := file.offset + len })

end PiOS.Kernel
