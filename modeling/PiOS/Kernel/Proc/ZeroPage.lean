import PiOS.Kernel.Proc.Elf

namespace PiOS.Kernel

def kernelTable (page : Word) : Fin 16 → Word := fun i => if i = 0 then page else 0x200 + BitVec.ofNat 16 i

def storeByte (memPages : Fin 16 → Word) (phys : PhysMem) (addr : Word) (b : Byte) : PhysMem := fun q a =>
  if q = memPages (virtPagePart addr) ∧ a = virtLocalPart addr then b else phys q a

def storeU16 (memPages : Fin 16 → Word) (phys : PhysMem) (addr : Word) (w : Word) : PhysMem :=
  storeByte memPages (storeByte memPages phys addr (w.setWidth 8)) (addr + 1) ((w >>> 8).setWidth 8)

def zeroPageLoop (memPages : Fin 16 → Word) : Nat → Word → PhysMem → PhysMem
  | 0, _, phys => phys
  | count + 1, off, phys => zeroPageLoop memPages count (off + 1) (storeU16 memPages phys off 0)

def zeroPageMem (phys : PhysMem) (off len page : Word) : Except Stop PhysMem :=
  if off + len ≤ pageBytes then
    .ok (zeroPageLoop (kernelTable page) len.toNat off phys)
  else
    .error (.assertion "off+len <= PAGE_SIZE")

end PiOS.Kernel
