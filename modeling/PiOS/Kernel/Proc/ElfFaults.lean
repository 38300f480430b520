import PiOS.Kernel.Proc.Elf

namespace PiOS.Kernel

abbrev ErrorCode := { code : Word // code.toInt < 0 }

abbrev ReadFaults := Nat → Option ErrorCode

structure FaultyLoad where
  shared : LoadShared Unit
  reads : Nat
  placed : List (Nat × Nat)

def placements (offset address count : Nat) : List (Nat × Nat) :=
  (List.range count).map fun j => (offset + j, address + j)

def FaultyLoad.stores (s : FaultyLoad) (vaddr start : Word) (bytes : List Byte) : List (Nat × Nat) :=
  placements ((s.shared.call ()).offset.toNat - bytes.length) (virtPagePart vaddr * pageSize + start.toNat) bytes.length

/-- A read that fails leaves the file and the buffer as they are. More than `load_buff` holds cannot be fetched
from it: such a copy goes over memory of the kernel. -/
def serveFaulty (faults : ReadFaults) (s : FaultyLoad) : (o : LoadOp) → Option (o.Answer × FaultyLoad)
  | .vfsReadBlocking b size =>
    match faults s.reads with
    | some error => some (error.val, { s with reads := s.reads + 1 })
    | none => (serveLoad s.shared () (.vfsReadBlocking b size)).map fun out =>
      (out.1, { s with shared := out.2, reads := s.reads + 1 })
  | .fetch b count =>
    if b = .loadBuff ∧ loadBuffSize.toNat < count then none
    else some (s.shared.buffers.first b count, s)
  | .store vaddr prog start bytes => (serveLoad s.shared () (.store vaddr prog start bytes)).map fun out =>
    (out.1, { s with shared := out.2, placed := s.placed ++ s.stores vaddr start bytes })
  | o => (serveLoad s.shared () o).map fun out => (out.1, { s with shared := out.2 })

def faultyStart (k : KernelState) (buffers : Buffers) (file : List Byte) (stale : Proc) : FaultyLoad :=
  ⟨⟨k, buffers, fun _ => ⟨file, 0, stale, none, buffers⟩⟩, 0, []⟩

end PiOS.Kernel
