import PiOS.Kernel.Proc.Proc

namespace PiOS.Kernel

def pageSize : Nat := 0x1000

def virtPagePart (addr : Word) : Fin 16 :=
  ⟨(addr >>> 12).toNat, by
    have small := addr.isLt
    rw [BitVec.toNat_ushiftRight, Nat.shiftRight_eq_div_pow]
    omega⟩

def virtLocalPart (addr : Word) : Word := addr &&& 0x0fff

theorem virtPagePart_toNat (addr : Word) : (virtPagePart addr : Nat) = addr.toNat / 0x1000 := by
  simp [virtPagePart, Nat.shiftRight_eq_div_pow]

theorem virtLocalPart_toNat (addr : Word) : (virtLocalPart addr).toNat = addr.toNat % 0x1000 := by
  rw [virtLocalPart, BitVec.toNat_and]
  exact Nat.and_two_pow_sub_one_eq_mod addr.toNat 12

/-- `map_page_zero`: the page also goes into the saved table of the running process, unless an
interrupt is being served. -/
def KernelState.mapPageZero (k : KernelState) (page : Word) : KernelState :=
  match k.intNoProcModify, k.currentProc with
  | false, some i => k.modifyProc i fun p =>
    { p with procState := { p.procState with memPages := Function.update p.procState.memPages 0 page } }
  | _, _ => k

def KernelState.currentPageZero (k : KernelState) : Word :=
  match k.currentProc.bind fun i => k.procs[i]? with
  | some p => p.procState.memPages 0
  | none => illegalPage

structure UserChunk where
  page : Word
  start : Word
  length : Nat

/-- The turns of the loop in `memcpy_from_userspace` and `memcpy_to_userspace`; each one copies at
least a byte, so `size` turns are enough. -/
def userChunks (memPages : Fin 16 → Word) : Nat → Word → Word → List UserChunk
  | 0, _, _ => []
  | fuel + 1, ubuff, size =>
    if size = 0 then
      []
    else
      let toCopy := min size.toNat (pageSize - (virtLocalPart ubuff).toNat)
      ⟨memPages (virtPagePart ubuff), virtLocalPart ubuff, toCopy⟩ ::
        userChunks memPages fuel (ubuff + BitVec.ofNat 16 toCopy) (size - BitVec.ofNat 16 toCopy)

def readPage (phys : PhysMem) (page start : Word) (length : Nat) : List Byte :=
  (List.range length).map fun j => phys page (start + BitVec.ofNat 16 j)

def writePage (phys : PhysMem) (page start : Word) (bytes : List Byte) : PhysMem := fun q a =>
  if q = page ∧ start.toNat ≤ a.toNat then
    bytes.getD (a.toNat - start.toNat) (phys q a)
  else
    phys q a

def readUser (phys : PhysMem) (chunks : List UserChunk) : List Byte :=
  chunks.flatMap fun c => readPage phys c.page c.start c.length

def writeUser (phys : PhysMem) : List UserChunk → List Byte → PhysMem
  | [], _ => phys
  | c :: chunks, bytes =>
    writeUser (writePage phys c.page c.start (bytes.take c.length)) chunks (bytes.drop c.length)

-- both copies end with page zero as the last turn has left it in the saved table
def KernelState.afterChunks (k : KernelState) (chunks : List UserChunk) : KernelState :=
  let k := chunks.foldl (fun k c => k.mapPageZero c.page) k
  k.mapPageZero k.currentPageZero

def memcpyFromUserspace (k : KernelState) (proc : Proc) (ubuff size : Word) : KernelState × List Byte :=
  let chunks := userChunks proc.syscallState.memPages size.toNat ubuff size
  (k.afterChunks chunks, readUser k.phys chunks)

def memcpyToUserspace (k : KernelState) (proc : Proc) (ubuff : Word) (kbuff : List Byte) (size : Word) :
    KernelState :=
  let chunks := userChunks proc.syscallState.memPages size.toNat ubuff size
  { k.afterChunks chunks with phys := writeUser k.phys chunks kbuff }

end PiOS.Kernel
