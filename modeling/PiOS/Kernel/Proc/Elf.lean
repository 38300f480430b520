import PiOS.Kernel.Libk.Math
import PiOS.Kernel.Proc.Sched
import PiOS.Kernel.Proc.Virtual
import PiOS.Transition.Script

namespace PiOS.Kernel
open Transition Function

def KernelState.takePage (k : KernelState) (i : Nat) (entry : Fin 16) : KernelState :=
  { k.modifyProc i fun p => { p with
      procState := { p.procState with
        memPages := update p.procState.memPages entry k.pages.firstFreePage } } with
    pages := { k.pages with firstFreePage := k.pages.firstFreePage + 1 } }

def KernelState.takeProgPage (k : KernelState) (i : Nat) (entry : Fin 16) : KernelState :=
  { k.modifyProc i fun p => { p with
      procState := { p.procState with
        progPages := update p.procState.progPages entry k.pages.firstFreeProgPage } } with
    pages := { k.pages with firstFreeProgPage := k.pages.firstFreeProgPage + 1 } }

def progEntry (vaddr : Word) : Fin 16 := ⟨virtPagePart vaddr / 2, by omega⟩

/-- `phys_page_to_load` for the process `p` at position `i`. Program memory is returned as the page
of data memory through which it is written. -/
def physPageToLoad (k : KernelState) (i : Nat) (p : Proc) (vaddr : Word) (prog : Bool) :
    Word × KernelState :=
  let virtPage := virtPagePart vaddr
  if prog then
    let entry := progEntry vaddr
    let half : Word := BitVec.ofNat 16 (virtPage % 2)
    if p.procState.progPages entry = unmappedPage then
      (((k.pages.firstFreeProgPage <<< 1) ||| half) + (0x800 <<< 1), k.takeProgPage i entry)
    else
      (((p.procState.progPages entry <<< 1) ||| half) + (0x800 <<< 1), k)
  else
    if p.procState.memPages virtPage = unmappedPage then
      (k.pages.firstFreePage, k.takePage i virtPage)
    else
      (p.procState.memPages virtPage, k)

inductive Buffer
  | buff | phBuff | loadBuff
  deriving DecidableEq

/-- What `elf_load` does beside computing: calls of the VFS and the scheduler, looks at the first bytes of a
buffer, and stores. A page is named by the address it is loaded for. -/
inductive LoadOp
  | vfsReadBlocking (buffer : Buffer) (size : Word)
  | fetch (buffer : Buffer) (count : Nat)
  | vfsSeekCur
  | vfsSeekSet (offset : Word)
  | schedInitUserThread
  | setPc (pc : Word)
  | physPageToLoad (vaddr : Word) (prog : Bool)
  | store (vaddr : Word) (prog : Bool) (start : Word) (bytes : List Byte)
  | setLoadBrk (loadBrk : Word)

def LoadOp.Answer : LoadOp → Type
  | .vfsReadBlocking _ _ | .vfsSeekCur => Word
  | .fetch _ _ => List Byte
  | _ => Unit

inductive LoadEnd
  | proc
  | null
  | stop (reason : Stop)
  deriving DecidableEq

abbrev Load := Script LoadOp.Answer LoadEnd

namespace Load

def vfsReadBlocking (buffer : Buffer) (size : Word) (next : Word → Load) : Load :=
  .op (.vfsReadBlocking buffer size) next

def fetch (buffer : Buffer) (count : Nat) (next : List Byte → Load) : Load :=
  .op (.fetch buffer count) next

def vfsSeekCur (next : Word → Load) : Load := .op .vfsSeekCur next

def vfsSeekSet (offset : Word) (next : Load) : Load := .op (.vfsSeekSet offset) fun _ => next

def schedInitUserThread (next : Load) : Load := .op .schedInitUserThread fun _ => next

def setPc (pc : Word) (next : Load) : Load := .op (.setPc pc) fun _ => next

def physPageToLoad (vaddr : Word) (prog : Bool) (next : Load) : Load :=
  .op (.physPageToLoad vaddr prog) fun _ => next

def store (vaddr : Word) (prog : Bool) (start : Word) (bytes : List Byte) (next : Load) : Load :=
  .op (.store vaddr prog start bytes) fun _ => next

def setLoadBrk (loadBrk : Word) (next : Load) : Load := .op (.setLoadBrk loadBrk) fun _ => next

def assert (condition : Bool) (text : String) (next : Load) : Load :=
  if condition then next else .done (.stop (.assertion text))

end Load

def elfHeaderSize : Word := 56
def ehOffType : Nat := 16
def ehOffMachine : Nat := 18
def ehOffEntry : Nat := 24
def ehOffPhoff : Nat := 28
def ehOffPhnum : Nat := 44
def phSize : Word := 32
def phOffType : Nat := 0
def phOffOffset : Nat := 4
def phOffVaddr : Nat := 8
def phOffFilesz : Nat := 16
def phOffMemsz : Nat := 20
def phOffFlags : Nat := 24
def loadBuffSize : Word := 0x100
def pageBytes : Word := 0x1000

def getU8 (buff : List Byte) (off : Nat) : Byte := buff.getD off 0

def getU16 (buff : List Byte) (off : Nat) : Word :=
  ((getU8 buff (off + 1)).setWidth 16 <<< 8) ||| (getU8 buff off).setWidth 16

def loadIntoUserspace (vaddr : Word) (prog : Bool) (size offset : Word) (next : Load) : Load :=
  .assert (offset + size ≤ pageBytes) "offset+size <= PAGE_SIZE" <|
  .assert (!prog || size &&& 3 = 0) "!(size&0b11)" <|
  .fetch .loadBuff size.toNat fun data =>
  .store vaddr prog offset data next

/-- The loop of `load_to_page`. Each turn reads at least a byte into a page, so `PAGE_SIZE` turns are
enough. -/
def loadToPageLoop (endAddr vaddr : Word) (prog : Bool) (next : Load) : Nat → Word → Load
  | 0, _ => next
  | fuel + 1, mAddr =>
    if mAddr ≤ endAddr then
      .vfsReadBlocking .loadBuff (wordMin loadBuffSize (endAddr - mAddr + 1)) fun read =>
      .assert (read ≠ 0) "read" <|
      loadIntoUserspace vaddr prog read mAddr <|
      loadToPageLoop endAddr vaddr prog next fuel (mAddr + read)
    else
      next

def loadToPage (off endAddr vaddr : Word) (prog : Bool) (next : Load) : Load :=
  .physPageToLoad vaddr prog <|
  .assert (endAddr < pageBytes) "end_addr < PAGE_SIZE" <|
  loadToPageLoop endAddr vaddr prog next pageSize off

def zeroPage (off len vaddr : Word) (next : Load) : Load :=
  .physPageToLoad vaddr false <|
  .assert (off + len ≤ pageBytes) "off+len <= PAGE_SIZE" <|
  .store vaddr false off (if len = 0 then [] else List.replicate (len.toNat + 1) 0) next

def loadFullPages (prog : Bool) (next : Word → Load) : Nat → Word → Load
  | 0, vaddr => next vaddr
  | count + 1, vaddr =>
    loadToPage 0 (pageBytes - 1) vaddr prog <| loadFullPages prog next count (vaddr + pageBytes)

def loadBss (bssEnd : Word) (next : Load) : Nat → Word → Load
  | 0, _ => next
  | fuel + 1, vaddr =>
    if vaddr < bssEnd then
      let size := wordMin (pageBytes - vaddr % pageBytes) (bssEnd - vaddr)
      zeroPage (vaddr % pageBytes) size vaddr <| loadBss bssEnd next fuel (vaddr + size)
    else
      next

def loadFilePart (prog : Bool) (memSize vaddr : Word) (next : Word → Load) : Load :=
  let endAddr := vaddr + memSize - 1
  let pages := ((memSize + pageBytes - 1) / pageBytes).toNat
  if memSize = 0 then
    next vaddr
  else
    loadToPage (vaddr % pageBytes) (wordMin (pageBytes - 1) (endAddr - vaddr)) vaddr prog <|
    .fetch .phBuff phSize.toNat fun ph =>
    loadFullPages prog (fun vaddr =>
      if pages > 1 then
        loadToPage 0 (endAddr % pageBytes) vaddr prog <| next (vaddr + endAddr % pageBytes + 1)
      else
        next vaddr)
      (pages - 2) (vaddr + wordMin (pageBytes - getU16 ph phOffVaddr % pageBytes) (endAddr + 1))

def loadSegment (ph : List Byte) (loadBrk : Word) (next : Word → Load) : Load :=
  let prog := getU16 ph phOffFlags &&& 1 ≠ 0
  let memSize := getU16 ph phOffFilesz
  let zeroMemSize := getU16 ph phOffMemsz
  let memStart := getU16 ph phOffVaddr
  let loadBrk := if !prog ∧ zeroMemSize ≠ 0 then wordMax loadBrk (memStart + zeroMemSize) else loadBrk
  .vfsSeekSet (getU16 ph phOffOffset) <|
  loadFilePart prog memSize memStart fun vaddr =>
  if !prog ∧ memSize < zeroMemSize then
    loadBss (memStart + zeroMemSize) (next loadBrk) 17 vaddr
  else
    next loadBrk

/-- The loop of `load_ph`. Its counter stays below a `u16`, so `2 ^ 16` turns are enough. -/
def loadPh : Nat → Word → Word → Load
  | 0, _, loadBrk => .setLoadBrk loadBrk <| .done .proc
  | fuel + 1, i, loadBrk =>
    .fetch .buff elfHeaderSize.toNat fun buff =>
    if i < getU16 buff ehOffPhnum then
      .vfsReadBlocking .phBuff phSize fun _ =>
      .vfsSeekCur fun nextPh =>
      .fetch .phBuff phSize.toNat fun ph =>
      if getU16 ph phOffType = 1 then
        loadSegment ph loadBrk fun loadBrk => .vfsSeekSet nextPh <| loadPh fuel (i + 1) loadBrk
      else
        .vfsSeekSet nextPh <| loadPh fuel (i + 1) loadBrk
    else
      .setLoadBrk loadBrk <| .done .proc

def elfHeaderValid (buff : List Byte) : Bool :=
  getU8 buff 0 = 0x7f && getU8 buff 1 = 0x45 && getU8 buff 2 = 0x4c && getU8 buff 3 = 0x46 &&
  getU8 buff 4 = 1 && getU8 buff 5 = 1 && getU8 buff 6 = 1 &&
  getU16 buff ehOffType = 2 && getU16 buff ehOffMachine = 0x888

def elfLoad : Load :=
  .vfsReadBlocking .buff elfHeaderSize fun read =>
  if read ≠ elfHeaderSize then
    .done .null
  else
    .fetch .buff elfHeaderSize.toNat fun buff =>
    if elfHeaderValid buff then
      .schedInitUserThread <|
      .setPc (getU16 buff ehOffEntry) <|
      .vfsSeekSet (getU16 buff ehOffPhoff) <|
      loadPh (2 ^ 16) 0 0
    else
      .done .null

abbrev Buffers := Buffer → Nat → Byte

def Buffers.fill (buffers : Buffers) (b : Buffer) (data : List Byte) : Buffers :=
  update buffers b fun n => data.getD n (buffers b n)

def Buffers.first (buffers : Buffers) (b : Buffer) (count : Nat) : List Byte :=
  (List.range count).map (buffers b)

structure LoadCall where
  file : List Byte
  offset : Word
  stale : Proc
  child : Option Nat
  own : Buffers

structure LoadShared (ι : Type) where
  kernel : KernelState
  buffers : Buffers
  call : ι → LoadCall

def readFile (file : List Byte) (offset size : Word) : List Byte :=
  (file.drop offset.toNat).take size.toNat

theorem half_lt (virtPage : Fin 16) : (virtPage : Nat) / 2 < 16 := by omega

def pageAt (p : Proc) (prog : Bool) (virtPage : Fin 16) : Word :=
  if prog then
    ((p.procState.progPages ⟨virtPage / 2, half_lt virtPage⟩ <<< 1) ||| BitVec.ofNat 16 (virtPage % 2)) + (0x800 <<< 1)
  else
    p.procState.memPages virtPage

section Serve

variable {ι : Type} [DecidableEq ι]

def LoadShared.setCall (s : LoadShared ι) (i : ι) (call : LoadCall) : LoadShared ι :=
  { s with call := update s.call i call }

def LoadShared.childOf (s : LoadShared ι) (i : ι) : Option (Nat × Proc) :=
  (s.call i).child.bind fun c => s.kernel.procs[c]?.map fun p => (c, p)

def serveLoad (s : LoadShared ι) (i : ι) : (o : LoadOp) → Option (o.Answer × LoadShared ι)
  | .vfsReadBlocking b size =>
    let call := s.call i
    let data := readFile call.file call.offset size
    some (BitVec.ofNat 16 data.length,
      { s.setCall i { call with
          offset := call.offset + BitVec.ofNat 16 data.length, own := call.own.fill b data } with
        buffers := s.buffers.fill b data })
  | .fetch b count => some (s.buffers.first b count, s)
  | .vfsSeekCur => some ((s.call i).offset, s)
  | .vfsSeekSet offset =>
    some ((), if offset.toInt < 0 then s else s.setCall i { s.call i with offset := offset })
  | .schedInitUserThread =>
    (schedInitUserThread s.kernel (s.call i).stale).toOption.map fun k =>
      ((), { s.setCall i { s.call i with child := some s.kernel.procs.length } with kernel := k })
  | .setPc pc => (s.childOf i).map fun (c, _) =>
    ((), { s with kernel := s.kernel.modifyProc c fun p =>
      { p with procState := { p.procState with pc := pc } } })
  | .physPageToLoad vaddr prog => (s.childOf i).map fun (c, p) =>
    ((), { s with kernel := (physPageToLoad s.kernel c p vaddr prog).2 })
  | .store vaddr prog start bytes => (s.childOf i).map fun (_, p) =>
    ((), { s with kernel := { s.kernel with
      phys := writePage s.kernel.phys (pageAt p prog (virtPagePart vaddr)) start bytes } })
  | .setLoadBrk loadBrk => (s.childOf i).map fun (c, _) =>
    ((), { s with kernel := s.kernel.modifyProc c fun p => { p with loadBrk := loadBrk } })

abbrev LoadState (ι : Type) := Weave ι (LoadShared ι) LoadOp.Answer LoadEnd

def loadStep : LoadState ι → ι → Option (LoadState ι) := weaveStep serveLoad

end Serve

def noBytes : Buffers := fun _ _ => 0

def loadStart {ι : Type} (k : KernelState) (buffers : Buffers) (files : ι → List Byte)
    (stale : ι → Proc) : LoadState ι where
  shared := ⟨k, buffers, fun i => ⟨files i, 0, stale i, none, buffers⟩⟩
  script := fun _ => elfLoad

end PiOS.Kernel
