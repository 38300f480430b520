import Mathlib.Tactic.DeriveFintype
import PiOS.Blocks.Ledger
import PiOS.Kernel.Irq.Interrupt
import PiOS.Kernel.Proc.Elf
import PiOS.Proof.Heap
import PiOS.Transition.Outcome

namespace PiOS.Proof.Pages
open Kernel Blocks Transition Heap Function

structure PageState where
  kernel : KernelState
  blocks : List (Nat × Word)
  dataPages : List Word
  progPages : List Word

inductive PageOp
  | makeKernelThread (stale : Proc) (entry : Word)
  | schedInitUserThread (stale : Proc)
  | physPageToLoad (i : Nat) (vaddr : Word) (prog : Bool)
  | pgmap (i : Nat) (page : Word)
  | kmalloc (size : Word)
  | kfree (ptr : Nat)

def initPages (phys : PhysMem) : PageState := ⟨bootKernel phys, [], [], []⟩

def pagesBetween (before after : Word) : List Word :=
  (List.range (after - before).toNat).map fun j => before + BitVec.ofNat 16 j

def PageState.advance (s : PageState) (k : KernelState) : PageState :=
  { s with
    kernel := k
    dataPages := s.dataPages ++ pagesBetween s.kernel.pages.firstFreePage k.pages.firstFreePage
    progPages := s.progPages ++ pagesBetween s.kernel.pages.firstFreeProgPage k.pages.firstFreeProgPage }

def inPgmap (page : Word) (p : Proc) : Proc :=
  enterSyscall { p with procState := p.procState.setReg 1 page }

def backFromCall (p : Proc) : Proc := { p with procState := p.syscallState, state := .runnable }

def pgmapCall (k : KernelState) (i : Nat) (p : Proc) (page : Word) : Except Stop KernelState :=
  (processPgmap (k.modifyProc i (inPgmap page)) i (inPgmap page p)).map fun k =>
    k.modifyProc i backFromCall

-- a panic ends the run; no process is ever freed, other blocks are freed by who holds them
def pageStep (s : PageState) : PageOp → Option PageState
  | .makeKernelThread stale entry => (makeKernelThread s.kernel stale entry).toOption.map s.advance
  | .schedInitUserThread stale => (schedInitUserThread s.kernel stale).toOption.map s.advance
  | .physPageToLoad i vaddr prog =>
    s.kernel.procs[i]?.map fun p => s.advance (physPageToLoad s.kernel i p vaddr prog).2
  | .pgmap i page =>
    s.kernel.procs[i]?.bind fun p => (pgmapCall s.kernel i p page).toOption.map s.advance
  | .kmalloc size =>
    (kmalloc s.kernel.heap size).toOption.map fun (ptr, heap) =>
      { s.advance { s.kernel with heap := heap } with blocks := (ptr, size) :: s.blocks }
  | .kfree ptr =>
    if ptr ∈ s.blocks.map Prod.fst then
      (kfree s.kernel.heap ptr).toOption.map fun heap =>
        { s.advance { s.kernel with heap := heap } with
          blocks := s.blocks.filter fun b => b.1 ≠ ptr }
    else
      none

inductive DataEntry
  | mem (entry : Fin 16)
  | kernelStack
  deriving DecidableEq, Fintype

structure Holdings where
  mem : Fin 16 → Word
  prog : Fin 16 → Word
  kernelStack : Option Word

def holdings (p : Proc) : Holdings where
  mem := p.procState.memPages
  prog := p.procState.progPages
  kernelStack := if p.type = .kernel then none else some p.kernelStackPage

def Holdings.data (h : Holdings) : DataEntry → Option Word
  | .mem entry => some (h.mem entry)
  | .kernelStack => h.kernelStack

def PageState.table (s : PageState) : List Holdings := s.kernel.procs.map holdings

def dataHeld (table : List Holdings) (slot : Nat × DataEntry) : Option Word :=
  table[slot.1]?.bind fun h => h.data slot.2

def progHeld (table : List Holdings) (slot : Nat × Fin 16) : Option Word :=
  table[slot.1]?.map fun h => h.prog slot.2

structure PagesExclusive (s : PageState) : Prop where
  data : ∀ w ∈ s.dataPages, ∀ a b, dataHeld s.table a = some w → dataHeld s.table b = some w → a = b
  range : ∀ w ∈ s.dataPages, ¬ (0x200 ≤ w.toNat ∧ w.toNat ≤ 0x20f) ∧ w.toNat < 0x1000
  prog : ∀ w ∈ s.progPages, ∀ a b, progHeld s.table a = some w → progHeld s.table b = some w → a = b

def TakesProgPage (s : PageState) : PageOp → Prop
  | .physPageToLoad i vaddr true =>
    ∃ p, s.kernel.procs[i]? = some p ∧ p.procState.progPages (progEntry vaddr) = unmappedPage
  | _ => False

/-- No program page is taken while the counter is at the mark of an empty entry. -/
def ProgPageFree (s : PageState) (op : PageOp) : Prop :=
  TakesProgPage s op → s.kernel.pages.firstFreeProgPage ≠ unmappedPage

def threadHoldings (c : PageCounters) : Holdings where
  mem := fun i => if i = 15 then c.firstFreePage else if i = 0 then 0 else 0x200 + BitVec.ofNat 16 i
  prog := fun i => BitVec.ofNat 16 i
  kernelStack := none

def processHoldings (c : PageCounters) : Holdings where
  mem := fun i => if i = 15 then c.firstFreePage else unmappedPage
  prog := fun _ => unmappedPage
  kernelStack := some (c.firstFreePage + 1)

inductive Handed (loads : Prop) : List Holdings → PageCounters → List Holdings → PageCounters → Prop
  | nothing {table c} : Handed loads table c table c
  | thread {table c} : Handed loads table c (table ++ [threadHoldings c])
      { c with firstFreePage := c.firstFreePage + 1 }
  | process {table c} : Handed loads table c (table ++ [processHoldings c])
      { c with firstFreePage := c.firstFreePage + 1 + 1 }
  | page {table c i h entry} (here : table[i]? = some h)
      (unmapped : h.mem entry = 0 ∨ h.mem entry = unmappedPage) :
      Handed loads table c (table.set i { h with mem := update h.mem entry c.firstFreePage })
        { c with firstFreePage := c.firstFreePage + 1 }
  | progPage {table c i h entry} (load : loads) (here : table[i]? = some h)
      (unmapped : h.prog entry = unmappedPage) (low : entry ≠ 15) :
      Handed loads table c (table.set i { h with prog := update h.prog entry c.firstFreeProgPage })
        { c with firstFreeProgPage := c.firstFreeProgPage + 1 }

variable {c c' : PageCounters} {table table' : List Holdings} {w : Word}

theorem Handed.mono {loads more : Prop} (weaken : loads → more)
    (handed : Handed loads table c table' c') : Handed more table c table' c' := by
  cases handed with
  | nothing => exact .nothing
  | thread => exact .thread
  | process => exact .process
  | page here unmapped => exact .page here unmapped
  | progPage load here unmapped low => exact .progPage (weaken load) here unmapped low

def procBlock (p : Proc) : Nat × Word := (p.addr, BitVec.ofNat 16 sizeofProc)

def PageState.heapState (s : PageState) : HeapState :=
  ⟨s.kernel.heap, s.kernel.procs.map procBlock ++ s.blocks⟩

section Effects

variable {k : KernelState} {blocks : List (Nat × Word)}

theorem kmalloc_keeps {memory : HeapMemory} {live : List (Nat × Word)} (size : Word) (inv : HeapInv ⟨memory, live⟩) :
    Ensures (kmalloc memory size) (fun out => HeapInv ⟨out.2, (out.1, size) :: live⟩) fun _ => True := by
  cases action : kmalloc memory size with
  | error stop => exact Ensures.error trivial
  | ok out => exact Ensures.ok (inv.kmalloc action)

theorem heapInv_enlist {heap : HeapMemory} {node : Nat × Word} {p : Proc}
    (inv : HeapInv ⟨heap, node :: procBlock p :: (k.procs.map procBlock ++ blocks)⟩) :
    HeapInv ⟨heap, (k.procs ++ [p]).map procBlock ++ blocks⟩ := by
  refine inv.tail.perm ?_
  rw [List.map_append, List.append_assoc]
  exact List.perm_middle.symm

theorem makeKernelThread_handed (stale : Proc) (entry : Word)
    (inv : HeapInv ⟨k.heap, k.procs.map procBlock ++ blocks⟩) :
    Ensures (makeKernelThread k stale entry) (fun k' =>
      HeapInv ⟨k'.heap, k'.procs.map procBlock ++ blocks⟩ ∧
      Handed False (k.procs.map holdings) k.pages (k'.procs.map holdings) k'.pages) fun _ => True := by
  unfold makeKernelThread
  refine Ensures.bind (kmalloc_keeps _ inv) ?_
  rintro ⟨addr, heap⟩ allocated
  refine Ensures.bind (kmalloc_keeps _ allocated) ?_
  rintro ⟨node, heap⟩ listed
  refine Ensures.ok ⟨heapInv_enlist listed, ?_⟩
  rw [List.map_append]
  exact .thread

theorem schedInitUserThread_handed (stale : Proc)
    (inv : HeapInv ⟨k.heap, k.procs.map procBlock ++ blocks⟩) :
    Ensures (schedInitUserThread k stale) (fun k' =>
      HeapInv ⟨k'.heap, k'.procs.map procBlock ++ blocks⟩ ∧
      Handed False (k.procs.map holdings) k.pages (k'.procs.map holdings) k'.pages) fun _ => True := by
  unfold schedInitUserThread
  refine Ensures.bind (kmalloc_keeps _ inv) ?_
  rintro ⟨addr, heap⟩ allocated
  refine Ensures.bind (kmalloc_keeps _ allocated) ?_
  rintro ⟨node, heap⟩ listed
  refine Ensures.ok ⟨heapInv_enlist listed, ?_⟩
  rw [List.map_append]
  exact .process

structure Mapped (loads : Prop) (k k' : KernelState) : Prop where
  heap : k'.heap = k.heap
  blocks : k'.procs.map procBlock = k.procs.map procBlock
  handed : Handed loads (k.procs.map holdings) k.pages (k'.procs.map holdings) k'.pages

section

variable {loads : Prop} {k' : KernelState} {i : Nat} {p : Proc} {f : Proc → Proc}

theorem Mapped.refl (k : KernelState) : Mapped loads k k := ⟨rfl, rfl, .nothing⟩

theorem Mapped.same (procs : k'.procs = (k.modifyProc i f).procs) (heap : k'.heap = k.heap)
    (block : ∀ q, procBlock (f q) = procBlock q) (keeps : ∀ q, holdings (f q) = holdings q)
    (pages : k'.pages = k.pages) : Mapped loads k k' := by
  refine ⟨heap, procs ▸ map_modifyProc k i f block, ?_⟩
  rw [procs, map_modifyProc k i f keeps, pages]
  exact .nothing

theorem Mapped.page (here : k.procs[i]? = some p) (procs : k'.procs = (k.modifyProc i f).procs)
    (heap : k'.heap = k.heap) (block : ∀ q, procBlock (f q) = procBlock q) {entry : Fin 16}
    (unmapped : p.procState.memPages entry = 0 ∨ p.procState.memPages entry = unmappedPage)
    (row : holdings (f p) = { holdings p with
      mem := update p.procState.memPages entry k.pages.firstFreePage })
    (pages : k'.pages = { k.pages with firstFreePage := k.pages.firstFreePage + 1 }) : Mapped loads k k' := by
  have before : (k.procs.map holdings)[i]? = some (holdings p) := by simp [here]
  refine ⟨heap, procs ▸ map_modifyProc k i f block, ?_⟩
  rw [procs, map_modifyProc_set k i f here, row, pages]
  exact .page before unmapped

theorem progEntry_low (vaddr : Word) : progEntry vaddr ≠ 15 := by
  intro last
  have bound := (virtPagePart vaddr).isLt
  have value : (virtPagePart vaddr : Nat) / 2 = 15 := congrArg Fin.val last
  omega

theorem physPageToLoad_mapped (vaddr : Word) (prog : Bool) (here : k.procs[i]? = some p) :
    Mapped (prog = true ∧ p.procState.progPages (progEntry vaddr) = unmappedPage) k
      (physPageToLoad k i p vaddr prog).2 := by
  unfold physPageToLoad
  cases prog with
  | true =>
    simp only [if_true]
    split
    · rename_i unmapped
      have before : (k.procs.map holdings)[i]? = some (holdings p) := by simp [here]
      have after : (k.takeProgPage i (progEntry vaddr)).procs.map holdings = _ :=
        map_modifyProc_set k i _ here
      refine ⟨rfl, map_modifyProc k i _ fun _ => rfl, ?_⟩
      rw [after]
      exact .progPage ⟨trivial, unmapped⟩ before unmapped (progEntry_low vaddr)
    · exact .refl k
  | false =>
    simp only [Bool.false_eq_true, if_false]
    split
    · rename_i unmapped
      exact .page here rfl rfl (fun _ => rfl) (Or.inr unmapped) rfl rfl
    · exact .refl k

def answered (v : Word) (p : Proc) : Proc := { p with syscallState := p.syscallState.setReg 0 v }

def afterPgmap (entry : Fin 16) (page : Word) (p : Proc) : Proc :=
  { p with syscallState := { p.syscallState with
      memPages := update p.syscallState.memPages entry page }.setReg 0 0 }

theorem processPgmap_cases (k : KernelState) (i : Nat) (p : Proc) :
    (∃ v, processPgmap k i p = .ok (k.modifyProc i (answered v))) ∨
    ∃ entry, (p.syscallState.memPages entry = 0 ∨ p.syscallState.memPages entry = unmappedPage) ∧
      processPgmap k i p = .ok { k.modifyProc i (afterPgmap entry k.pages.firstFreePage) with
        pages := { k.pages with firstFreePage := k.pages.firstFreePage + 1 } } := by
  unfold processPgmap
  dsimp only
  split
  · rename_i inside
    split
    · exact Or.inl ⟨_, rfl⟩
    · rename_i unmapped
      refine Or.inr ⟨⟨(p.syscallState.regs 1).toInt.toNat, by omega⟩, ?_, ?_⟩
      · by_cases zero : p.syscallState.memPages ⟨(p.syscallState.regs 1).toInt.toNat, by omega⟩ = 0
        · exact Or.inl zero
        · exact Or.inr (by_contra fun other => unmapped ⟨other, zero⟩)
      · simp only [KernelState.setReg, KernelState.modifyProc, List.modify_modify_eq]
        rfl
  · exact Or.inl ⟨_, rfl⟩

theorem pgmapCall_mapped {page : Word} (here : k.procs[i]? = some p)
    (called : pgmapCall k i p page = .ok k') : Mapped False k k' := by
  unfold pgmapCall at called
  rcases processPgmap_cases (k.modifyProc i (inPgmap page)) i (inPgmap page p) with
    ⟨v, refused⟩ | ⟨entry, unmapped, filled⟩
  · rw [refused] at called
    obtain rfl := Except.ok.inj called
    have procs := congrArg KernelState.procs (modifyProc_modifyProc k i (inPgmap page)
      (backFromCall ∘ answered v))
    rw [← modifyProc_modifyProc] at procs
    exact .same procs rfl (fun _ => rfl) (fun _ => rfl) rfl
  · rw [filled] at called
    obtain rfl := Except.ok.inj called
    have procs := congrArg KernelState.procs (modifyProc_modifyProc k i (inPgmap page)
      (backFromCall ∘ afterPgmap entry k.pages.firstFreePage))
    rw [← modifyProc_modifyProc] at procs
    exact .page here procs rfl (fun _ => rfl) unmapped rfl rfl

end

end Effects

structure Effect (loads : Prop) (s s' : PageState) : Prop where
  heap : HeapInv s'.heapState
  handed : Handed loads s.table s.kernel.pages s'.table s'.kernel.pages
  dataPages : s'.dataPages = s.dataPages ++
    pagesBetween s.kernel.pages.firstFreePage s'.kernel.pages.firstFreePage
  progPages : s'.progPages = s.progPages ++
    pagesBetween s.kernel.pages.firstFreeProgPage s'.kernel.pages.firstFreeProgPage

variable {loads : Prop} {s s' : PageState} {op : PageOp}

theorem Mapped.effect {more : Prop} {k' : KernelState} (mapped : Mapped loads s.kernel k')
    (inv : HeapInv s.heapState) (weaken : loads → more) : Effect more s (s.advance k') := by
  refine ⟨?_, mapped.handed.mono weaken, rfl, rfl⟩
  have same : (s.advance k').heapState = s.heapState := by
    simp only [PageState.heapState, PageState.advance, mapped.heap, mapped.blocks]
  exact same ▸ inv

theorem pageStep_effect (inv : HeapInv s.heapState) (taken : pageStep s op = some s') :
    Effect (TakesProgPage s op) s s' := by
  cases op with
  | makeKernelThread stale entry =>
    obtain ⟨k, made, rfl⟩ := Option.map_eq_some_iff.mp taken
    obtain ⟨heap, handed⟩ :=
      (makeKernelThread_handed stale entry inv).returned (toOption_eq_some.mp made)
    exact ⟨heap, handed.mono False.elim, rfl, rfl⟩
  | schedInitUserThread stale =>
    obtain ⟨k, made, rfl⟩ := Option.map_eq_some_iff.mp taken
    obtain ⟨heap, handed⟩ :=
      (schedInitUserThread_handed stale inv).returned (toOption_eq_some.mp made)
    exact ⟨heap, handed.mono False.elim, rfl, rfl⟩
  | physPageToLoad i vaddr prog =>
    obtain ⟨p, here, rfl⟩ := Option.map_eq_some_iff.mp taken
    refine (physPageToLoad_mapped vaddr prog here).effect inv ?_
    rintro ⟨rfl, unmapped⟩
    exact ⟨p, here, unmapped⟩
  | pgmap i page =>
    obtain ⟨p, here, taken⟩ := Option.bind_eq_some_iff.mp taken
    obtain ⟨k, called, rfl⟩ := Option.map_eq_some_iff.mp taken
    exact (pgmapCall_mapped here (toOption_eq_some.mp called)).effect inv False.elim
  | kmalloc size =>
    obtain ⟨⟨ptr, heap⟩, allocated, rfl⟩ := Option.map_eq_some_iff.mp taken
    refine ⟨?_, .nothing, rfl, rfl⟩
    exact (inv.kmalloc (toOption_eq_some.mp allocated)).perm List.perm_middle.symm
  | kfree ptr =>
    simp only [pageStep] at taken
    split at taken
    · rename_i held
      obtain ⟨heap, freed, rfl⟩ := Option.map_eq_some_iff.mp taken
      refine ⟨?_, .nothing, rfl, rfl⟩
      have live : ptr ∈ (s.kernel.procs.map procBlock ++ s.blocks).map Prod.fst := by
        rw [List.map_append]
        exact List.mem_append_right _ held
      have rest := inv.kfree live (toOption_eq_some.mp freed)
      have apart : (s.kernel.procs.map procBlock).filter (fun b => b.1 ≠ ptr) =
          s.kernel.procs.map procBlock := by
        apply List.filter_eq_self.mpr
        intro b member
        have distinct := inv.distinct
        simp only [PageState.heapState, List.map_append] at distinct
        have other := (List.nodup_append.mp distinct).2.2 b.1 (List.mem_map_of_mem member) ptr held
        simpa using other
      rw [List.filter_append, apart] at rest
      exact rest
    · contradiction

def DataLedger (table : List Holdings) (c : PageCounters) : Prop :=
  Ledger (cell (fun h entry => (h.data entry).map BitVec.toNat) table) (fun _ => False) 0x211
    c.firstFreePage.toNat

def ProgLedger (table : List Holdings) (c : PageCounters) : Prop :=
  Ledger (cell (fun h entry => some (h.prog entry).toNat) table) (fun w => w = unmappedPage.toNat) 0x11
    c.firstFreeProgPage.toNat

theorem toNat_succ (small : w.toNat + 1 < 2 ^ 16) : (w + 1).toNat = w.toNat + 1 :=
  BitVec.toNat_add_of_lt small

section Ledgers

variable {table table' : List Holdings} {c c' : PageCounters}

theorem DataLedger.stack {h : Holdings} (ledger : DataLedger table c) (page : h.mem 15 = c.firstFreePage)
    (none : h.kernelStack = none) (old : ∀ entry, entry ≠ 15 → (h.mem entry).toNat < 0x211) :
    Ledger (cell (fun h entry => (h.data entry).map BitVec.toNat) (table ++ [h]))
      (fun _ => False) 0x211 (c.firstFreePage.toNat + 1) := by
  refine ledger.append_grant id (c := .mem 15) (by simp [Holdings.data, page]) ?_
  intro entry other w holds
  cases entry with
  | mem entry =>
    simp only [Holdings.data, Option.map_some, Option.some.injEq] at holds
    exact Or.inl (holds ▸ old entry fun same => other (same ▸ rfl))
  | kernelStack => simp [Holdings.data, none] at holds

theorem DataLedger.thread (ledger : DataLedger table c) :
    Ledger (cell (fun h entry => (h.data entry).map BitVec.toNat) (table ++ [threadHoldings c]))
      (fun _ => False) 0x211 (c.firstFreePage.toNat + 1) := by
  refine ledger.stack rfl rfl fun entry other => ?_
  simp only [threadHoldings, if_neg other]
  revert entry
  decide

theorem DataLedger.process (ledger : DataLedger table c) (small : c.firstFreePage.toNat + 2 < 2 ^ 16) :
    Ledger (cell (fun h entry => (h.data entry).map BitVec.toNat) (table ++ [processHoldings c]))
      (fun _ => False) 0x211 (c.firstFreePage.toNat + 2) := by
  -- the stack page first, then the kernel stack
  have stack := ledger.stack (h := { processHoldings c with kernelStack := none }) rfl rfl fun entry other => by
    simp [processHoldings, other, unmappedPage]
  have last : (table ++ [{ processHoldings c with kernelStack := none }])[table.length]? =
      some { processHoldings c with kernelStack := none } := by simp
  have whole : (table ++ [{ processHoldings c with kernelStack := none }]).set table.length
      (processHoldings c) = table ++ [processHoldings c] := by simp
  rw [← whole]
  refine stack.set_grant id last (c := .kernelStack) ?_ ?_ ?_
  · intro w holds
    cases holds
  · simp only [Holdings.data, processHoldings, Option.map_some, Option.some.injEq]
    exact toNat_succ (by omega)
  · intro entry other
    cases entry with
    | mem entry => rfl
    | kernelStack => exact absurd rfl other

theorem Handed.dataLedger (handed : Handed loads table c table' c') (ledger : DataLedger table c)
    (small : c.firstFreePage.toNat + 2 < 2 ^ 16) : DataLedger table' c' := by
  have next := toNat_succ (w := c.firstFreePage) (by omega)
  have second : (c.firstFreePage + 1 + 1).toNat = c.firstFreePage.toNat + 2 := by
    rw [toNat_succ (by omega), next]
  cases handed with
  | nothing => exact ledger
  | thread =>
    unfold DataLedger
    rw [next]
    exact ledger.thread
  | process =>
    unfold DataLedger
    rw [second]
    exact ledger.process small
  | page here unmapped =>
    rename_i i h entry
    unfold DataLedger
    rw [next]
    refine Ledger.set_grant ledger id here (c := .mem entry) ?_ ?_ ?_
    · intro w holds
      simp only [Holdings.data, Option.map_some, Option.some.injEq] at holds
      refine Or.inl (holds ▸ ?_)
      rcases unmapped with zero | mark
      · rw [zero]
        decide
      · rw [mark]
        decide
    · simp [Holdings.data]
    · intro other different
      cases other with
      | mem other =>
        have elsewhere : other ≠ entry := fun same => different (same ▸ rfl)
        simp [Holdings.data, update_of_ne elsewhere]
      | kernelStack => rfl
  | progPage load here unmapped low =>
    refine Ledger.set_keep ledger here ?_
    intro other
    cases other with
    | mem other => rfl
    | kernelStack => rfl

theorem Handed.progLedger (handed : Handed loads table c table' c') (ledger : ProgLedger table c)
    (free : loads → c.firstFreeProgPage ≠ unmappedPage) : ProgLedger table' c' := by
  cases handed with
  | nothing => exact ledger
  | thread =>
    refine Ledger.append ledger ?_
    intro entry w holds
    simp only [threadHoldings, Option.some.injEq] at holds
    have bound := entry.isLt
    rw [word_ofNat_toNat (by omega)] at holds
    exact Or.inl (holds ▸ by omega)
  | process =>
    refine Ledger.append ledger ?_
    intro entry w holds
    exact Or.inr (Option.some.inj holds).symm
  | page here unmapped => exact Ledger.set_keep ledger here fun _ => rfl
  | progPage load here unmapped low =>
    rename_i i h entry
    have unmarked := free load
    -- the counter has not passed the mark, so it does not wrap either
    have ahead := ledger.ahead _ rfl
    unfold ProgLedger
    rw [toNat_succ (Nat.lt_of_le_of_lt (Nat.succ_le_succ ahead) (by decide))]
    refine Ledger.set_grant ledger (fun same => unmarked (BitVec.eq_of_toNat_eq same)) here
      (c := entry) ?_ ?_ ?_
    · intro w holds
      rw [unmapped, Option.some.injEq] at holds
      exact Or.inr (holds ▸ ahead)
    · simp
    · intro other different
      simp [update_of_ne different]

theorem mem_pagesBetween {before after w : Word} (le : before.toNat ≤ after.toNat)
    (member : w ∈ pagesBetween before after) : before.toNat ≤ w.toNat ∧ w.toNat < after.toNat := by
  obtain ⟨j, range, rfl⟩ := List.mem_map.mp member
  rw [List.mem_range, BitVec.toNat_sub_of_le le] at range
  have bound := after.isLt
  rw [BitVec.toNat_add, BitVec.toNat_ofNat]
  omega

theorem Handed.firstFreePage_le (handed : Handed loads table c table' c') (small : c.firstFreePage.toNat + 2 < 2 ^ 16) :
    c.firstFreePage.toNat ≤ c'.firstFreePage.toNat := by
  cases handed with
  | nothing | progPage load here unmapped low => exact le_rfl
  | thread | page here unmapped =>
    rw [toNat_succ (by omega)]
    exact Nat.le_succ _
  | process =>
    have next := toNat_succ (w := c.firstFreePage) (by omega)
    rw [toNat_succ (by omega), next]
    exact Nat.le_add_right _ 2

theorem Handed.firstFreeProgPage_le (handed : Handed loads table c table' c')
    (small : c.firstFreeProgPage.toNat + 1 < 2 ^ 16) : c.firstFreeProgPage.toNat ≤ c'.firstFreeProgPage.toNat := by
  cases handed with
  | nothing | thread | process | page here unmapped => exact le_rfl
  | progPage load here unmapped low =>
    rw [toNat_succ small]
    exact Nat.le_succ _

end Ledgers

structure DataInv (s : PageState) : Prop where
  heap : HeapInv s.heapState
  ledger : DataLedger s.table s.kernel.pages
  taken : ∀ w ∈ s.dataPages, 0x211 ≤ w.toNat ∧ w.toNat < s.kernel.pages.firstFreePage.toNat

theorem DataInv.length_le (inv : DataInv s) : s.kernel.procs.length ≤ 50 := by
  have distinct : (s.kernel.procs.map Proc.addr).Nodup := by
    have all := inv.heap.distinct
    simp only [PageState.heapState, List.map_append, List.map_map] at all
    exact (List.nodup_append.mp all).1
  have held : ∀ ptr ∈ s.kernel.procs.map Proc.addr, (ptr, BitVec.ofNat 16 sizeofProc) ∈ s.heapState.live := by
    intro ptr member
    obtain ⟨p, there, rfl⟩ := List.mem_map.mp member
    exact List.mem_append_left _ (List.mem_map_of_mem (f := procBlock) there)
  have count := inv.heap.count_le held distinct
  rw [List.length_map, heapArrSize_eq, show sizeInChunks (BitVec.ofNat 16 sizeofProc) = 43 by decide] at count
  omega

theorem DataInv.counter_le (inv : DataInv s) : s.kernel.pages.firstFreePage.toNat ≤ 0x211 + 50 * 17 := by
  have cells := inv.ledger.next_le_cells
  have length := inv.length_le
  rw [show Fintype.card DataEntry = 17 from rfl, PageState.table, List.length_map] at cells
  omega

theorem taken_between {taken : List Word} {low : Nat} {before after : Word}
    (range : ∀ w ∈ taken, low ≤ w.toNat ∧ w.toNat < before.toNat) (above : low ≤ before.toNat)
    (grows : before.toNat ≤ after.toNat) (w : Word) (member : w ∈ taken ++ pagesBetween before after) :
    low ≤ w.toNat ∧ w.toNat < after.toNat := by
  rcases List.mem_append.mp member with old | new
  · exact ⟨(range w old).1, (range w old).2.trans_le grows⟩
  · have between := mem_pagesBetween grows new
    exact ⟨above.trans between.1, between.2⟩

theorem Effect.dataInv (effect : Effect loads s s') (inv : DataInv s) : DataInv s' := by
  have counter := inv.counter_le
  have small : s.kernel.pages.firstFreePage.toNat + 2 < 2 ^ 16 := by omega
  have grows := effect.handed.firstFreePage_le small
  refine ⟨effect.heap, effect.handed.dataLedger inv.ledger small, ?_⟩
  rw [effect.dataPages]
  exact taken_between inv.taken inv.ledger.base_le grows

theorem step_dataInv (inv : DataInv s) (taken : pageStep s op = some s') : DataInv s' :=
  (pageStep_effect inv.heap taken).dataInv inv

structure ProgInv (s : PageState) : Prop where
  ledger : ProgLedger s.table s.kernel.pages
  taken : ∀ w ∈ s.progPages, 0x11 ≤ w.toNat ∧ w.toNat < s.kernel.pages.firstFreeProgPage.toNat
  open15 : ∀ h ∈ s.table, ∀ entry, h.prog entry = unmappedPage → h.prog 15 = unmappedPage

theorem Handed.open15 {loads : Prop} (handed : Handed loads table c table' c')
    (before : ∀ h ∈ table, ∀ entry, h.prog entry = unmappedPage → h.prog 15 = unmappedPage) :
    ∀ h ∈ table', ∀ entry, h.prog entry = unmappedPage → h.prog 15 = unmappedPage := by
  cases handed with
  | nothing => exact before
  | thread =>
    intro h member entry mark
    rcases List.mem_append.mp member with old | new
    · exact before h old entry mark
    · rw [List.mem_singleton.mp new] at mark
      have never : ∀ entry : Fin 16, BitVec.ofNat 16 entry ≠ unmappedPage := by decide
      exact absurd mark (never entry)
  | process =>
    intro h member entry mark
    rcases List.mem_append.mp member with old | new
    · exact before h old entry mark
    · rw [List.mem_singleton.mp new]
      rfl
  | page here unmapped =>
    intro h member entry mark
    rcases List.mem_or_eq_of_mem_set member with old | new
    · exact before h old entry mark
    · subst new
      have old := before _ (List.mem_of_getElem? here) entry mark
      exact old
  | progPage load here unmapped low =>
    intro h member entry mark
    rcases List.mem_or_eq_of_mem_set member with old | rfl
    · exact before h old entry mark
    · have other := before _ (List.mem_of_getElem? here) _ unmapped
      simpa [update_of_ne (Ne.symm low)] using other

theorem Effect.progInv (effect : Effect loads s s') (inv : ProgInv s)
    (free : loads → s.kernel.pages.firstFreeProgPage ≠ unmappedPage) : ProgInv s' := by
  have ahead := inv.ledger.ahead _ rfl
  have grows := effect.handed.firstFreeProgPage_le
    (Nat.lt_of_le_of_lt (Nat.succ_le_succ ahead) (by decide))
  refine ⟨effect.handed.progLedger inv.ledger free, ?_,
    effect.handed.open15 inv.open15⟩
  rw [effect.progPages]
  exact taken_between inv.taken inv.ledger.base_le grows

theorem step_progInv (data : DataInv s) (inv : ProgInv s) (free : ProgPageFree s op)
    (taken : pageStep s op = some s') : ProgInv s' :=
  (pageStep_effect data.heap taken).progInv inv free

theorem dataHeld_cell (table : List Holdings) (slot : Nat × DataEntry) :
    cell (fun h entry => (h.data entry).map BitVec.toNat) table slot = (dataHeld table slot).map BitVec.toNat := by
  cases row : table[slot.1]? with
  | none | some => simp [cell, dataHeld, row]

theorem progHeld_cell (table : List Holdings) (slot : Nat × Fin 16) :
    cell (fun h entry => some (h.prog entry).toNat) table slot = (progHeld table slot).map BitVec.toNat := by
  cases row : table[slot.1]? with
  | none | some => simp [cell, progHeld, row]

theorem DataInv.single (inv : DataInv s) (handed : w ∈ s.dataPages) {a b : Nat × DataEntry}
    (atA : dataHeld s.table a = some w) (atB : dataHeld s.table b = some w) : a = b := by
  obtain ⟨low, high⟩ := inv.taken w handed
  refine inv.ledger.single a b w.toNat low high ?_ ?_
  · rw [dataHeld_cell, atA, Option.map_some]
  · rw [dataHeld_cell, atB, Option.map_some]

theorem DataInv.range (inv : DataInv s) (handed : w ∈ s.dataPages) :
    ¬ (0x200 ≤ w.toNat ∧ w.toNat ≤ 0x20f) ∧ w.toNat < 0x1000 := by
  have range := inv.taken w handed
  have counter := inv.counter_le
  constructor <;> omega

theorem ProgInv.single (inv : ProgInv s) (handed : w ∈ s.progPages) {a b : Nat × Fin 16}
    (atA : progHeld s.table a = some w) (atB : progHeld s.table b = some w) : a = b := by
  obtain ⟨low, high⟩ := inv.taken w handed
  refine inv.ledger.single a b w.toNat low high ?_ ?_
  · rw [progHeld_cell, atA, Option.map_some]
  · rw [progHeld_cell, atB, Option.map_some]

theorem pagesExclusive_of_inv (inv : DataInv s ∧ ProgInv s) : PagesExclusive s where
  data _ handed _ _ := inv.1.single handed
  range _ handed := inv.1.range handed
  prog _ handed _ _ := inv.2.single handed

theorem dataInv_init (phys : PhysMem) : DataInv (initPages phys) where
  heap := heapInv_init
  ledger := ledger_empty (fun _ => rfl) fun _ => False.elim
  taken := by simp [initPages]

theorem progInv_init (phys : PhysMem) : ProgInv (initPages phys) where
  ledger := by
    refine ledger_empty (fun _ => rfl) ?_
    rintro w rfl
    decide
  taken := by simp [initPages]
  open15 := by simp [initPages, PageState.table, bootKernel]

theorem taken_at_mark (inv : ProgInv s) (taken : pageStep s op = some s')
    (marked : ¬ ProgPageFree s op) : ¬ PagesExclusive s' := by
  unfold ProgPageFree at marked
  push Not at marked
  obtain ⟨takes, atMark⟩ := marked
  unfold TakesProgPage at takes
  split at takes
  · rename_i i vaddr
    obtain ⟨p, here, unmapped⟩ := takes
    simp only [pageStep, here, Option.map_some, Option.some.injEq] at taken
    subst taken
    have loaded : (physPageToLoad s.kernel i p vaddr true).2 = s.kernel.takeProgPage i (progEntry vaddr) := by
      simp only [physPageToLoad, if_true, unmapped]
    rw [loaded]
    intro exclusive
    have row : (s.advance (s.kernel.takeProgPage i (progEntry vaddr))).table[i]? =
        some { holdings p with
          prog := update p.procState.progPages (progEntry vaddr) unmappedPage } := by
      have own : (s.kernel.takeProgPage i (progEntry vaddr)).procs[i]? = _ := modifyProc_self s.kernel i _
      simp only [PageState.table, PageState.advance, List.getElem?_map, own, here, Option.map_some, atMark]
      rfl
    have handed : unmappedPage ∈ (s.advance (s.kernel.takeProgPage i (progEntry vaddr))).progPages := by
      simp only [PageState.advance, KernelState.takeProgPage, atMark]
      exact List.mem_append_right _ (by decide)
    have last : p.procState.progPages 15 = unmappedPage := by
      have member : holdings p ∈ s.table := List.mem_map_of_mem (List.mem_of_getElem? here)
      exact inv.open15 _ member _ unmapped
    have same := exclusive.prog unmappedPage handed (i, progEntry vaddr) (i, 15)
      (by simp [progHeld, row])
      (by simp [progHeld, row, update_of_ne (progEntry_low vaddr).symm, last])
    exact progEntry_low vaddr (Prod.mk.inj same).2
  · exact takes.elim

theorem pages_exclusive_iff_free (phys : PhysMem) (ops : List PageOp) :
    Throughout pageStep PagesExclusive (initPages phys) ops ↔
      Guarded pageStep ProgPageFree (initPages phys) ops := by
  refine throughout_iff_guarded (I := fun s => DataInv s ∧ ProgInv s) ?_ ?_ ?_ ?_
  · exact fun s inv => pagesExclusive_of_inv inv
  · exact fun s op s' inv free taken => ⟨step_dataInv inv.1 taken, step_progInv inv.1 inv.2 free taken⟩
  · exact fun s op s' inv marked taken => taken_at_mark inv.2 taken marked
  · exact ⟨dataInv_init phys, progInv_init phys⟩

def loadAll (i : Nat) : List PageOp :=
  .schedInitUserThread .zero ::
    (List.range 8).map fun n => .physPageToLoad i (BitVec.ofNat 16 (n * 0x2000)) true

theorem thirtieth_process_shares_page :
    ¬ Throughout pageStep PagesExclusive (initPages fun _ _ => 0) ((List.range 30).flatMap loadAll) := by
  intro exclusive
  have shared : (run pageStep (initPages fun _ _ => 0) ((List.range 30).flatMap loadAll)).map (fun s =>
      (decide (0xff ∈ s.progPages), progHeld s.table (29, 6), progHeld s.table (0, 15))) =
      some (true, some 0xff, some 0xff) := by decide +kernel
  obtain ⟨s, reached, values⟩ := Option.map_eq_some_iff.mp shared
  simp only [Prod.mk.injEq, decide_eq_true_eq] at values
  have last := throughout_iff.mp exclusive _ (List.prefix_refl _) s reached
  have same := last.prog 0xff values.1 (29, 6) (0, 15) values.2.1 values.2.2
  cases same

theorem data_pages_exclusive (phys : PhysMem) (ops : List PageOp)
    (reached : run pageStep (initPages phys) ops = some s) (w : Word) (handed : w ∈ s.dataPages) :
    (∀ a b, dataHeld s.table a = some w → dataHeld s.table b = some w → a = b) ∧
    ¬ (0x200 ≤ w.toNat ∧ w.toNat ≤ 0x20f) ∧ w.toNat < 0x1000 := by
  have inv : DataInv s := run_invariant (fun _ _ _ => step_dataInv) (dataInv_init phys) reached
  exact ⟨fun a b => inv.single handed, inv.range handed⟩

theorem data_pages_exclusive_stack : ∃ s, run pageStep (initPages fun _ _ => 0) [.schedInitUserThread .zero] = some s ∧
    ∀ b, dataHeld s.table b = some 0x211 → b = (0, .mem 15) := by
  have stack : (run pageStep (initPages fun _ _ => 0) [.schedInitUserThread .zero]).map (fun s =>
      (decide (0x211 ∈ s.dataPages), dataHeld s.table (0, .mem 15))) = some (true, some 0x211) := by decide +kernel
  obtain ⟨s, reached, values⟩ := Option.map_eq_some_iff.mp stack
  simp only [Prod.mk.injEq, decide_eq_true_eq] at values
  have alone := (data_pages_exclusive _ _ reached 0x211 values.1).1
  exact ⟨s, reached, fun b held => alone b _ held values.2⟩

def Holdings.emptyEntries (h : Holdings) : Finset (Fin 16) :=
  Finset.univ.filter fun entry => h.prog entry = unmappedPage

def emptyCount (table : List Holdings) : Nat := (table.map fun h => h.emptyEntries.card).sum

def ProgCounted (table : List Holdings) (next : Nat) : Prop :=
  next + emptyCount table ≤ 0x11 + 16 * table.length + if next ≤ 0xff then 0 else 1

theorem emptyCount_set {i : Nat} {h : Holdings} (here : table[i]? = some h) (h' : Holdings) :
    emptyCount (table.set i h') + h.emptyEntries.card = emptyCount table + h'.emptyEntries.card := by
  induction table generalizing i with
  | nil => cases here
  | cons first rest ih =>
    cases i with
    | zero =>
      obtain rfl : first = h := Option.some.inj here
      simp only [emptyCount, List.set_cons_zero, List.map_cons, List.sum_cons]
      omega
    | succ i =>
      have tail := ih here
      simp only [emptyCount, List.set_cons_succ, List.map_cons, List.sum_cons] at tail ⊢
      omega

theorem emptyCount_append (table : List Holdings) (h : Holdings) :
    emptyCount (table ++ [h]) = emptyCount table + h.emptyEntries.card := by
  simp [emptyCount]

theorem Holdings.emptyEntries_le (h : Holdings) : h.emptyEntries.card ≤ 16 :=
  (Finset.card_le_univ _).trans (by simp)

theorem emptyEntries_erase (h : Holdings) (entry : Fin 16) (page : w ≠ unmappedPage) :
    ({ h with prog := update h.prog entry w } : Holdings).emptyEntries = h.emptyEntries.erase entry := by
  ext other
  by_cases same : other = entry <;> simp [Holdings.emptyEntries, same, page]

theorem emptyEntries_update (h : Holdings) {entry : Fin 16} (empty : h.prog entry = unmappedPage) (w : Word) :
    ({ h with prog := update h.prog entry w } : Holdings).emptyEntries.card +
      (if w = unmappedPage then 0 else 1) = h.emptyEntries.card := by
  by_cases mark : w = unmappedPage
  · rw [if_pos mark, mark, ← empty, update_eq_self]
    rfl
  · have member : entry ∈ h.emptyEntries := by simp [Holdings.emptyEntries, empty]
    rw [if_neg mark, emptyEntries_erase h entry mark, Finset.card_erase_add_one member]

theorem ProgCounted.append {next : Nat} (counted : ProgCounted table next) (h : Holdings) :
    ProgCounted (table ++ [h]) next := by
  have bound := h.emptyEntries_le
  unfold ProgCounted at counted ⊢
  rw [emptyCount_append, List.length_append, List.length_singleton]
  omega

theorem ProgCounted.small {next : Nat} (counted : ProgCounted table next)
    (rows : table.length ≤ 50) : next + 1 < 2 ^ 16 := by
  unfold ProgCounted at counted
  split at counted <;> omega

theorem Handed.progCounted (handed : Handed loads table c table' c') (rows : table.length ≤ 50)
    (counted : ProgCounted table c.firstFreeProgPage.toNat) : ProgCounted table' c'.firstFreeProgPage.toNat := by
  cases handed with
  | nothing => exact counted
  | thread | process => exact counted.append _
  | page here unmapped =>
    rename_i i h entry
    have same := emptyCount_set here { h with mem := update h.mem entry c.firstFreePage }
    have entries : ({ h with mem := update h.mem entry c.firstFreePage } : Holdings).emptyEntries =
      h.emptyEntries := rfl
    rw [entries] at same
    unfold ProgCounted at counted ⊢
    rw [Nat.add_right_cancel same, List.length_set]
    exact counted
  | progPage load here unmapped low =>
    rename_i i h entry
    have total := emptyCount_set here { h with prog := update h.prog entry c.firstFreeProgPage }
    have filled := emptyEntries_update h unmapped c.firstFreeProgPage
    have mark : c.firstFreeProgPage = unmappedPage ↔ c.firstFreeProgPage.toNat = 0xff :=
      ⟨fun same => congrArg BitVec.toNat same, fun same => BitVec.eq_of_toNat_eq same⟩
    have next : (c.firstFreeProgPage + 1).toNat = c.firstFreeProgPage.toNat + 1 := toNat_succ (counted.small rows)
    unfold ProgCounted at counted ⊢
    simp only [next, List.length_set]
    simp only [mark] at filled
    split at filled <;> split at counted <;> split <;> omega

structure CounterInv (s : PageState) : Prop where
  data : DataInv s
  counted : ProgCounted s.table s.kernel.pages.firstFreeProgPage.toNat

theorem CounterInv.rows (inv : CounterInv s) : s.table.length ≤ 50 := by
  rw [PageState.table, List.length_map]
  exact inv.data.length_le

theorem step_counterInv (inv : CounterInv s) (taken : pageStep s op = some s') :
    CounterInv s' ∧ s.kernel.pages.firstFreeProgPage.toNat ≤ s'.kernel.pages.firstFreeProgPage.toNat := by
  have effect := pageStep_effect inv.data.heap taken
  exact ⟨⟨effect.dataInv inv.data, effect.handed.progCounted inv.rows inv.counted⟩,
    effect.handed.firstFreeProgPage_le (inv.counted.small inv.rows)⟩

theorem run_counter_le {ops : List PageOp} (inv : CounterInv s) (reached : run pageStep s ops = some s') :
    s.kernel.pages.firstFreeProgPage.toNat ≤ s'.kernel.pages.firstFreeProgPage.toNat := by
  have both : CounterInv s' ∧
      s.kernel.pages.firstFreeProgPage.toNat ≤ s'.kernel.pages.firstFreeProgPage.toNat :=
    run_invariant (I := fun t => CounterInv t ∧
        s.kernel.pages.firstFreeProgPage.toNat ≤ t.kernel.pages.firstFreeProgPage.toNat)
      (fun t _ t' kept taken => by
        have next := step_counterInv kept.1 taken
        exact ⟨next.1, kept.2.trans next.2⟩)
      ⟨inv, le_rfl⟩ reached
  exact both.2

theorem counter_past_mark (taken : pageStep s op = some s') (marked : ¬ProgPageFree s op) :
    0xff < s'.kernel.pages.firstFreeProgPage.toNat := by
  unfold ProgPageFree at marked
  push Not at marked
  obtain ⟨takes, atMark⟩ := marked
  unfold TakesProgPage at takes
  split at takes
  · obtain ⟨p, here, unmapped⟩ := takes
    simp only [pageStep, here, Option.map_some, Option.some.injEq] at taken
    subst taken
    simp only [PageState.advance, physPageToLoad, unmapped, KernelState.takeProgPage, atMark, if_true]
    decide
  · exact takes.elim

theorem progPageFree_of_counter_le {ops : List PageOp} (inv : CounterInv s)
    (reached : run pageStep s ops = some s') (below : s'.kernel.pages.firstFreeProgPage.toNat ≤ 0xff) :
    Guarded pageStep ProgPageFree s ops := by
  induction ops generalizing s with
  | nil => trivial
  | cons op rest ih =>
    intro t taken
    rw [run_cons, taken] at reached
    have next := step_counterInv inv taken
    refine ⟨?_, ih next.1 reached⟩
    by_contra marked
    have past := counter_past_mark taken marked
    have final := run_counter_le next.1 reached
    omega

theorem counterInv_init (phys : PhysMem) : CounterInv (initPages phys) :=
  ⟨dataInv_init phys, by simp [initPages, PageState.table, bootKernel, ProgCounted, emptyCount]⟩

end PiOS.Proof.Pages
