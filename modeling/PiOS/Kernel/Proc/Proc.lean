import Mathlib.Data.Fintype.Pi
import PiOS.Kernel.Libk.Kmalloc

namespace PiOS.Kernel

structure ProcFile where
  inode : Option Nat
  offset : Word
  fcntlFlags : Word
  driverData : Option Nat
  deriving DecidableEq

structure ProcState where
  regs : Fin 8 → Word
  pc : Word
  arithFlags : Word
  memPages : Fin 16 → Word
  progPages : Fin 16 → Word
  deriving DecidableEq

structure Signal where
  type : Word
  number : Word
  deriving DecidableEq

inductive RunState
  | unloaded | runnable | blocked | syscall | syscallBlocked | dead
  deriving DecidableEq

inductive ProcType
  | init | user | kernel | priv
  deriving DecidableEq

inductive SemaRef
  | signal
  | other (id : Nat)
  deriving DecidableEq

/-- `struct proc`, with the address `kmalloc` gave it. Of the name only the length matters, for the `strcpy` in
`elf_load`. -/
structure Proc where
  addr : Nat
  pid : Word
  state : RunState
  type : ProcType
  procState : ProcState
  syscallState : ProcState
  kernelStackPage : Word
  openFiles : Fin 16 → ProcFile
  parent : Word
  semaBlocked : Option SemaRef
  signalQueue : List Signal
  signalsHold : Bool
  sighandler : Word
  signalSema : Int
  loadBrk : Word
  alarmTicks : BitVec 32
  deriving DecidableEq

def ProcState.zero : ProcState := ⟨fun _ => 0, 0, 0, fun _ => 0, fun _ => 0⟩

def Proc.zero : Proc where
  addr := 0
  pid := 0
  state := .unloaded
  type := .init
  procState := .zero
  syscallState := .zero
  kernelStackPage := 0
  openFiles := fun _ => ⟨none, 0, 0, none⟩
  parent := 0
  semaBlocked := none
  signalQueue := []
  signalsHold := false
  sighandler := 0
  signalSema := 0
  loadBrk := 0
  alarmTicks := 0

-- `int`s and pointers are two bytes, `unsigned long` is four
def sizeofProcState : Nat := 2 * (8 + 1 + 1 + 16 + 16)
def sizeofProcFile : Nat := 2 * 4
def sizeofProc : Nat :=
  2 * 3 + 2 * sizeofProcState + 16 + 2 + 16 * sizeofProcFile + 2 + 2 + 2 * 2 + 2 + 2 + 2 + 2 + 4
def sizeofListNode : Nat := 2 * 3
def sizeofSignal : Nat := 2 * 2

def illegalPage : Word := 0

def unmappedPage : Word := 0xff

abbrev PhysMem := Word → Word → Byte

structure PageCounters where
  firstFreePage : Word
  firstFreeProgPage : Word
  deriving DecidableEq

inductive Driver
  | rootfs | tmp | tty | sio | kbd | serial1 | serial2 | i2c | tar
  deriving DecidableEq

structure Vnode where
  reg : Driver

structure Inode where
  vnode : Option Nat

/-- The kernel's global state. `procs` is `proc_list` in list order; the scheduler's pointers into
it are positions, and `currentProc` is `none` while `idle_struct` runs. -/
structure KernelState where
  procs : List Proc
  currentProc : Option Nat
  lastElement : Option Nat
  semas : Nat → Int
  sysTicks : BitVec 32
  pidNow : Word
  pages : PageCounters
  heap : HeapMemory
  phys : PhysMem
  intNoProcModify : Bool
  inodes : Nat → Inode
  vnodes : Nat → Vnode

/-- The state `_kstart` hands to the scheduler: no process, all counters at their initial values. -/
def bootKernel (phys : PhysMem) : KernelState where
  procs := []
  currentProc := none
  lastElement := none
  semas := fun _ => 0
  sysTicks := 0
  pidNow := 0
  pages := ⟨0x211, 0x11⟩
  heap := initMalloc
  phys := phys
  intNoProcModify := false
  inodes := fun _ => ⟨none⟩
  vnodes := fun _ => ⟨.rootfs⟩

def KernelState.modifyProc (k : KernelState) (i : Nat) (f : Proc → Proc) : KernelState :=
  { k with procs := k.procs.modify i f }

section

variable (k : KernelState) (i : Nat) (f : Proc → Proc) {π : Proc → α} {α : Type} {p : Proc}

@[simp] theorem modifyProc_currentProc : (k.modifyProc i f).currentProc = k.currentProc := rfl

@[simp] theorem modifyProc_length : (k.modifyProc i f).procs.length = k.procs.length := by
  simp [KernelState.modifyProc]

@[simp] theorem modifyProc_self : (k.modifyProc i f).procs[i]? = k.procs[i]?.map f := by
  simp [KernelState.modifyProc]

theorem map_modifyProc (keeps : ∀ p, π (f p) = π p) : (k.modifyProc i f).procs.map π = k.procs.map π := by
  apply List.ext_getElem?
  intro j
  simp only [KernelState.modifyProc, List.getElem?_map, List.getElem?_modify]
  cases k.procs[j]? with
  | none => rfl
  | some p =>
    by_cases own : i = j
    · simp [own, keeps]
    · simp [own]

theorem map_modifyProc_at (here : k.procs[i]? = some p)
    (keeps : π (f p) = π p) : (k.modifyProc i f).procs.map π = k.procs.map π := by
  apply List.ext_getElem?
  intro j
  simp only [KernelState.modifyProc, List.getElem?_map, List.getElem?_modify]
  by_cases own : i = j
  · subst own
    simp [here, keeps]
  · simp [own]

theorem map_modifyProc_set (here : k.procs[i]? = some p) :
    (k.modifyProc i f).procs.map π = (k.procs.map π).set i (π (f p)) := by
  apply List.ext_getElem?
  intro j
  have inside : i < (k.procs.map π).length := by
    simpa using (List.getElem?_eq_some_iff.mp here).1
  by_cases own : i = j
  · subst own
    rw [List.getElem?_map, modifyProc_self, here, List.getElem?_set_self inside]
    rfl
  · simp [KernelState.modifyProc, own]

theorem modifyProc_modifyProc (g : Proc → Proc) : (k.modifyProc i f).modifyProc i g = k.modifyProc i (g ∘ f) := by
  simp [KernelState.modifyProc, List.modify_modify_eq]

theorem map_modifyProc_congr {k' : KernelState}
    (depends : ∀ p q, π p = π q → π (f p) = π (f q)) (same : k'.procs.map π = k.procs.map π) :
    (k'.modifyProc i f).procs.map π = (k.modifyProc i f).procs.map π := by
  apply List.ext_getElem?
  intro j
  have there := congrArg (fun list => list[j]?) same
  simp only [List.getElem?_map, KernelState.modifyProc, List.getElem?_modify] at there ⊢
  cases before : k.procs[j]? <;> cases after : k'.procs[j]? <;> simp only [before, after] at there ⊢
  · cases there
  · cases there
  · by_cases own : i = j
    · simpa [own] using depends _ _ (Option.some.inj there)
    · simpa [own] using Option.some.inj there

theorem modifyProc_of_ne {j : Nat} (other : j ≠ i) : (k.modifyProc i f).procs[j]? = k.procs[j]? := by
  simp [KernelState.modifyProc, Ne.symm other]

end

def procByPid (procs : List Proc) (pid : Word) : Option Nat :=
  procs.findIdx? fun p => p.pid = pid

end PiOS.Kernel
