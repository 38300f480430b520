import PiOS.Kernel.Machine

namespace PiOS.Kernel

/-- The kernel has page `0x200 + n` of the memory at its data address `0x1000 * n`. -/
def kernelByte (phys : PhysMem) (addr : Nat) : Byte :=
  phys (BitVec.ofNat 16 (0x200 + addr / pageSize)) (BitVec.ofNat 16 (addr % pageSize))

def offProcState : Nat := 2 * 3
def offSyscallState : Nat := offProcState + sizeofProcState
def offName : Nat := offSyscallState + sizeofProcState

def ProcState.byteAt (s : ProcState) (o : Nat) : Byte :=
  let word := if small : o / 2 < 8 then s.regs ⟨o / 2, small⟩ else if o / 2 = 8 then s.pc else
    if o / 2 = 9 then s.arithFlags else if o / 2 < 26 then s.memPages (Fin.ofNat 16 (o / 2 - 10)) else
      s.progPages (Fin.ofNat 16 (o / 2 - 26))
  if o % 2 = 0 then word.setWidth 8 else (word >>> 8).setWidth 8

/-- The memory with the saved states of the process in it. -/
def Proc.mirrored (phys : PhysMem) (p : Proc) : PhysMem := fun page a =>
  let o := (page.toNat - 0x200) * pageSize + a.toNat - p.addr
  if 0x200 ≤ page.toNat ∧ page.toNat < 0x210 ∧ a.toNat < pageSize ∧ offProcState ≤ o ∧ o < offName then
    if o < offSyscallState then p.procState.byteAt (o - offProcState) else p.syscallState.byteAt (o - offSyscallState)
  else
    phys page a

def KernelState.mirrored (k : KernelState) : KernelState := { k with phys := k.procs.foldl Proc.mirrored k.phys }

def Unstored (before after : PhysMem) (p : Proc) : Prop :=
  ∀ o < sizeofProc, kernelByte after (p.addr + o) = kernelByte before (p.addr + o)

instance (before after : PhysMem) (p : Proc) : Decidable (Unstored before after p) := by
  unfold Unstored
  infer_instance

def reread (before after : PhysMem) (addr : Nat) (s : ProcState) : ProcState :=
  .ofBytes (s.bytes.mapIdx fun o b =>
    if kernelByte after (addr + o) = kernelByte before (addr + o) then b else kernelByte after (addr + o))

def Proc.overwritten (before after : PhysMem) (p : Proc) : Proc :=
  if Unstored before after p then
    p
  else
    { p with
      procState := reread before after (p.addr + offProcState) p.procState
      syscallState := reread before after (p.addr + offSyscallState) p.syscallState }

/-- A step of the machine in which the saved states are bytes of the memory it stores to. A byte that the step
sets in a saved state and stores over as well is left as stored. -/
def Machine.sharedStep (m : Machine) (action : Action) : Option Machine :=
  (m.step action).map fun m' => m'.setKernel
    { m'.kernel with procs := m'.kernel.procs.map (Proc.overwritten m.kernel.phys m'.kernel.phys) }.mirrored

end PiOS.Kernel
