import PiOS.Kernel.Machine
import PiOS.Proof.Heap
import PiOS.Transition.Outcome

namespace PiOS.Proof
open Kernel Transition

/-- What of a process the ordinary system calls leave alone: everything but the registers, the
state saved while it runs in the kernel, its files, its handler and its alarm. -/
def core (p : Proc) : Proc :=
  { p with
    procState := .zero
    syscallState := { p.syscallState with regs := fun _ => 0 }
    openFiles := fun _ => ⟨none, 0, 0, none⟩
    sighandler := 0
    alarmTicks := 0 }

class Steady (κ : Proc → Proc) : Prop where
  procState : ∀ p s, κ { p with procState := s } = κ p
  answer : ∀ p w, κ { p with syscallState := p.syscallState.setReg 0 w } = κ p
  openFiles : ∀ p files, κ { p with openFiles := files } = κ p
  sighandler : ∀ p w, κ { p with sighandler := w } = κ p

class Blind (κ : Proc → Proc) : Prop extends Steady κ where
  alarmTicks : ∀ p ticks, κ { p with alarmTicks := ticks } = κ p

instance : Steady core := ⟨fun _ _ => rfl, fun _ _ => rfl, fun _ _ => rfl, fun _ _ => rfl⟩

instance : Blind core := ⟨fun _ _ => rfl⟩

structure FrameOf (κ : Proc → Proc) (i : Nat) (k k' : KernelState) : Prop where
  current : k'.currentProc = k.currentProc
  others : ∀ j, j ≠ i → k'.procs[j]? = k.procs[j]?
  own : k'.procs[i]?.map κ = k.procs[i]?.map κ

abbrev Frame : Nat → KernelState → KernelState → Prop := FrameOf core

section

variable {κ : Proc → Proc}

theorem FrameOf.refl (i : Nat) (k : KernelState) : FrameOf κ i k k := ⟨rfl, fun _ _ => rfl, rfl⟩

theorem FrameOf.map {α : Type} {π : Proc → α} {i : Nat} {k k' : KernelState} (f : FrameOf κ i k k')
    (outside : ∀ p, π (κ p) = π p) : k'.procs.map π = k.procs.map π := by
  apply List.ext_getElem?
  intro j
  simp only [List.getElem?_map]
  by_cases own : j = i
  · subst own
    have same := congrArg (Option.map π) f.own
    simpa only [Option.map_map, Function.comp_def, outside] using same
  · rw [f.others j own]

variable {i : Nat} {k k' : KernelState}

section

variable (f : FrameOf κ i k k')
include f

theorem FrameOf.modify {g : Proc → Proc} (keeps : ∀ p, κ (g p) = κ p) : FrameOf κ i k (k'.modifyProc i g) := by
  refine ⟨f.current, fun j other => ?_, ?_⟩
  · rw [modifyProc_of_ne _ _ _ other, f.others j other]
  · rw [modifyProc_self, Option.map_map, ← f.own]
    exact congrArg (fun h => k'.procs[i]?.map h) (funext keeps)

theorem FrameOf.setReg [Steady κ] (w : Word) : FrameOf κ i k (k'.setReg i 0 w) :=
  f.modify fun p => Steady.answer p w

theorem FrameOf.setFiles [Steady κ] (files : FdTable) : FrameOf κ i k (k'.setFiles i files) :=
  f.modify fun p => Steady.openFiles p files

theorem FrameOf.heap (heap : HeapMemory) : FrameOf κ i k { k' with heap := heap } :=
  ⟨f.current, f.others, f.own⟩

theorem FrameOf.phys (phys : PhysMem) : FrameOf κ i k { k' with phys := phys } :=
  ⟨f.current, f.others, f.own⟩

end

variable [Steady κ] (running : k.currentProc = some i)
include running

section

variable (f : FrameOf κ i k k')
include f

theorem FrameOf.mapPageZero (page : Word) : FrameOf κ i k (k'.mapPageZero page) := by
  unfold KernelState.mapPageZero
  rw [f.current, running]
  cases k'.intNoProcModify with
  | true => exact f
  | false => exact f.modify fun p => Steady.procState p _

theorem FrameOf.log : FrameOf κ i k k'.log := f.mapPageZero running illegalPage

theorem FrameOf.afterChunks (chunks : List UserChunk) : FrameOf κ i k (k'.afterChunks chunks) := by
  have mapped : FrameOf κ i k (chunks.foldl (fun k c => k.mapPageZero c.page) k') := by
    induction chunks generalizing k' with
    | nil => exact f
    | cons c chunks ih => exact ih (f.mapPageZero running c.page)
  exact mapped.mapPageZero running _

theorem FrameOf.memcpyFromUserspace (p : Proc) (ubuff size : Word) :
    FrameOf κ i k (memcpyFromUserspace k' p ubuff size).1 := f.afterChunks running _

theorem FrameOf.memcpyToUserspace (p : Proc) (ubuff : Word) (kbuff : List Byte)
    (size : Word) : FrameOf κ i k (memcpyToUserspace k' p ubuff kbuff size) :=
  (f.afterChunks running _).phys _

end

end

theorem validateFd_eq (fd : Word) : validateFd fd = decide (fd.toNat ≤ 16) := by
  have small := fd.isLt
  simp only [validateFd, procMaxFiles, BitVec.toInt_eq_toNat_cond]
  split <;> grind

/-- The call stores behind the file table, the name of the new process or the buffer of the log line. -/
def Overruns (p : Proc) (answers : Answers) : Prop :=
  match p.syscall with
  | some .close | some .read | some .write => (p.syscallState.regs 1).toNat = 16
  | some .fcntl => (p.syscallState.regs 1).toNat = 16 ∧ (p.syscallState.regs 2 = fFlags ∨
      fDriverCustomStart.toInt ≤ (p.syscallState.regs 2).toInt)
  | some .exec => (p.syscallState.regs 1).toNat = 16 ∨ procNameSize ≤ answers.name.length
  | some .print => logBuffSize < answers.logged
  | _ => False

instance (p : Proc) (answers : Answers) : Decidable (Overruns p answers) := by
  unfold Overruns
  split <;> infer_instance

def CallFault (p : Proc) (answers : Answers) : Stop → Prop
  | .panic _ | .nullDereference => True
  | .outOfBounds => Overruns p answers
  | .assertion _ | .blocked => False

def Allocated (ptr : Nat) : Prop := ∀ heap, ∃ heap', kfree heap ptr = .ok heap'

theorem kmallocScan_lt {memory : HeapMemory} {chunks fuel freeChunks currentChunk first : Nat}
    (found : kmallocScan memory chunks fuel freeChunks currentChunk = some first) : first < heapArrSize := by
  induction fuel generalizing freeChunks currentChunk with
  | zero => cases found
  | succ fuel ih =>
    unfold kmallocScan at found
    split at found
    · split at found
      · split at found
        · rename_i inside _ enough
          obtain rfl := Option.some.inj found
          omega
        · exact ih found
      · exact ih found
    · cases found

variable {answers : Answers}

theorem kmalloc_ensures (p : Proc) (memory : HeapMemory) (size : Word) :
    Ensures (kmalloc memory size) (fun out => Allocated out.1) (CallFault p answers) := by
  unfold kmalloc
  cases found : kmallocScan memory (sizeInChunks size) heapArrSize 0 0 with
  | none => exact Ensures.error trivial
  | some first =>
    apply Ensures.ok
    intro heap
    exact ⟨Function.update heap first 0, Heap.kfree_ok (kmallocScan_lt found)⟩

theorem kfree_ensures (p : Proc) {ptr : Nat} (allocated : Allocated ptr) (memory : HeapMemory) :
    Ensures (kfree memory ptr) (fun _ => True) (CallFault p answers) := by
  obtain ⟨heap, freed⟩ := allocated memory
  rw [freed]
  exact Ensures.ok trivial

section

variable {κ : Proc → Proc} [Steady κ] {i : Nat} {k : KernelState} {p : Proc} {answers : Answers} {k' : KernelState}
  {fd : Word}

theorem derefFile_ensures (valid : validateFd fd = true) (files : FdTable)
    (overruns : fd.toNat = 16 → Overruns p answers) : Ensures (derefFile files fd) (fun _ => fd.toNat < 16) (CallFault p answers) := by
  unfold derefFile
  rw [validateFd_eq, decide_eq_true_eq] at valid
  split
  · rename_i inside
    exact Ensures.ok inside
  · rename_i outside
    exact Ensures.error (overruns (by omega))

theorem storeFile_ensures (inside : fd.toNat < 16) (files : FdTable) (file : ProcFile) :
    Ensures (storeFile files fd file) (fun _ => True) (CallFault p answers) := by
  unfold storeFile
  rw [dif_pos inside]
  exact Ensures.ok trivial

theorem fileReg_ensures (k : KernelState) (file : ProcFile) :
    Ensures (fileReg k file) (fun _ => True) (CallFault p answers) := by
  unfold fileReg
  split
  · exact Ensures.error trivial
  · split
    · exact Ensures.error trivial
    · exact Ensures.ok trivial

theorem vfsClose_ensures (valid : validateFd fd = true) (files : FdTable)
    (overruns : fd.toNat = 16 → Overruns p answers) : Ensures (vfsClose files fd) (fun _ => True) (CallFault p answers) := by
  unfold vfsClose
  apply Ensures.bind (derefFile_ensures valid files overruns)
  intro file inside
  split
  · exact Ensures.ok trivial
  · apply Ensures.bind (storeFile_ensures inside _ _)
    intro files _
    exact Ensures.ok trivial

theorem vfsFioCtl_ensures (valid : validateFd fd = true) (files : FdTable)
    (overruns : fd.toNat = 16 → Overruns p answers) : Ensures (vfsFioCtl k files fd answers) (fun _ => True) (CallFault p answers) := by
  unfold vfsFioCtl
  apply Ensures.bind (derefFile_ensures valid files overruns)
  intro file inside
  split
  · exact Ensures.ok trivial
  · apply Ensures.bind (fileReg_ensures k file)
    intro reg _
    split
    · exact Ensures.ok trivial
    · apply Ensures.bind (storeFile_ensures inside _ _)
      intro files _
      exact Ensures.ok trivial

omit [Steady κ] in
theorem vfsBlocking_frame (f : FrameOf κ i k k') (valid : validateFd fd = true)
    (files : FdTable) (overruns : fd.toNat = 16 → Overruns p answers) :
    Ensures (vfsBlocking k' files fd answers) (fun out => FrameOf κ i k out.1) (CallFault p answers) := by
  unfold vfsBlocking
  apply Ensures.bind (derefFile_ensures valid files overruns)
  intro file inside
  split
  · exact Ensures.ok f
  · apply Ensures.bind (fileReg_ensures k' file)
    intro reg _
    split
    · exact Ensures.ok f
    · apply Ensures.bind (kmalloc_ensures p _ _)
      rintro ⟨lock, heap⟩ lockAllocated
      apply Ensures.bind (kmalloc_ensures p _ _)
      rintro ⟨req, heap⟩ reqAllocated
      apply Ensures.bind (kfree_ensures p reqAllocated _)
      intro heap _
      apply Ensures.bind (kfree_ensures p lockAllocated _)
      intro heap _
      apply Ensures.bind (storeFile_ensures inside _ _)
      intro files _
      split
      · exact Ensures.ok (f.heap _)
      · exact Ensures.ok ⟨f.current, f.others, f.own⟩

theorem bounded_ensures {room need : Nat} (overruns : room < need → Overruns p answers) :
    Ensures (bounded room need) (fun _ => True) (CallFault p answers) := by
  unfold bounded
  split
  · exact Ensures.ok trivial
  · rename_i more
    exact Ensures.error (overruns (Nat.not_le.mp more))

variable (running : k.currentProc = some i)

include running in
theorem processPrint_frame (call : p.syscall = some .print) :
    Ensures (processPrint k p answers) (FrameOf κ i k) (CallFault p answers) := by
  unfold processPrint
  apply Ensures.bind (kmalloc_ensures p _ _)
  rintro ⟨pb, heap⟩ allocated
  apply Ensures.bind (bounded_ensures fun more => by simpa [Overruns, call] using more)
  intro _ _
  apply Ensures.bind (kfree_ensures p allocated _)
  intro heap _
  apply Ensures.ok
  exact (((FrameOf.refl i k).memcpyFromUserspace running _ _ _).log running).heap _

include running in
theorem processOpen_frame : Ensures (processOpen k i p answers) (FrameOf κ i k) (CallFault p answers) := by
  unfold processOpen
  split
  · exact Ensures.ok ((FrameOf.refl i k).setReg _)
  · apply Ensures.bind (kmalloc_ensures p _ _)
    rintro ⟨path, heap⟩ allocated
    apply Ensures.bind (kfree_ensures p allocated _)
    intro heap _
    apply Ensures.ok
    exact ((((FrameOf.refl i k).memcpyFromUserspace running _ _ _).setFiles _).heap _).setReg _

theorem processClose_frame (call : p.syscall = some .close) :
    Ensures (processClose k i p) (FrameOf κ i k) (CallFault p answers) := by
  unfold processClose
  split
  · exact Ensures.ok ((FrameOf.refl i k).setReg _)
  · rename_i valid
    apply Ensures.bind (vfsClose_ensures (by simpa using valid) _ fun sixteen => by simp [Overruns, call, sixteen])
    rintro ⟨r, files⟩ -
    exact Ensures.ok (((FrameOf.refl i k).setFiles _).setReg _)

include running in
theorem processRead_frame (call : p.syscall = some .read) :
    Ensures (processRead k i p answers) (FrameOf κ i k) (CallFault p answers) := by
  have overruns : (p.syscallState.regs 1).toNat = 16 → Overruns p answers := fun sixteen => by
    simp [Overruns, call, sixteen]
  unfold processRead
  split
  · exact Ensures.ok ((FrameOf.refl i k).setReg _)
  · rename_i invalid
    have valid : validateFd (p.syscallState.regs 1) = true := by simpa using invalid
    apply Ensures.bind (derefFile_ensures valid _ overruns)
    intro file _
    apply Ensures.bind (fileReg_ensures k file)
    intro reg _
    split
    · apply Ensures.bind (kmalloc_ensures p _ _)
      rintro ⟨ksBuff, heap⟩ allocated
      have allotted : FrameOf κ i k { k with heap := heap } := (FrameOf.refl i k).heap heap
      refine Ensures.bind (vfsBlocking_frame allotted valid _ overruns) ?_
      rintro ⟨_, files, r⟩ served
      apply Ensures.bind (kfree_ensures p allocated _)
      intro heap _
      apply Ensures.ok
      refine FrameOf.setReg (FrameOf.setFiles (FrameOf.heap ?_ _) _) _
      split
      · exact served.memcpyToUserspace running _ _ _ _
      · exact served
    · have same : FrameOf κ i k k := FrameOf.refl i k
      refine Ensures.bind (vfsBlocking_frame same valid _ overruns) ?_
      rintro ⟨_, files, r⟩ served
      exact Ensures.ok ((served.setFiles _).setReg _)

include running in
theorem processWrite_frame (call : p.syscall = some .write) :
    Ensures (processWrite k i p answers) (FrameOf κ i k) (CallFault p answers) := by
  have overruns : (p.syscallState.regs 1).toNat = 16 → Overruns p answers := fun sixteen => by
    simp [Overruns, call, sixteen]
  unfold processWrite
  split
  · exact Ensures.ok ((FrameOf.refl i k).setReg _)
  · rename_i invalid
    have valid : validateFd (p.syscallState.regs 1) = true := by simpa using invalid
    apply Ensures.bind (derefFile_ensures valid _ overruns)
    intro file _
    apply Ensures.bind (fileReg_ensures k file)
    intro reg _
    split
    · apply Ensures.bind (kmalloc_ensures p _ _)
      rintro ⟨ksBuff, heap⟩ allocated
      have copied : FrameOf κ i k { (memcpyFromUserspace k p (p.syscallState.regs 2)
          (p.syscallState.regs 3)).1 with heap := heap } :=
        ((FrameOf.refl i k).memcpyFromUserspace running _ _ _).heap heap
      refine Ensures.bind (vfsBlocking_frame copied valid _ overruns) ?_
      rintro ⟨_, files, r⟩ served
      apply Ensures.bind (kfree_ensures p allocated _)
      intro heap _
      exact Ensures.ok (((served.heap _).setFiles _).setReg _)
    · have same : FrameOf κ i k k := FrameOf.refl i k
      refine Ensures.bind (vfsBlocking_frame same valid _ overruns) ?_
      rintro ⟨_, files, r⟩ served
      exact Ensures.ok ((served.setFiles _).setReg _)

theorem processFcntl_frame (call : p.syscall = some .fcntl) :
    Ensures (processFcntl k i p answers) (FrameOf κ i k) (CallFault p answers) := by
  unfold processFcntl
  split
  · exact Ensures.ok ((FrameOf.refl i k).setReg _)
  rename_i invalid
  have valid : validateFd (p.syscallState.regs 1) = true := by simpa using invalid
  split
  · rename_i flags
    apply Ensures.bind (derefFile_ensures valid _ fun sixteen => by simp [Overruns, call, sixteen, flags])
    intro file inside
    apply Ensures.bind (storeFile_ensures inside _ _)
    intro files _
    exact Ensures.ok (((FrameOf.refl i k).setFiles _).setReg _)
  split
  · rename_i custom
    apply Ensures.bind (vfsFioCtl_ensures valid _ fun sixteen => by simp [Overruns, call, sixteen, custom])
    rintro ⟨files, r⟩ -
    exact Ensures.ok (((FrameOf.refl i k).setFiles _).setReg _)
  · exact Ensures.ok ((FrameOf.refl i k).setReg _)

include running in
theorem processProcinfo_frame : Ensures (processProcinfo k i p) (FrameOf κ i k) (CallFault p answers) := by
  unfold processProcinfo
  dsimp only
  split
  · exact Ensures.ok ((FrameOf.refl i k).setReg _)
  · exact Ensures.ok (((FrameOf.refl i k).memcpyToUserspace running _ _ _ _).setReg _)

include running in
theorem processMqsend_frame : Ensures (processMqsend k i p answers) (FrameOf κ i k) (CallFault p answers) := by
  unfold processMqsend
  apply Ensures.bind (kmalloc_ensures p _ _)
  rintro ⟨data, heap⟩ -
  exact Ensures.ok ((((FrameOf.refl i k).memcpyFromUserspace running _ _ _).heap _).setReg _)

include running in
theorem processMqrecv_frame : Ensures (processMqrecv k i p answers) (FrameOf κ i k) (CallFault p answers) := by
  unfold processMqrecv
  split
  · exact Ensures.ok ((FrameOf.refl i k).setReg _)
  · apply Ensures.ok
    refine FrameOf.setReg ?_ _
    exact ((FrameOf.refl i k).memcpyToUserspace running _ _ _ _).memcpyToUserspace running _ _ _ _

structure Fresh (child : Proc) : Prop where
  state : child.state = .unloaded
  type : child.type = .user
  queue : child.signalQueue = []
  sema : child.signalSema = 0

theorem schedInitUserThread_ensures (stale : Proc) :
    Ensures (schedInitUserThread k stale) (fun k' => ∃ child, Fresh child ∧
      k'.procs = k.procs ++ [child] ∧ k'.currentProc = k.currentProc) (CallFault p answers) := by
  unfold schedInitUserThread
  apply Ensures.bind (kmalloc_ensures p _ _)
  rintro ⟨addr, heap⟩ -
  apply Ensures.bind (kmalloc_ensures p _ _)
  rintro ⟨node, heap⟩ -
  exact Ensures.ok ⟨_, ⟨rfl, rfl, rfl, rfl⟩, rfl, rfl⟩

structure Begun (κ : Proc → Proc) (i : Nat) (k k' : KernelState) (child : Nat) : Prop where
  position : child = k.procs.length
  begun : ∃ k₁ new, FrameOf κ i k k₁ ∧ Fresh new ∧ k'.procs = k₁.procs ++ [new] ∧
    k'.currentProc = k.currentProc

omit [Steady κ] in
theorem FrameOf.length (f : FrameOf κ i k k') : k'.procs.length = k.procs.length := by
  simpa using congrArg List.length (f.map (π := fun _ => ()) fun _ => rfl)

include running in
theorem execBegin_frameOf (answers : Answers) (call : p.syscall = some .exec) :
    Ensures (execBegin k i p answers) (fun out => match out.2 with
      | none => FrameOf κ i k out.1
      | some child => Begun κ i k out.1 child) (CallFault p answers) := by
  have same : FrameOf κ i k k := FrameOf.refl i k
  have overruns : (p.syscallState.regs 1).toNat = 16 → Overruns p answers := fun sixteen => by
    simp [Overruns, call, sixteen]
  unfold execBegin
  split
  · exact Ensures.ok ((FrameOf.refl i k).setReg _)
  · rename_i invalid
    refine Ensures.bind (vfsBlocking_frame same (by simpa using invalid) _ overruns) ?_
    rintro ⟨k₁, files, r⟩ served
    have filed : FrameOf κ i k (k₁.setFiles i files) := served.setFiles files
    dsimp only
    split
    · exact Ensures.ok ((filed.log running).setReg _)
    · split
      · exact Ensures.ok ((filed.log running).setReg _)
      · apply Ensures.bind (schedInitUserThread_ensures _)
        rintro k' ⟨child, fresh, procs, current⟩
        apply Ensures.bind (bounded_ensures fun more => by simp [Overruns, call, Nat.le_of_lt_succ more])
        intro _ _
        exact Ensures.ok ⟨filed.length, _, child, filed, fresh, procs, current.trans filed.current⟩

omit [Steady κ] in
include running in
theorem execBegin_frame (answers : Answers) (call : p.syscall = some .exec) :
    Ensures (execBegin k i p answers) (fun out => match out.2 with
      | none => Frame i k out.1
      | some child => Begun core i k out.1 child) (CallFault p answers) :=
  execBegin_frameOf running answers call

def Ordinary : Option Syscall → Prop
  | some .pgmap | some .sigsend | some .sighdlrret | some .sigwait | some .exit | some .exec => False
  | _ => True

include running in
theorem processSyscall_steady (answers : Answers) (ordinary : Ordinary p.syscall)
    (ticks : p.syscall = some .clockticks →
      ∀ q w, κ { q with syscallState := q.syscallState.setReg 1 w } = κ q)
    (alarm : p.syscall = some .alarmset → ∀ q ticks, κ { q with alarmTicks := ticks } = κ q) :
    Ensures (processSyscall k i p answers) (FrameOf κ i k) (CallFault p answers) := by
  have same : FrameOf κ i k k := FrameOf.refl i k
  unfold processSyscall
  cases call : p.syscall with
  | none => exact Ensures.ok ((same.log running).setReg _)
  | some syscall =>
    rw [call] at ordinary
    cases syscall with
    | pgmap | sigsend | sighdlrret | sigwait | exit | exec => exact ordinary.elim
    | dump => exact Ensures.ok (same.log running)
    | print => exact processPrint_frame running call
    | «open» => exact processOpen_frame running
    | close => exact processClose_frame call
    | read => exact processRead_frame running call
    | write => exact processWrite_frame running call
    | fcntl => exact processFcntl_frame call
    | procinfo => exact processProcinfo_frame running
    | sigaction =>
      refine Ensures.ok (same.modify fun q => ?_)
      exact (Steady.sighandler { q with syscallState := q.syscallState.setReg 0 q.sighandler } _).trans
        (Steady.answer q q.sighandler)
    | clockticks => exact Ensures.ok ((same.setReg _).modify fun q => ticks call q _)
    | alarmset => exact Ensures.ok (same.modify fun q => alarm call q _)
    | mqcreat => exact Ensures.ok (same.setReg _)
    | mqsend => exact processMqsend_frame running
    | mqrecv => exact processMqrecv_frame running

omit [Steady κ] in
include running in
theorem processSyscall_frameOf [Blind κ] (answers : Answers) (ordinary : Ordinary p.syscall)
    (ticks : p.syscall = some .clockticks →
      ∀ q w, κ { q with syscallState := q.syscallState.setReg 1 w } = κ q) :
    Ensures (processSyscall k i p answers) (FrameOf κ i k) (CallFault p answers) :=
  processSyscall_steady running answers ordinary ticks fun _ => Blind.alarmTicks

omit [Steady κ] in
include running in
theorem processSyscall_frame (answers : Answers) (ordinary : Ordinary p.syscall) :
    Ensures (processSyscall k i p answers) (Frame i k) (CallFault p answers) :=
  processSyscall_frameOf running answers ordinary fun _ _ _ => rfl

end

end PiOS.Proof
