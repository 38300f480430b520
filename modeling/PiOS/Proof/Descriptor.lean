import PiOS.Proof.Frame

namespace PiOS.Proof.Descriptor
open Kernel Function

def Closed (files : FdTable) (fd : Word) : Prop :=
  ∀ inside : fd.toNat < 16, (files ⟨fd.toNat, inside⟩).inode = none

def TakesDescriptor : Option Syscall → Prop
  | some .close | some .read | some .write | some .fcntl | some .exec => True
  | _ => False

def Rejected (k : KernelState) (i : Nat) (outcome : Except Stop KernelState) : Prop :=
  ∃ w : Word, w.Negative ∧ outcome = .ok (k.setReg i 0 w)

def newFlags (p : Proc) (inside : (p.syscallState.regs 1).toNat < 16) : ProcFile :=
  if p.syscallState.regs 3 ≠ -1 then
    { p.openFiles ⟨_, inside⟩ with fcntlFlags := p.syscallState.regs 3 }
  else
    p.openFiles ⟨_, inside⟩

def FlagsNegative (p : Proc) : Prop :=
  ∃ inside : (p.syscallState.regs 1).toNat < 16,
    (p.openFiles ⟨_, inside⟩).fcntlFlags.Negative ∧
    (p.syscallState.regs 3 = -1 ∨ p.syscallState.regs 3 = (p.openFiles ⟨_, inside⟩).fcntlFlags)

def Checked (p : Proc) : Prop :=
  match p.syscall with
  | some .close | some .exec => (p.syscallState.regs 1).toNat ≠ 16
  | some .read | some .write => 16 < (p.syscallState.regs 1).toNat
  | some .fcntl =>
    if p.syscallState.regs 2 = fFlags then
      16 < (p.syscallState.regs 1).toNat ∨ FlagsNegative p
    else
      (p.syscallState.regs 1).toNat = 16 → (p.syscallState.regs 2).toInt < fDriverCustomStart.toInt
  | _ => True

section

variable {k : KernelState} {i : Nat} {p : Proc} {answers : Answers} {files : FdTable} {fd : Word}

theorem setFiles_same (here : k.procs[i]? = some p) : k.setFiles i p.openFiles = k := by
  have same : k.procs.modify i (fun p' => { p' with openFiles := p.openFiles }) = k.procs := by
    apply List.ext_getElem?
    intro j
    by_cases own : j = i
    · simp [own, here]
    · simp [Ne.symm own]
  simp only [KernelState.setFiles, KernelState.modifyProc, same]

theorem mapPageZero_same (running : k.currentProc = some i) (here : k.procs[i]? = some p) {page : Word}
    (mapped : p.procState.memPages 0 = page) : k.mapPageZero page = k := by
  unfold KernelState.mapPageZero
  rw [running]
  cases k.intNoProcModify with
  | true => rfl
  | false =>
    have same : k.procs.modify i (fun p' => { p' with procState := { p'.procState with
        memPages := update p'.procState.memPages 0 page } }) = k.procs := by
      apply List.ext_getElem?
      intro j
      by_cases own : j = i
      · simp [own, here, ← mapped]
      · simp [Ne.symm own]
    simp only [KernelState.modifyProc, same]

theorem setFiles_setReg_inj (here : k.procs[i]? = some p) {v w : Word} :
    (k.setFiles i files).setReg i 0 v = k.setReg i 0 w ↔ files = p.openFiles ∧ v = w := by
  constructor
  · intro same
    have own := congrArg (fun k : KernelState => k.procs[i]?) same
    simp only [KernelState.setReg, KernelState.setFiles, modifyProc_self, here, Option.map_some,
      Option.some.injEq, Proc.mk.injEq, ProcState.setReg, ProcState.mk.injEq] at own
    refine ⟨own.2.2.2.2.2.2.2.1, ?_⟩
    simpa using congrFun own.2.2.2.2.2.1.1 0
  · rintro ⟨rfl, rfl⟩
    rw [setFiles_same here]

theorem derefFile_inside (inside : fd.toNat < 16) :
    derefFile files fd = .ok (files ⟨fd.toNat, inside⟩) := dif_pos inside

theorem storeFile_inside (inside : fd.toNat < 16) (file : ProcFile) :
    storeFile files fd file = .ok (update files ⟨fd.toNat, inside⟩ file) := dif_pos inside

end

theorem derefFile_sixteen {files : FdTable} {fd : Word} (sixteen : fd.toNat = 16) :
    derefFile files fd = .error .outOfBounds := dif_neg (by simp [sixteen])

theorem fd_cases (fd : Word) : 16 < fd.toNat ∧ validateFd fd = false ∨ fd.toNat = 16 ∧ validateFd fd = true ∨
      fd.toNat < 16 ∧ validateFd fd = true := by
  simp only [validateFd_eq]
  rcases Nat.lt_trichotomy fd.toNat 16 with less | equal | more
  · exact Or.inr (Or.inr ⟨less, by simp [less.le]⟩)
  · exact Or.inr (Or.inl ⟨equal, by simp [equal]⟩)
  · exact Or.inl ⟨more, by simp [more]⟩

section

variable {k : KernelState} {i : Nat} {p : Proc} {answers : Answers} {outcome : Except Stop KernelState}

theorem rejected_ok {w : Word} (negative : w.Negative)
    (result : outcome = .ok (k.setReg i 0 w)) : Rejected k i outcome := ⟨w, negative, result⟩

theorem not_rejected_error (stop : Stop) (result : outcome = .error stop) : ¬ Rejected k i outcome := by
  rintro ⟨w, -, other⟩
  rw [result] at other
  cases other

variable (closed : Closed p.openFiles (p.syscallState.regs 1))
include closed

theorem processRead_rejected_iff : Rejected k i (processRead k i p answers) ↔ 16 < (p.syscallState.regs 1).toNat := by
  rcases fd_cases (p.syscallState.regs 1) with ⟨big, valid⟩ | ⟨sixteen, valid⟩ | ⟨inside, valid⟩
  · refine iff_of_true (rejected_ok (w := -ebadfd) (by decide) ?_) big
    simp [processRead, valid]
  · refine iff_of_false (not_rejected_error .outOfBounds ?_) (by simp [sixteen])
    simp [processRead, valid, derefFile_sixteen sixteen, bind, Except.bind]
  · refine iff_of_false (not_rejected_error .nullDereference ?_) (by simp [inside.le])
    simp [processRead, valid, derefFile_inside inside, fileReg, closed inside, bind, Except.bind]

theorem processWrite_rejected_iff : Rejected k i (processWrite k i p answers) ↔ 16 < (p.syscallState.regs 1).toNat := by
  rcases fd_cases (p.syscallState.regs 1) with ⟨big, valid⟩ | ⟨sixteen, valid⟩ | ⟨inside, valid⟩
  · refine iff_of_true (rejected_ok (w := -ebadfd) (by decide) ?_) big
    simp [processWrite, valid]
  · refine iff_of_false (not_rejected_error .outOfBounds ?_) (by simp [sixteen])
    simp [processWrite, valid, derefFile_sixteen sixteen, bind, Except.bind]
  · refine iff_of_false (not_rejected_error .nullDereference ?_) (by simp [inside.le])
    simp [processWrite, valid, derefFile_inside inside, fileReg, closed inside, bind, Except.bind]

variable (here : k.procs[i]? = some p)
include here

theorem processClose_rejected_iff : Rejected k i (processClose k i p) ↔ (p.syscallState.regs 1).toNat ≠ 16 := by
  rcases fd_cases (p.syscallState.regs 1) with ⟨big, valid⟩ | ⟨sixteen, valid⟩ | ⟨inside, valid⟩
  · refine iff_of_true (rejected_ok (w := -ebadfd) (by decide) ?_) big.ne'
    simp [processClose, valid]
  · refine iff_of_false (not_rejected_error .outOfBounds ?_) (by simp [sixteen])
    simp [processClose, valid, vfsClose, derefFile_sixteen sixteen, bind, Except.bind]
  · refine iff_of_true (rejected_ok (w := -ebadfd) (by decide) ?_) inside.ne
    simp [processClose, valid, vfsClose, derefFile_inside inside, closed inside, bind, Except.bind,
      setFiles_same here]

theorem processExec_rejected_iff (running : k.currentProc = some i) (illegal : p.procState.memPages 0 = illegalPage) :
    Rejected k i (processExec k i p answers) ↔ (p.syscallState.regs 1).toNat ≠ 16 := by
  rcases fd_cases (p.syscallState.regs 1) with ⟨big, valid⟩ | ⟨sixteen, valid⟩ | ⟨inside, valid⟩
  · refine iff_of_true (rejected_ok (w := -ebadfd) (by decide) ?_) big.ne'
    simp [processExec, execBegin, valid, bind, Except.bind]
  · refine iff_of_false (not_rejected_error .outOfBounds ?_) (by simp [sixteen])
    simp [processExec, execBegin, valid, vfsBlocking, derefFile_sixteen sixteen, bind, Except.bind]
  · refine iff_of_true (rejected_ok (w := -ebadfd) (by decide) ?_) inside.ne
    have short : -ebadfd ≠ headerSize := by decide
    have logged : k.log = k := mapPageZero_same running here illegal
    simp [processExec, execBegin, valid, vfsBlocking, derefFile_inside inside, closed inside, bind,
      Except.bind, setFiles_same here, short, logged]

-- `F_FLAGS` does not look whether the slot is open
omit closed in
theorem processFcntl_flags (inside : (p.syscallState.regs 1).toNat < 16) (flags : p.syscallState.regs 2 = fFlags) :
    Rejected k i (processFcntl k i p answers) ↔ FlagsNegative p := by
  have valid : validateFd (p.syscallState.regs 1) = true := by simp [validateFd_eq, inside.le]
  have outcome : processFcntl k i p answers = .ok ((k.setFiles i (update p.openFiles ⟨_, inside⟩
      (newFlags p inside))).setReg i 0 (newFlags p inside).fcntlFlags) := by
    simp [processFcntl, valid, flags, derefFile_inside inside, storeFile_inside inside, bind, Except.bind,
      newFlags]
  have unchanged : update p.openFiles ⟨_, inside⟩ (newFlags p inside) = p.openFiles ↔
      newFlags p inside = p.openFiles ⟨_, inside⟩ := update_eq_self_iff
  simp only [Rejected, outcome, Except.ok.injEq, setFiles_setReg_inj here, unchanged, FlagsNegative]
  constructor
  · rintro ⟨w, negative, same, rfl⟩
    rw [same] at negative
    refine ⟨inside, negative, ?_⟩
    by_cases keep : p.syscallState.regs 3 = -1
    · exact Or.inl keep
    · right
      rw [newFlags, if_pos keep] at same
      exact congrArg ProcFile.fcntlFlags same
  · rintro ⟨_, negative, stays⟩
    have same : newFlags p inside = p.openFiles ⟨_, inside⟩ := by
      rcases stays with keep | equal
      · simp [newFlags, keep]
      · simp [newFlags, equal]
    exact ⟨_, negative, same, by rw [same]⟩

theorem processFcntl_rejected_iff : Rejected k i (processFcntl k i p answers) ↔
    if p.syscallState.regs 2 = fFlags then
      16 < (p.syscallState.regs 1).toNat ∨ FlagsNegative p
    else
      (p.syscallState.regs 1).toNat = 16 →
        (p.syscallState.regs 2).toInt < fDriverCustomStart.toInt := by
  by_cases flags : p.syscallState.regs 2 = fFlags
  · rw [if_pos flags]
    rcases fd_cases (p.syscallState.regs 1) with ⟨big, valid⟩ | ⟨sixteen, valid⟩ | ⟨inside, valid⟩
    · refine iff_of_true (rejected_ok (w := -ebadfd) (by decide) ?_) (Or.inl big)
      simp [processFcntl, valid]
    · refine iff_of_false (not_rejected_error .outOfBounds ?_) ?_
      · simp [processFcntl, valid, flags, derefFile_sixteen sixteen, bind, Except.bind]
      · rintro (big | ⟨inside, -⟩)
        · exact absurd sixteen big.ne'
        · exact absurd sixteen inside.ne
    · rw [processFcntl_flags here inside flags]
      simp [inside.le]
  · rw [if_neg flags]
    by_cases custom : (p.syscallState.regs 2).toInt < fDriverCustomStart.toInt
    · refine iff_of_true ?_ fun _ => custom
      by_cases valid : validateFd (p.syscallState.regs 1) = true
      · refine rejected_ok (w := -einval) (by decide) ?_
        simp [processFcntl, valid, flags, not_le.mpr custom]
      · refine rejected_ok (w := -ebadfd) (by decide) ?_
        simp [processFcntl, valid]
    · rcases fd_cases (p.syscallState.regs 1) with ⟨big, valid⟩ | ⟨sixteen, valid⟩ | ⟨inside, valid⟩
      · refine iff_of_true (rejected_ok (w := -ebadfd) (by decide) ?_) fun sixteen => absurd sixteen big.ne'
        simp [processFcntl, valid]
      · refine iff_of_false (not_rejected_error .outOfBounds ?_) fun small => custom (small sixteen)
        simp [processFcntl, valid, flags, not_lt.mp custom, vfsFioCtl, derefFile_sixteen sixteen, bind,
          Except.bind]
      · refine iff_of_true (rejected_ok (w := -ebadfd) (by decide) ?_) fun sixteen => absurd sixteen inside.ne
        simp [processFcntl, valid, flags, not_lt.mp custom, vfsFioCtl, derefFile_inside inside,
          closed inside, bind, Except.bind, setFiles_same here]

end

/-- The exceptions are slot 16, which `validate_fd` lets through, and the files that `SYS_READ`, `SYS_WRITE` and
`F_FLAGS` use without asking whether they are open. -/
theorem rejected_iff_checked (k : KernelState) (i : Nat) (p : Proc) (answers : Answers)
    (running : k.currentProc = some i) (here : k.procs[i]? = some p)
    (illegal : p.procState.memPages 0 = illegalPage) (takes : TakesDescriptor p.syscall)
    (closed : Closed p.openFiles (p.syscallState.regs 1)) :
    Rejected k i (processSyscall k i p answers) ↔ Checked p := by
  unfold processSyscall Checked
  cases call : p.syscall with
  | none => simp [call, TakesDescriptor] at takes
  | some syscall =>
    cases syscall with
    | close => exact processClose_rejected_iff closed here
    | read => exact processRead_rejected_iff closed
    | write => exact processWrite_rejected_iff closed
    | fcntl => exact processFcntl_rejected_iff closed here
    | exec => exact processExec_rejected_iff closed here running illegal
    | _ => simp [call, TakesDescriptor] at takes

def calling (call : Syscall) (fd : Word) : Proc :=
  enterSyscall { Proc.zero with
    type := .user
    state := .runnable
    procState := { ProcState.zero with
      regs := fun r => if r = 0 then call.number else if r = 1 then fd else 0 } }

def alone (p : Proc) : KernelState :=
  { bootKernel (fun _ _ => 0) with procs := [p], currentProc := some 0 }

theorem rejected_iff_checked_close : Rejected (alone (calling .close 3)) 0
    (processSyscall (alone (calling .close 3)) 0 (calling .close 3) (.refusing fun _ _ => 0)) :=
  (rejected_iff_checked (alone (calling .close 3)) 0 (calling .close 3) (.refusing fun _ _ => 0) rfl rfl rfl
    trivial fun _ => rfl).mpr (by decide : (3 : Word).toNat ≠ 16)

theorem closed_descriptor_accepted :
    (Closed (calling .read 3).openFiles 3 ∧
      processSyscall (alone (calling .read 3)) 0 (calling .read 3) (.refusing fun _ _ => 0) =
        .error .nullDereference ∧
      ¬ Rejected (alone (calling .read 3)) 0
        (processSyscall (alone (calling .read 3)) 0 (calling .read 3) (.refusing fun _ _ => 0))) ∧
    (Closed (calling .close 16).openFiles 16 ∧
      processSyscall (alone (calling .close 16)) 0 (calling .close 16) (.refusing fun _ _ => 0) =
        .error .outOfBounds) := by
  have read : processSyscall (alone (calling .read 3)) 0 (calling .read 3) (.refusing fun _ _ => 0) =
      .error .nullDereference := rfl
  exact ⟨⟨fun _ => rfl, read, not_rejected_error _ read⟩, fun _ => rfl, rfl⟩

end PiOS.Proof.Descriptor
