import PiOS.Proof.Tables

namespace PiOS.Proof.ProcInfo
open Kernel Tables Transition

variable {k : KernelState} {i j : Nat} {p q : Proc}

theorem marked_bit {mask : Word} {e f : Fin 16} :
    (mask ||| ((1 <<< f.val : Nat) : Word)).getLsbD e.val = (mask.getLsbD e.val || decide (f = e)) := by
  have own : ((1 <<< f.val : Nat) : Word).getLsbD e.val = decide (f = e) := by
    decide +revert
  rw [BitVec.getLsbD_or, own]

theorem foldl_marked_bit {mapped : Word → Bool} {table : Fin 16 → Word} (list : List (Fin 16)) (mask : Word)
    (e : Fin 16) :
    (list.foldl (fun (mask : Word) f => if mapped (table f) then mask ||| (1 <<< f.val) else mask) mask).getLsbD e.val =
      (mask.getLsbD e.val || (decide (e ∈ list) && mapped (table e))) := by
  induction list generalizing mask with
  | nil => simp
  | cons f list ih =>
    rw [List.foldl_cons, ih]
    by_cases same : f = e
    · subst same
      cases shown : mapped (table f) with
      | false => simp
      | true => simp only [↓reduceIte, marked_bit, decide_true, Bool.or_true, Bool.true_or, List.mem_cons, true_or, Bool.true_and]
    · have other : (if mapped (table f) then mask ||| ((1 <<< f.val : Nat) : Word) else mask).getLsbD e.val = mask.getLsbD e.val := by
        split
        · rw [marked_bit, decide_eq_false same, Bool.or_false]
        · rfl
      rw [other]
      simp [Ne.symm same]

theorem pagesMapped_bit (table : Fin 16 → Word) (mapped : Word → Bool) (e : Fin 16) :
    (pagesMapped table mapped).getLsbD e.val = mapped (table e) := by
  rw [pagesMapped, foldl_marked_bit]
  simp

def IsPage (entry : Word) : Prop := entry ≠ illegalPage ∧ entry ≠ unmappedPage

instance (entry : Word) : Decidable (IsPage entry) := inferInstanceAs (Decidable (_ ∧ _))

def Describes (info : List Byte) (t : PageTables) : Prop :=
  ∀ e : Fin 16, ((wordAt info 4).getLsbD e.val = true ↔ IsPage (t.1 e)) ∧
    ((wordAt info 5).getLsbD e.val = true ↔ IsPage (t.2 e))

instance (info : List Byte) (t : PageTables) : Decidable (Describes info t) := by
  unfold Describes
  infer_instance

def programTables (place : Phase) (q : Proc) : PageTables :=
  tables (if place = .user then q.procState else q.syscallState)

def asked (k : KernelState) (i : Nat) (p : Proc) : Option Nat :=
  if p.syscallState.regs 1 ≠ 0 then procByPid k.procs (p.syscallState.regs 1) else some i

theorem procInfo_masks (q : Proc) (e : Fin 16) :
    ((wordAt (procInfo q) 4).getLsbD e.val = true ↔ IsPage (q.syscallState.memPages e)) ∧
      ((wordAt (procInfo q) 5).getLsbD e.val = true ↔ q.syscallState.progPages e ≠ 0) := by
  rw [procInfo, wordAt_wordBytes, wordAt_wordBytes]
  constructor
  · show (pagesMapped q.syscallState.memPages fun w => w ≠ 0 && w ≠ 0xff).getLsbD e.val = true ↔ _
    rw [pagesMapped_bit, Bool.and_eq_true, decide_eq_true_iff, decide_eq_true_iff]
    rfl
  · show (pagesMapped q.syscallState.progPages fun w => w ≠ 0).getLsbD e.val = true ↔ _
    rw [pagesMapped_bit, decide_eq_true_iff]

theorem processProcinfo_asked (here : k.procs[i]? = some p) (target : asked k i p = some j)
    (there : k.procs[j]? = some q) :
    processProcinfo k i p = .ok ((memcpyToUserspace k p (p.syscallState.regs 2) (procInfo q)
      (BitVec.ofNat 16 (procInfo q).length)).setReg i 0 0) := by
  unfold processProcinfo
  unfold asked at target
  split at target
  · rename_i named
    rw [if_pos named, target, Option.bind_some, there]
  · rename_i own
    obtain rfl := Option.some.inj target
    obtain rfl := Option.some.inj (here.symm.trans there)
    rw [if_neg own]

/-- `SYS_PROCINFO` shows the tables in `syscall_state`, in which a program slot counts as mapped unless it is
zero. -/
theorem procinfo_describes_iff {m : Machine} (answers : Answers) (goes : m.halted = none)
    (running : m.kernel.currentProc = some i) (here : m.kernel.procs[i]? = some p) (place : m.phase i = .body)
    (call : p.syscall = some .procinfo) (target : asked m.kernel i p = some j)
    (there : m.kernel.procs[j]? = some q) :
    ∃ info, (m.step (.call answers)).map Machine.kernel = some
        ((memcpyToUserspace m.kernel p (p.syscallState.regs 2) info (BitVec.ofNat 16 info.length)).setReg i 0 0) ∧
      (Describes info (programTables (m.phase j) q) ↔
        ∀ e, (IsPage (q.syscallState.memPages e) ↔ IsPage ((programTables (m.phase j) q).1 e)) ∧
          (q.syscallState.progPages e ≠ 0 ↔ IsPage ((programTables (m.phase j) q).2 e))) := by
  have served : processSyscall m.kernel i p answers = processProcinfo m.kernel i p := by
    rw [processSyscall, call]
  have stepped : m.step (.call answers) = m.call i p answers := by
    simp [Machine.step, goes, running, here, Machine.act, place]
  refine ⟨procInfo q, ?_, ?_⟩
  · rw [stepped, Machine.call, call]
    dsimp only
    rw [served, processProcinfo_asked here target there]
    rfl
  · apply forall_congr'
    intro e
    rw [(procInfo_masks q e).1, (procInfo_masks q e).2]

def fullProgram : Proc :=
  enterSyscall { userProc 1 0 0x211 with
    procState :=
      { (userProc 1 0 0x211).procState.setReg 0 Syscall.procinfo.number with
        progPages := fun e => 0x11 + BitVec.ofNat 16 e } }

def asking : Machine :=
  { Machine.start (runningFirst [fullProgram]) with phase := Function.update (fun _ => .user) 0 .body }

theorem procinfo_describes_asking :
    ∃ info, (asking.step (.call (.refusing fun _ _ => 0))).map Machine.kernel = some
        ((memcpyToUserspace asking.kernel fullProgram 0 info (BitVec.ofNat 16 info.length)).setReg 0 0 0) ∧
      Describes info (tables fullProgram.syscallState) := by
  obtain ⟨info, served, masks⟩ := procinfo_describes_iff (m := asking) (i := 0) (j := 0)
    (.refusing fun _ _ => 0) rfl rfl rfl rfl (by decide) rfl rfl
  exact ⟨info, served, masks.mpr (by decide)⟩

theorem procinfo_shows_old_tables :
    ∃ m p q, run Machine.step (Machine.start (runningFirst [userProc 1 0 0x211, userProc 2 0 0x213]))
        [.trap (userRegs Syscall.procinfo.number 2 0xf000 0 false)] = some m ∧
      m.kernel.procs = [p, q] ∧ asked m.kernel 0 p = some 1 ∧
      ¬Describes (procInfo q) (programTables (m.phase 1) q) ∧
      ¬Describes (procInfo p) (programTables (m.phase 0) p) := by
  refine ⟨_, _, _, rfl, rfl, by decide, by decide, by decide⟩

end PiOS.Proof.ProcInfo
