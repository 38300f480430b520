import PiOS.Proof.Context
import PiOS.Proof.SignalFrame

namespace PiOS.Proof.ExitStatus
open Kernel Transition Function

abbrev Statuses := Nat → Option Word

def ended (m : Machine) (action : Action) (m' : Machine) : Option (Nat × Word) :=
  match m.kernel.currentProc, action with
  | some i, .call _ => ((m.kernel.procs[i]?).filter fun p => p.syscall = some .exit).map fun p =>
    (i, p.syscallState.regs 1)
  | some i, .segfault _ _ => if m'.halted = none then some (i, 139) else none
  | _, _ => none

def noteExit (status : Statuses) (m : Machine) (action : Action) (m' : Machine) : Statuses :=
  (ended m action m').elim status fun said => update status said.1 (some said.2)

abbrev exitStep : Machine × Statuses → Action → Option (Machine × Statuses) := watch Machine.step noteExit

def Reports (k : KernelState) (pid status : Word) : Prop :=
  ∀ (i : Nat) (p : Proc), p.syscallState.regs 1 = pid →
    ∃ q, (procByPid k.procs pid).bind (fun j => k.procs[j]?) = some q ∧
      wordAt (procInfo q) 2 = RunState.dead.code ∧ wordAt (procInfo q) 6 = status ∧
      processProcinfo k i p = .ok ((memcpyToUserspace k p (p.syscallState.regs 2) (procInfo q)
        (BitVec.ofNat 16 (procInfo q).length)).setReg i 0 0)

def StatusObservable (w : Machine × Statuses) : Prop :=
  w.1.halted = none → ∀ j s, w.2 j = some s →
    ∃ p, w.1.kernel.procs[j]? = some p ∧ Reports w.1.kernel p.pid s

/-- `r0` holds the status when the process enters the kernel for `SYS_EXIT`, and whenever it is interrupted
afterwards; a new process gets a pid of its own. -/
def StatusKept (w : Machine × Statuses) (action : Action) : Prop :=
  ∀ i ∈ w.1.kernel.currentProc, ∀ p ∈ w.1.kernel.procs[i]?, match action with
    | .call _ =>
      (p.syscall = some .exit → p.procState.regs 0 = p.syscallState.regs 1) ∧
      (p.syscall = some .exec → w.1.kernel.pidNow + 1 ≠ 0 ∧
        ∀ q ∈ w.1.kernel.procs, q.pid ≠ w.1.kernel.pidNow + 1)
    | .irq state _ => ∀ s ∈ w.2 i, state.regs 0 = s
    | _ => True

instance (w : Machine × Statuses) (action : Action) : Decidable (StatusKept w action) := by
  -- looks at the status on record, where the instance for words would try all of them
  have noted (i : Nat) (state : IntHandlerState) : Decidable (∀ s ∈ w.2 i, state.regs 0 = s) :=
    Option.decidableForallMem _
  apply @Kernel.Action.casesOn (fun action => Decidable (StatusKept w action)) action <;> intros <;>
    dsimp only [StatusKept] <;> infer_instance

def PidsApart (procs : List Proc) : Prop := (procs.map Proc.pid).Nodup ∧ ∀ p ∈ procs, p.pid ≠ 0

instance (procs : List Proc) : Decidable (PidsApart procs) := by
  unfold PidsApart
  infer_instance

structure ExitInv (w : Machine × Statuses) : Prop where
  stand : Stands w.1
  pids : PidsApart w.1.kernel.procs
  kept : ∀ j s, w.2 j = some s →
    ∃ p, w.1.kernel.procs[j]? = some p ∧ p.state = .dead ∧ p.procState.regs 0 = s

variable {j : Nat} {procs : List Proc} {action : Action}

theorem PidsApart.same (pids : PidsApart procs) {i : Nat} {p q : Proc}
    (hereI : procs[i]? = some p) (hereJ : procs[j]? = some q) (equal : p.pid = q.pid) : i = j := by
  have inside : i < (procs.map Proc.pid).length := by simpa using (List.getElem?_eq_some_iff.mp hereI).1
  apply (List.getElem?_inj inside pids.1).mp
  simp only [List.getElem?_map, hereI, hereJ, Option.map_some, equal]

theorem pidsApart_of
    (same : ∀ (i j : Nat) (p q : Proc), procs[i]? = some p → procs[j]? = some q → p.pid = q.pid → i = j)
    (nonzero : ∀ (i : Nat) (p : Proc), procs[i]? = some p → p.pid ≠ 0) : PidsApart procs := by
  refine ⟨List.nodup_iff_getElem?_ne_getElem?.mpr fun i j before inside equal => ?_, fun p listed => ?_⟩
  · rw [List.length_map] at inside
    rw [List.getElem?_map, List.getElem?_map, List.getElem?_eq_getElem (before.trans inside),
      List.getElem?_eq_getElem inside] at equal
    have one := same i j _ _ (List.getElem?_eq_getElem (before.trans inside)) (List.getElem?_eq_getElem inside)
      (Option.some.inj equal)
    exact before.ne one
  · obtain ⟨i, here⟩ := List.getElem?_of_mem listed
    exact nonzero i p here

theorem procByPid_self (pids : PidsApart procs) {p : Proc}
    (here : procs[j]? = some p) : procByPid procs p.pid = some j := by
  cases found : procByPid procs p.pid with
  | none =>
    have missing := List.findIdx?_eq_none_iff.mp found p (List.mem_of_getElem? here)
    simp at missing
  | some i =>
    obtain ⟨small, matched, -⟩ := List.findIdx?_eq_some_iff_getElem.mp found
    rw [pids.same (List.getElem?_eq_getElem small) here (of_decide_eq_true matched)]

theorem ExitInv.observable {w : Machine × Statuses} (inv : ExitInv w) : StatusObservable w := by
  intro _ j s noted
  obtain ⟨p, here, dead, rc⟩ := inv.kept j s noted
  have target : (procByPid w.1.kernel.procs p.pid).bind (fun j => w.1.kernel.procs[j]?) = some p := by
    rw [procByPid_self inv.pids here]
    exact here
  refine ⟨p, here, fun i caller asked => ⟨p, target, ?_, ?_, ?_⟩⟩
  · rw [procInfo, wordAt_wordBytes, dead]
    rfl
  · rw [procInfo, wordAt_wordBytes, dead, ← rc]
    rfl
  · have known : caller.syscallState.regs 1 ≠ 0 := by
      rw [asked]
      exact inv.pids.2 p (List.mem_of_getElem? here)
    unfold processProcinfo
    rw [if_pos known, asked, target]

theorem ended_cases {m m' : Machine} {s : Word}
    (said : ended m action m' = some (j, s)) : m.kernel.currentProc = some j ∧
      ((∃ answers p, action = .call answers ∧ m.kernel.procs[j]? = some p ∧ p.syscall = some .exit ∧
        p.syscallState.regs 1 = s) ∨ ∃ state fuel, action = .segfault state fuel ∧ s = 139) := by
  unfold ended at said
  split at said
  · rename_i i answers running
    obtain ⟨p, found, pair⟩ := Option.map_eq_some_iff.mp said
    obtain ⟨here, exits⟩ := Option.filter_eq_some_iff.mp found
    obtain ⟨rfl, rfl⟩ := Prod.mk.inj pair
    exact ⟨running, Or.inl ⟨answers, p, rfl, here, of_decide_eq_true exits, rfl⟩⟩
  · rename_i i state fuel running
    split at said
    · obtain ⟨rfl, rfl⟩ := Prod.mk.inj (Option.some.inj said)
      exact ⟨running, Or.inr ⟨state, fuel, rfl, rfl⟩⟩
    · cases said
  · cases said

theorem noteExit_cases {status : Statuses} {m m' : Machine} {s : Word}
    (noted : noteExit status m action m' j = some s) : ended m action m' = some (j, s) ∨ status j = some s := by
  unfold noteExit at noted
  cases said : ended m action m' with
  | none =>
    rw [said] at noted
    exact Or.inr noted
  | some entry =>
    rw [said] at noted
    change update status entry.1 (some entry.2) j = some s at noted
    by_cases own : j = entry.1
    · subst own
      rw [update_self] at noted
      obtain rfl := Option.some.inj noted
      exact Or.inl rfl
    · rw [update_of_ne own] at noted
      exact Or.inr noted

section

variable {m m' : Machine} {status : Statuses} {action : Action} {j : Nat} {p q : Proc} {s : Word}

theorem ownStep_dead (stand : Stands m) (running : m.kernel.currentProc = some j)
    (here : m.kernel.procs[j]? = some p) (own : OwnStep action (m.phase j) p (m'.phase j) q)
    (dead : p.state = .dead) (rc : p.procState.regs 0 = s)
    (calm : ∀ state fuel, action = .irq state fuel → state.regs 0 = s) : q.state = .dead ∧ q.procState.regs 0 = s := by
  have away : m.phase j ≠ .user := fun place => user_alive stand running here place dead
  have ended : m.phase j ≠ .body := fun place => call_alive stand running here (Or.inl place) dead
  cases own with
  | outside before | enters _ _ before | killed _ _ _ before => exact absurd before away
  | inside _ _ died regs => exact ⟨died.mpr dead, by rw [regs dead, rc]⟩
  | interrupted state fuel irq _ _ died regs => exact ⟨died.mpr dead, by rw [regs, calm state fuel irq]⟩
  | exempt before | exits _ _ before => exact absurd before ended
  | returns _ _ _ _ living | delivers _ _ living => exact absurd dead living

theorem ownStep_exit {answers : Answers} (place : m.phase j = .body) (exits : p.syscall = some .exit)
    (own : OwnStep (.call answers) (m.phase j) p (m'.phase j) q) :
    q.state = .dead ∧ q.procState.regs = p.procState.regs := by
  cases own with
  | outside before | delivers before => rw [place] at before; cases before
  | enters _ trap => cases trap
  | inside _ _ _ _ _ _ goesOn | exempt _ _ _ _ goesOn => exact absurd exits goesOn
  | interrupted _ _ irq => cases irq
  | exits _ _ _ _ _ dead regs => exact ⟨dead, regs⟩
  | returns _ leave => cases leave
  | killed _ _ segfault => cases segfault

theorem ownStep_segfault {state : IntHandlerState} {fuel : Nat} (place : m.phase j = .user)
    (own : OwnStep (.segfault state fuel) (m.phase j) p (m'.phase j) q) :
    q.state = .dead ∧ q.procState.regs 0 = 139 := by
  cases own with
  | outside _ _ _ calm => exact absurd rfl (calm state fuel)
  | enters _ trap => cases trap
  | inside before => exact absurd place before
  | interrupted _ _ irq => cases irq
  | exempt before | delivers before => rw [place] at before; cases before
  | exits _ called => cases called
  | returns _ leave => cases leave
  | killed _ _ _ _ _ dead rc => exact ⟨dead, rc⟩

theorem step_pids (pids : PidsApart m.kernel.procs) (context : ContextStep m action m')
    (kept : StatusKept (m, status) action) : PidsApart m'.kernel.procs := by
  -- every process after the step is an old one with its pid, or the new one
  have origin : ∀ (i : Nat) (r : Proc), m'.kernel.procs[i]? = some r →
      (∃ p, m.kernel.procs[i]? = some p ∧ r.pid = p.pid) ∨
        i = m.kernel.procs.length ∧ r.pid ≠ 0 ∧ ∀ p ∈ m.kernel.procs, p.pid ≠ r.pid := by
    intro i r there
    cases here : m.kernel.procs[i]? with
    | some p =>
      obtain ⟨q, same, pid⟩ := context.pid i p here
      obtain rfl := Option.some.inj (there.symm.trans same)
      exact Or.inl ⟨p, rfl, pid⟩
    | none =>
      obtain ⟨last, -, -, pid, answers, c, p, rfl, running, parent, exec⟩ := context.born i r here there
      obtain ⟨nonzero, unused⟩ := (kept c running p parent).2 exec
      exact Or.inr ⟨last, pid ▸ nonzero, fun q old => pid ▸ unused q old⟩
  refine pidsApart_of (fun i j r t thereI thereJ equal => ?_) fun i r there => ?_
  · rcases origin i r thereI with ⟨p, hereI, pidI⟩ | ⟨newI, -, freshI⟩ <;>
      rcases origin j t thereJ with ⟨q, hereJ, pidJ⟩ | ⟨newJ, -, freshJ⟩
    · exact pids.same hereI hereJ (by rw [← pidI, ← pidJ, equal])
    · exact absurd (pidI.symm.trans equal) (freshJ p (List.mem_of_getElem? hereI))
    · exact absurd (pidJ.symm.trans equal.symm) (freshI q (List.mem_of_getElem? hereJ))
    · exact newI.trans newJ.symm
  · rcases origin i r there with ⟨p, here, pid⟩ | ⟨-, nonzero, -⟩
    · rw [pid]
      exact pids.2 p (List.mem_of_getElem? here)
    · exact nonzero

theorem step_keeps (stand : Stands m) (context : ContextStep m action m') (kept : StatusKept (m, status) action)
    (noted : status j = some s) (here : m.kernel.procs[j]? = some p) (dead : p.state = .dead)
    (rc : p.procState.regs 0 = s) : ∃ q, m'.kernel.procs[j]? = some q ∧ q.state = .dead ∧ q.procState.regs 0 = s := by
  by_cases running : m.kernel.currentProc = some j
  · obtain ⟨q, there, -, own⟩ := context.own j p running here
    refine ⟨q, there, ownStep_dead stand running here own dead rc fun state fuel irq => ?_⟩
    subst irq
    exact kept j running p here s noted
  · obtain ⟨-, q, there, same | ⟨-, unloaded, -⟩⟩ := context.others j p running here
    · obtain ⟨-, died, own, -⟩ := still_eq same
      exact ⟨q, there, died.mpr dead, by rw [own, rc]⟩
    · rw [dead] at unloaded
      cases unloaded

theorem step_records (taken : m.step action = some m') (context : ContextStep m action m')
    (kept : StatusKept (m, status) action) (said : ended m action m' = some (j, s)) :
    ∃ q, m'.kernel.procs[j]? = some q ∧ q.state = .dead ∧ q.procState.regs 0 = s := by
  obtain ⟨running, ⟨answers, p, rfl, here, exits, rfl⟩ | ⟨state, fuel, rfl, rfl⟩⟩ := ended_cases said
  · obtain ⟨q, there, -, own⟩ := context.own j p running here
    obtain ⟨_, -, acted⟩ := step_act taken running
    obtain ⟨dead, regs⟩ := ownStep_exit (Option.ite_none_right_eq_some.mp acted).1 exits own
    exact ⟨q, there, dead, by rw [regs, (kept j running p here).1 exits]⟩
  · obtain ⟨p, here, acted⟩ := step_act taken running
    obtain ⟨q, there, -, own⟩ := context.own j p running here
    exact ⟨q, there, ownStep_segfault (Option.ite_none_right_eq_some.mp acted).1 own⟩

end

theorem step_exitInv {w w' : Machine × Statuses} (inv : ExitInv w) (kept : StatusKept w action)
    (watched : exitStep w action = some w') (goes : w'.1.halted = none) : ExitInv w' := by
  obtain ⟨taken, status⟩ := watch_eq_some watched
  have context := step_context inv.stand taken goes
  refine ⟨step_stands inv.stand taken goes, step_pids inv.pids context kept, fun j s noted => ?_⟩
  rw [status] at noted
  rcases noteExit_cases noted with said | before
  · exact step_records taken context kept said
  · obtain ⟨p, here, dead, rc⟩ := inv.kept j s before
    exact step_keeps inv.stand context kept before here dead rc

def threeUsers : KernelState :=
  runningFirst [userProc 1 0 0x211, userProc 2 0 0x213, userProc 3 0 0x215]

def twoEnd (status : Word) : List Action :=
  [.trap (userRegs Syscall.exit.number status 0 0 false), .call (.refusing fun _ _ => 0), .proceed, .leave 8,
    .segfault (userRegs 0 0 0 0 false) 8, tick]

end PiOS.Proof.ExitStatus
