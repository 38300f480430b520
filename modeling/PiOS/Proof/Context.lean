import PiOS.Proof.Standing

namespace PiOS.Proof
open Kernel Transition Function

def still (p : Proc) : Word × Bool × ProcState × ProcState :=
  (p.pid, p.state = .dead, p.procState, p.syscallState)

def caller (p : Proc) : Proc :=
  { p with
    procState := .zero
    syscallState := p.syscallState.setReg 0 0
    openFiles := fun _ => ⟨none, 0, 0, none⟩
    sighandler := 0
    alarmTicks := 0 }

instance : Steady caller where
  procState _ _ := rfl
  answer p w := by simp only [caller, setReg_setReg]
  openFiles _ _ := rfl
  sighandler _ _ := rfl

instance : Blind caller := ⟨fun _ _ => rfl⟩

def Exempt : Option Syscall → Prop
  | some .exit | some .sighdlrret | some .pgmap | some .clockticks => True
  | _ => False

instance (call : Option Syscall) : Decidable (Exempt call) := by
  unfold Exempt
  split <;> infer_instance

def GoesOn (p : Proc) : Action → Prop
  | .call _ => p.syscall ≠ some .exit
  | .leave _ => p.state = .dead
  | _ => True

inductive OwnStep (action : Action) (a : Phase) (p : Proc) (b : Phase) (q : Proc) : Prop
  | outside (before : a = .user) (after : b = .user) (alive : q.state ≠ .dead)
      (calm : ∀ state fuel, action ≠ .segfault state fuel)
  | enters (state : IntHandlerState) (trap : action = .trap state) (before : a = .user) (after : b = .body)
      (alive : q.state ≠ .dead) (saved : q.syscallState = p.procState.save state)
  | inside (before : a ≠ .user) (after : b ≠ .user) (dead : q.state = .dead ↔ p.state = .dead)
      (regs : p.state = .dead → q.procState.regs = p.procState.regs)
      (call : q.syscallState.setReg 0 0 = p.syscallState.setReg 0 0)
      (body : b = .body → a = .body ∧ q.syscallState = p.syscallState)
      (goesOn : GoesOn p action)
  | interrupted (state : IntHandlerState) (fuel : Nat) (irq : action = .irq state fuel) (before : a ≠ .user)
      (after : b = a) (dead : q.state = .dead ↔ p.state = .dead) (regs : q.procState.regs = state.regs)
      (call : q.syscallState = p.syscallState)
  | exempt (before : a = .body) (after : b = .done) (alive : q.state ≠ .dead) (call : Exempt p.syscall)
      (goesOn : p.syscall ≠ some .exit)
  | exits (answers : Answers) (called : action = .call answers) (before : a = .body) (after : b = .marked)
      (call : p.syscall = some .exit) (dead : q.state = .dead) (regs : q.procState.regs = p.procState.regs)
  | returns (fuel : Nat) (leave : action = .leave fuel) (before : a = .done) (after : b = .user)
      (living : p.state ≠ .dead) (alive : q.state ≠ .dead) (quiet : signalPending p = false)
      (restored : q.procState = p.syscallState)
  | delivers (before : a = .done) (after : b = .user) (living : p.state ≠ .dead) (alive : q.state ≠ .dead)
      (pending : signalPending p = true)
  | killed (state : IntHandlerState) (fuel : Nat) (segfault : action = .segfault state fuel)
      (before : a = .user) (after : b = .user) (dead : q.state = .dead) (rc : q.procState.regs 0 = 139)

def Aside (p q : Proc) : Prop :=
  still q = still p ∨ q.pid = p.pid ∧ p.state = .unloaded ∧ q.state ≠ .dead

structure ContextStep (m : Machine) (action : Action) (m' : Machine) : Prop where
  own : ∀ i p, m.kernel.currentProc = some i → m.kernel.procs[i]? = some p →
    ∃ q, m'.kernel.procs[i]? = some q ∧ q.pid = p.pid ∧ OwnStep action (m.phase i) p (m'.phase i) q
  others : ∀ (j : Nat) p, m.kernel.currentProc ≠ some j → m.kernel.procs[j]? = some p →
    m'.phase j = m.phase j ∧ ∃ q, m'.kernel.procs[j]? = some q ∧ Aside p q
  born : ∀ (j : Nat) q, m.kernel.procs[j]? = none → m'.kernel.procs[j]? = some q →
    j = m.kernel.procs.length ∧ q.state ≠ .dead ∧ m'.phase j = m.phase j ∧ q.pid = m.kernel.pidNow + 1 ∧
      ∃ answers i p, action = .call answers ∧ m.kernel.currentProc = some i ∧ m.kernel.procs[i]? = some p ∧
        p.syscall = some .exec

theorem ContextStep.pid {m m' : Machine} {action : Action} (context : ContextStep m action m') (j : Nat) (p : Proc)
    (here : m.kernel.procs[j]? = some p) : ∃ q, m'.kernel.procs[j]? = some q ∧ q.pid = p.pid := by
  by_cases running : m.kernel.currentProc = some j
  · obtain ⟨q, there, pid, -⟩ := context.own j p running here
    exact ⟨q, there, pid⟩
  · obtain ⟨-, q, there, same | ⟨pid, -⟩⟩ := context.others j p running here
    · exact ⟨q, there, congrArg Prod.fst same⟩
    · exact ⟨q, there, pid⟩

section

variable {k k' : KernelState} {i : Nat} {p : Proc}

theorem still_switched (switched : Switched k k') : k'.procs.map still = k.procs.map still := by
  apply List.ext_getElem?
  intro j
  rw [List.getElem?_map, List.getElem?_map]
  cases here : k.procs[j]? with
  | none =>
    rw [List.getElem?_eq_none_iff, ← switched.length, ← List.getElem?_eq_none_iff] at here
    rw [here]
  | some p =>
    obtain ⟨q, there, effect⟩ := switched.each j p here
    have pid : q.pid = p.pid := effect.keeps (alarmed_keeps fun _ _ => rfl) fun _ => rfl
    have own : q.procState = p.procState := effect.keeps (alarmed_keeps fun _ _ => rfl) fun _ => rfl
    have call : q.syscallState = p.syscallState :=
      effect.keeps (alarmed_keeps fun _ _ => rfl) fun _ => rfl
    have dead : (q.state = .dead) ↔ (p.state = .dead) := by
      rcases effect.state with same | ⟨blocked, runnable⟩ | ⟨blocked, syscall⟩
      · rw [same]
      · simp [blocked, runnable]
      · simp [blocked, syscall]
    rw [there, Option.map_some, Option.map_some, still, still, pid, own, call, decide_eq_decide.mpr dead]

variable {j : Nat} {state : IntHandlerState}

theorem still_at (same : k'.procs.map still = k.procs.map still)
    (here : k.procs[j]? = some p) : ∃ q, k'.procs[j]? = some q ∧ still q = still p := by
  have equal := congrArg (fun list => list[j]?) same
  simp only [List.getElem?_map, here, Option.map_some] at equal
  exact Option.map_eq_some_iff.mp equal

theorem still_at_ne (same : (k'.procs[j]?).map still = (k.procs[j]?).map still)
    (here : k.procs[j]? = some p) : ∃ q, k'.procs[j]? = some q ∧ still q = still p := by
  rw [here, Option.map_some] at same
  exact Option.map_eq_some_iff.mp same

theorem still_of_map (same : k'.procs.map still = k.procs.map still) (j : Nat) :
    (k'.procs[j]?).map still = (k.procs[j]?).map still := by
  have equal := congrArg (fun list => list[j]?) same
  simpa only [List.getElem?_map] using equal

theorem still_eq {p q : Proc} (same : still q = still p) : q.pid = p.pid ∧ (q.state = .dead ↔ p.state = .dead) ∧
    q.procState = p.procState ∧ q.syscallState = p.syscallState := by
  simpa [still] using same

theorem saveState_ne (running : k.currentProc = some i) (other : j ≠ i) :
    (saveState k state).procs[j]? = k.procs[j]? := by
  simp only [saveState, running]
  exact modifyProc_of_ne k i _ other

theorem saveState_self (running : k.currentProc = some i) (here : k.procs[i]? = some p) :
    (saveState k state).procs[i]? = some { p with procState := p.procState.save state } := by
  simp only [saveState, running]
  refine (modifyProc_self k i _).trans ?_
  rw [here]
  rfl

theorem mapPageZero_ne (running : k.currentProc = some i) (other : j ≠ i) (page : Word) :
    (k.mapPageZero page).procs[j]? = k.procs[j]? := by
  unfold KernelState.mapPageZero
  split
  · rename_i current
    obtain rfl := Option.some.inj (running.symm.trans current)
    exact modifyProc_of_ne k i _ other
  · rfl

theorem mapPageZero_regs (here : k.procs[i]? = some p) (page : Word) :
    ∃ s, (k.mapPageZero page).procs[i]? = some { p with procState := s } ∧ s.regs = p.procState.regs := by
  unfold KernelState.mapPageZero
  split
  · rename_i j _ _
    by_cases own : i = j
    · subst own
      refine ⟨{ p.procState with memPages := update p.procState.memPages 0 page }, ?_, rfl⟩
      exact (modifyProc_self k i _).trans (by rw [here]; rfl)
    · exact ⟨p.procState, (modifyProc_of_ne k j _ own).trans here, rfl⟩
  · exact ⟨p.procState, here, rfl⟩

theorem shade_at (same : k'.procs.map shade = k.procs.map shade) (here : k.procs[i]? = some p) :
    ∃ q, k'.procs[i]? = some q ∧ (q.pid, q.state) = (p.pid, p.state) := by
  have equal := congrArg (fun list => list[i]?) same
  simp only [List.getElem?_map, here, Option.map_some] at equal
  obtain ⟨q, there, seen⟩ := Option.map_eq_some_iff.mp equal
  have kept : ((shade q).pid, (shade q).state) = ((shade p).pid, (shade p).state) := by rw [seen]
  exact ⟨q, there, kept⟩

theorem FrameOf.caller_at (frame : FrameOf caller i k k') (here : k.procs[i]? = some p) :
    ∃ q, k'.procs[i]? = some q ∧ q.pid = p.pid ∧ q.state = p.state ∧
      q.syscallState.setReg 0 0 = p.syscallState.setReg 0 0 := by
  have own := frame.own
  rw [here, Option.map_some] at own
  obtain ⟨q, there, equal⟩ := Option.map_eq_some_iff.mp own
  have pid : (caller q).pid = (caller p).pid := congrArg Proc.pid equal
  have state : (caller q).state = (caller p).state := congrArg Proc.state equal
  have call : (caller q).syscallState = (caller p).syscallState := congrArg Proc.syscallState equal
  exact ⟨q, there, pid, state, call⟩

end

theorem vfsBlocking_pid (k : KernelState) (files : FdTable) (fd : Word) (answers : Answers) :
    Ensures (vfsBlocking k files fd answers) (fun out => out.1.pidNow = k.pidNow) fun _ => True := by
  unfold vfsBlocking
  refine Ensures.bind (Ensures.any _) fun file _ => ?_
  split
  · exact Ensures.ok rfl
  · refine Ensures.bind (Ensures.any _) fun reg _ => ?_
    split
    · exact Ensures.ok rfl
    · refine Ensures.bind (Ensures.any _) fun _ _ => Ensures.bind (Ensures.any _) fun _ _ =>
        Ensures.bind (Ensures.any _) fun _ _ => Ensures.bind (Ensures.any _) fun _ _ =>
        Ensures.bind (Ensures.any _) fun _ _ => ?_
      split
      · exact Ensures.ok rfl
      · exact Ensures.ok rfl

theorem execBegin_pid (k : KernelState) (i : Nat) (p : Proc) (answers : Answers) :
    Ensures (execBegin k i p answers) (fun out => ∀ child, out.2 = some child →
      ∃ old new, out.1.procs = old ++ [new] ∧ new.pid = k.pidNow + 1) fun _ => True := by
  unfold execBegin
  split
  · refine Ensures.ok fun child none => ?_
    cases none
  · refine Ensures.bind (vfsBlocking_pid k _ _ _) ?_
    rintro ⟨k₁, files, r⟩ same
    dsimp only at same ⊢
    split
    · refine Ensures.ok fun child none => ?_
      cases none
    · split
      · refine Ensures.ok fun child none => ?_
        cases none
      · unfold schedInitUserThread
        refine Ensures.bind (Ensures.bind (Ensures.any _) fun _ _ => Ensures.bind (Ensures.any _) fun _ _ =>
          Ensures.ok ⟨_, _, rfl, ?_⟩) fun k' listed => Ensures.bind (Ensures.any _) fun _ _ =>
          Ensures.ok fun _ _ => listed
        exact congrArg (· + 1) same

section

variable {k k' : KernelState} {i : Nat} {p : Proc}

def Untouched (i : Nat) (k k' : KernelState) : Prop := ∀ j, j ≠ i → k'.procs[j]? = k.procs[j]?

theorem untouched_modify (k : KernelState) (i : Nat) (f : Proc → Proc) : Untouched i k (k.modifyProc i f) :=
  fun _ other => modifyProc_of_ne k i f other

theorem Untouched.trans {k'' : KernelState} (first : Untouched i k k') (second : Untouched i k' k'') :
    Untouched i k k'' :=
  fun j other => (second j other).trans (first j other)

theorem processPgmap_untouched : Ensures (processPgmap k i p) (Untouched i k) fun _ => True := by
  unfold processPgmap
  dsimp only
  split
  · split
    · exact Ensures.ok (untouched_modify k i _)
    · exact Ensures.ok ((untouched_modify k i _).trans (untouched_modify _ i _))
  · exact Ensures.ok (untouched_modify k i _)

variable (running : k.currentProc = some i)
include running

theorem signalHandlerReturn_untouched : Ensures (signalHandlerReturn k i) (Untouched i k) fun _ => True := by
  unfold signalHandlerReturn
  cases k.procs[i]? with
  | none => trivial
  | some proc =>
    dsimp only
    split
    · trivial
    · refine Ensures.ok (Untouched.trans ?_ (untouched_modify _ i _))
      exact fun j other => mapPageZero_ne running other _

theorem memcpyToUserspace_untouched (proc : Proc) (ubuff : Word) (kbuff : List Byte) (size : Word) :
    Untouched i k (memcpyToUserspace k proc ubuff kbuff size) := by
  have copied : Frame i k (memcpyToUserspace k proc ubuff kbuff size) :=
    (FrameOf.refl i k).memcpyToUserspace running proc ubuff kbuff size
  exact copied.others

theorem signalHandlerEnter_untouched (signal : Signal) :
    Ensures (signalHandlerEnter k i signal) (Untouched i k) fun _ => True := by
  unfold signalHandlerEnter
  cases k.procs[i]? with
  | none => trivial
  | some proc =>
    dsimp only
    split
    · trivial
    split
    · trivial
    · refine Ensures.ok (Untouched.trans ?_ (untouched_modify _ i _))
      intro j other
      refine (memcpyToUserspace_untouched ?_ proc _ _ _ j other).trans
        (memcpyToUserspace_untouched running proc _ _ _ j other)
      exact (memcpyToUserspace_currentProc k proc _ _ _).trans running

theorem deliverSignal_untouched : Ensures (deliverSignal k i p) (Untouched i k) fun _ => True := by
  unfold deliverSignal
  split
  · exact Ensures.ok fun _ _ => rfl
  · refine Ensures.bind (signalHandlerEnter_untouched running _) fun k' same => ?_
    split
    · trivial
    · exact Ensures.ok (same.trans (untouched_modify k' i _))

theorem intSysCallLeave_untouched (here : k.procs[i]? = some p) :
    Ensures (intSysCallLeave k i) (Untouched i k) fun _ => True := by
  have restored : Untouched i k (userRestored k i) := by
    intro j other
    exact (modifyProc_of_ne _ i _ other).trans (mapPageZero_ne running other illegalPage)
  have current : (userRestored k i).currentProc = some i :=
    (mapPageZero_currentProc k illegalPage).trans running
  rw [intSysCallLeave_eq here]
  cases signalPending p with
  | false => exact Ensures.ok (restored.trans (untouched_modify _ i _))
  | true =>
    refine Ensures.bind (deliverSignal_untouched current) fun k' same => ?_
    exact Ensures.ok ((restored.trans same).trans (untouched_modify k' i _))

theorem exempt_untouched (answers : Answers) (exempt : Exempt p.syscall) (notExit : p.syscall ≠ some .exit) :
    Ensures (processSyscall k i p answers) (Untouched i k) fun _ => True := by
  unfold processSyscall
  cases call : p.syscall with
  | none =>
    rw [call] at exempt
    exact exempt.elim
  | some syscall =>
    rw [call] at exempt
    cases syscall with
    | exit => exact absurd call notExit
    | sighdlrret => exact signalHandlerReturn_untouched running
    | pgmap => exact processPgmap_untouched
    | clockticks => exact Ensures.ok ((untouched_modify k i _).trans (untouched_modify _ i _))
    | _ => exact exempt.elim

theorem processSyscall_untouched (answers : Answers)
    (apart : p.syscall ≠ some .sigsend ∧ p.syscall ≠ some .sigwait ∧ p.syscall ≠ some .exit ∧ p.syscall ≠ some .exec) :
    Ensures (processSyscall k i p answers) (Untouched i k) fun _ => True := by
  by_cases exempt : Exempt p.syscall
  · exact exempt_untouched running answers exempt apart.2.2.1
  · have ordinary : Ordinary p.syscall := by
      unfold Ordinary
      split <;> simp_all [Exempt]
    exact (processSyscall_frame running answers ordinary).mono (fun _ frame => frame.others) fun _ _ => trivial

end

section

variable {m m' : Machine} {i : Nat} {p : Proc} {action : Action}

theorem contextStep_self (running : m.kernel.currentProc = some i) (here : m.kernel.procs[i]? = some p)
    (others : ∀ j, j ≠ i → (m'.kernel.procs[j]?).map still = (m.kernel.procs[j]?).map still)
    (phase : ∀ j, j ≠ i → m'.phase j = m.phase j) (own : ∃ q, m'.kernel.procs[i]? = some q ∧ q.pid = p.pid ∧
      OwnStep action (m.phase i) p (m'.phase i) q) : ContextStep m action m' := by
  refine ⟨?_, ?_, ?_⟩
  · intro j r running' here'
    obtain rfl := Option.some.inj (running.symm.trans running')
    obtain rfl := Option.some.inj (here.symm.trans here')
    exact own
  · intro j r other here'
    have ne : j ≠ i := fun same => other (same ▸ running)
    obtain ⟨q, there, same⟩ := still_at_ne (others j ne) here'
    exact ⟨phase j ne, q, there, Or.inl same⟩
  · intro j q before after
    have ne : j ≠ i := by
      rintro rfl
      rw [here] at before
      cases before
    have same := others j ne
    rw [before, after] at same
    cases same

variable {place : Phase} {fuel : Nat} {state : IntHandlerState} {answers : Answers} {k : KernelState} {m₀ : Machine}

section

variable (running : m.kernel.currentProc = some i) (here : m.kernel.procs[i]? = some p)
include running here

theorem contextStep_call (alive : p.state ≠ .dead) (before : m.phase i ≠ .user)
    (after : place ≠ .user ∧ place ≠ .body) (phase : m'.phase = update m.phase i place)
    (others : ∀ j, j ≠ i → (m'.kernel.procs[j]?).map still = (m.kernel.procs[j]?).map still)
    (own : ∃ q, m'.kernel.procs[i]? = some q ∧ q.pid = p.pid ∧ q.state = p.state ∧
      q.syscallState.setReg 0 0 = p.syscallState.setReg 0 0) (goesOn : GoesOn p action) : ContextStep m action m' := by
  obtain ⟨q, there, pid, state, call⟩ := own
  refine contextStep_self running here others ?_ ⟨q, there, pid, ?_⟩
  · intro j other
    rw [phase, update_of_ne other]
  · rw [phase, update_self]
    exact .inside before after.1 (by rw [state]) (fun dead => absurd dead alive) call
      (fun again => absurd again after.2) goesOn

theorem contextStep_frame (alive : p.state ≠ .dead) (before : m.phase i ≠ .user)
    (after : place ≠ .user ∧ place ≠ .body) (phase : m'.phase = update m.phase i place)
    (frame : FrameOf caller i m.kernel m'.kernel) (goesOn : GoesOn p action) : ContextStep m action m' :=
  contextStep_call running here alive before after phase (fun j other => by rw [frame.others j other])
    (frame.caller_at here) goesOn

theorem contextStep_still
    (before : m.phase i ≠ .user) (after : place ≠ .user ∧ place ≠ .body) (phase : m'.phase = update m.phase i place)
    (same : m'.kernel.procs.map still = m.kernel.procs.map still)
    (goesOn : GoesOn p action) : ContextStep m action m' := by
  obtain ⟨q, there, equal⟩ := still_at same here
  obtain ⟨pid, dead, own, call⟩ := still_eq equal
  refine contextStep_self running here (fun j _ => still_of_map same j) ?_ ⟨q, there, pid, ?_⟩
  · intro j other
    rw [phase, update_of_ne other]
  · rw [phase, update_self]
    exact .inside before after.1 dead (fun _ => by rw [own]) (by rw [call])
      (fun again => absurd again after.2) goesOn

end

theorem contextStep_idle (idle : m.kernel.currentProc = none)
    (same : m'.kernel.procs.map still = m.kernel.procs.map still) (phase : m'.phase = m.phase) :
    ContextStep m action m' := by
  refine ⟨?_, ?_, ?_⟩
  · intro i p running
    rw [idle] at running
    cases running
  · intro j p _ here
    obtain ⟨q, there, equal⟩ := still_at same here
    exact ⟨congrFun phase j, q, there, Or.inl equal⟩
  · intro j q before after
    have equal := still_of_map same j
    rw [before, after] at equal
    cases equal

theorem contextStep_resume {before : KernelState} {x : Option (Except Stop KernelState)}
    (running : m.kernel.currentProc = some i) (here : m.kernel.procs[i]? = some p)
    (resumed : m₀.resume before x = some m') (goes : m'.halted = none) (phase : m₀.phase = m.phase)
    (others : ∀ j, j ≠ i → (before.procs[j]?).map still = (m.kernel.procs[j]?).map still)
    (own : ∃ q, before.procs[i]? = some q ∧ q.pid = p.pid ∧
      ∀ r, still r = still q → OwnStep action (m.phase i) p (m.phase i) r)
    (switches : ∀ after, x = some (.ok after) → Switched before after) : ContextStep m action m' := by
  rcases resume_cases resumed with ⟨after, result, rfl⟩ | ⟨stop, -, rfl⟩
  · have same := still_switched (switches after result)
    obtain ⟨q, saved, pid, next⟩ := own
    obtain ⟨r, there, equal⟩ := still_at same saved
    refine contextStep_self running here ?_ (fun j _ => congrFun phase j) ⟨r, there, ?_, ?_⟩
    · intro j other
      rw [still_of_map same, others j other]
    · exact (still_eq equal).1.trans pid
    · change OwnStep action (m.phase i) p (m₀.phase i) r
      rw [phase]
      exact next r equal
  · cases goes

variable (stand : Stands m) (running : m.kernel.currentProc = some i) (here : m.kernel.procs[i]? = some p)
include stand running here

theorem user_alive (place : m.phase i = .user) : p.state ≠ .dead := by
  intro dead
  rcases stand.runs i p running here with runnable | syscall | ⟨-, inside⟩
  · rw [dead] at runnable
    cases runnable
  · rw [dead] at syscall
    cases syscall
  · exact inside place

omit running in
theorem kernel_alive (inside : inKernel p = true) : p.state ≠ .dead := by
  intro dead
  have fits := stand.fits i p here
  rw [dead] at fits
  cases place : m.phase i <;> cases kind : p.type <;> simp_all [Fits, inKernel]

theorem call_alive (place : m.phase i = .body ∨ m.phase i = .waited ∨ ∃ child, m.phase i = .loading child) :
    p.state ≠ .dead := by
  rw [(in_call stand running here place).2]
  simp

theorem irq_context (served : m.irq state fuel = some m')
    (goes : m'.halted = none) : ContextStep m (.irq state fuel) m' := by
  refine contextStep_resume running here served goes rfl ?_
    ⟨{ p with procState := p.procState.save state }, ?_, rfl, ?_⟩
    fun after ended => (interruptEnd_switched ended).1
  · intro j other
    rw [countTick_procs, saveState_ne running other]
  · rw [countTick_procs, saveState_self running here]
  · intro r equal
    obtain ⟨-, dead, own, call⟩ := still_eq equal
    by_cases place : m.phase i = .user
    · exact .outside place place (fun died => user_alive stand running here place (dead.mp died)) (by simp)
    · exact .interrupted state fuel rfl place rfl dead (by rw [own]; rfl) call

theorem sleep_context {sema : SemaRef} (inside : inKernel p = true)
    (resumed : m.resume (asleep m.kernel i sema state) (interruptEnd fuel true (asleep m.kernel i sema state)) =
      some m') (goes : m'.halted = none) : ContextStep m (.sleep sema state fuel) m' := by
  have alive := kernel_alive stand here inside
  refine contextStep_resume running here resumed goes rfl ?_ ⟨{ p with
      state := if p.state = .syscall then .syscallBlocked else .blocked
      semaBlocked := some sema
      procState := p.procState.save state }, ?_, rfl, ?_⟩ fun after ended => (interruptEnd_switched ended).1
  · intro j other
    rw [asleep, countTick_procs, saveState_ne (by simpa using running) other, modifyProc_of_ne _ _ _ other]
  · rw [asleep, countTick_procs, saveState_self (by simpa using running) (by rw [modifyProc_self, here]; rfl)]
  · intro r equal
    obtain ⟨-, dead, own, call⟩ := still_eq equal
    have awake : r.state ≠ .dead := by
      intro died
      have blocked := dead.mp died
      simp only at blocked
      split at blocked <;> cases blocked
    by_cases place : m.phase i = .user
    · exact .outside place place awake (by simp)
    · refine .inside place place ?_ (fun died => absurd died alive) (by rw [call])
        (fun body => ⟨body, call⟩) trivial
      exact ⟨fun died => absurd died awake, fun died => absurd died alive⟩

omit stand in
theorem segfault_context {heap : HeapMemory} (place : m.phase i = .user) (resumed : m₀.resume (segfaulted m.kernel i p state heap)
      (interruptEnd fuel true (segfaulted m.kernel i p state heap)) = some m') (phase : m₀.phase = m.phase)
    (goes : m'.halted = none) : ContextStep m (.segfault state fuel) m' := by
  have sent := segfaulted_map (π := still) (fun _ => rfl) m.kernel i p state heap
  have dead : ((saveState m.kernel state).modifyProc i killedBySegfault).procs[i]? =
      some (killedBySegfault { p with procState := p.procState.save state }) := by
    rw [modifyProc_self, saveState_self running here]
    rfl
  obtain ⟨q, there, same⟩ := still_at sent dead
  refine contextStep_resume running here resumed goes phase ?_ ⟨q, there, (still_eq same).1, ?_⟩
    fun after ended => (interruptEnd_switched ended).1
  · intro j other
    rw [still_of_map sent, modifyProc_of_ne _ _ _ other, saveState_ne running other]
  · intro r equal
    obtain ⟨-, died, own, -⟩ := still_eq (equal.trans same)
    exact .killed state fuel rfl place place (died.mpr rfl) (by rw [own]; rfl)

omit stand here in
theorem trap_others (state : IntHandlerState) (other : j ≠ i) :
    (intSysCallEnter (countTick (saveState m.kernel state) state) i).procs[j]? = m.kernel.procs[j]? := by
  have logged := mapPageZero_ne (k := { (countTick (saveState m.kernel state) state).modifyProc i
    enterSyscall with intNoProcModify := false }) (by simpa using running) other illegalPage
  refine logged.trans ?_
  change ((countTick (saveState m.kernel state) state).modifyProc i enterSyscall).procs[j]? = _
  rw [modifyProc_of_ne _ _ _ other, countTick_procs, saveState_ne running other]

omit stand in
theorem trap_context (state : IntHandlerState) (place : m.phase i = .user) : ContextStep m (.trap state)
      ((m.setKernel (intSysCallEnter (countTick (saveState m.kernel state) state) i)).setPhase i .body) := by
  have entered : ((countTick (saveState m.kernel state) state).modifyProc i enterSyscall).procs[i]? =
      some (enterSyscall { p with procState := p.procState.save state }) := by
    rw [modifyProc_self, countTick_procs, saveState_self running here]
    rfl
  obtain ⟨s, there⟩ := mapPageZero_at (k := { (countTick (saveState m.kernel state) state).modifyProc i
    enterSyscall with intNoProcModify := false }) entered illegalPage
  refine contextStep_self running here ?_ ?_ ⟨_, there, rfl, ?_⟩
  · intro j other
    exact congrArg (Option.map still) (trap_others running state other)
  · intro j other
    exact update_of_ne other _ _
  · rw [place]
    exact .enters state rfl rfl (update_self ..) (by simp [enterSyscall]) rfl

theorem signal_context (step : SignalStep m i p action m') (goesOn : GoesOn p action) : ContextStep m action m' := by
  obtain ⟨place, quiet⟩ := step.quiet running
  have after : place ≠ .user ∧ place ≠ .body := ⟨quiet.after.1, quiet.after.2.1⟩
  rcases quiet.procs with ⟨inCall, frame⟩ | same
  · have alive := call_alive stand running here (inCall.imp_right Or.inl)
    have own := frame.own
    rw [here, Option.map_some] at own
    obtain ⟨q, there, equal⟩ := Option.map_eq_some_iff.mp own
    refine contextStep_call running here alive quiet.before.1 after quiet.phase
      (fun j other => by rw [frame.others j other]) ⟨q, there, ?_⟩ goesOn
    exact ⟨(congrArg Proc.pid equal :), (congrArg Proc.state equal :), congrArg Proc.syscallState equal⟩
  · refine contextStep_still running here quiet.before.1 after quiet.phase ?_ goesOn
    have seen := congrArg (List.map still) same
    rwa [List.map_map, List.map_map] at seen

omit stand in
theorem callExit_context (body : m.phase i = .body) (call : p.syscall = some .exit) :
    ContextStep m (.call answers) (m.callExit i p) := by
  obtain ⟨s, logged, regs⟩ := mapPageZero_regs here illegalPage
  have there : (m.callExit i p).kernel.procs[i]? = some { p with
      procState := s, syscallState := p.syscallState.setReg 0 (p.syscallState.regs 1), state := .dead } := by
    refine (modifyProc_self (m.kernel.mapPageZero illegalPage) i _).trans ?_
    rw [logged]
    rfl
  refine contextStep_self running here ?_ ?_ ⟨_, there, rfl, ?_⟩
  · intro j other
    exact congrArg (Option.map still) ((modifyProc_of_ne (m.kernel.mapPageZero illegalPage) i _ other).trans
      (mapPageZero_ne running other illegalPage))
  · intro j other
    exact update_of_ne other _ _
  · exact .exits answers rfl body (update_self ..) call rfl regs

theorem exec_context {child : Option Nat} (body : m.phase i = .body)
    (call : p.syscall = some .exec) (begun : execBegin m.kernel i p answers = .ok (k, child)) :
    ContextStep m (.call answers) ((m.setKernel k).setPhase i (child.elim .done .loading)) := by
  have alive := call_alive stand running here (Or.inl body)
  have before : m.phase i ≠ .user := by simp [body]
  have made := (execBegin_frameOf (κ := caller) running answers call).returned begun
  cases child with
  | none => exact contextStep_frame running here alive before (by simp) rfl made (by simp [GoesOn, call])
  | some child =>
    obtain ⟨position, k₁, new, frame, fresh, procs, current⟩ := made
    have length := frame.length
    have inside := (List.getElem?_eq_some_iff.mp here).1
    have old : ∀ j, j < m.kernel.procs.length → k.procs[j]? = k₁.procs[j]? := by
      intro j small
      rw [procs, List.getElem?_append_left (by rw [length]; exact small)]
    refine ⟨?_, ?_, ?_⟩
    · intro j r running' here'
      obtain rfl := Option.some.inj (running.symm.trans running')
      obtain rfl := Option.some.inj (here.symm.trans here')
      obtain ⟨q, there, pid, state, answer⟩ := frame.caller_at here
      refine ⟨q, (old i inside).trans there, pid, ?_⟩
      change OwnStep _ (m.phase i) p (update m.phase i _ i) q
      rw [update_self]
      refine .inside before (by simp) (by rw [state]) (fun dead => absurd dead alive) answer ?_
        (by simp [GoesOn, call])
      intro again
      cases again
    · intro j r other here'
      have ne : j ≠ i := fun same => other (same ▸ running)
      have small := (List.getElem?_eq_some_iff.mp here').1
      exact ⟨update_of_ne ne _ _, r, (old j small).trans ((frame.others j ne).trans here'), Or.inl rfl⟩
    · intro j q absent present
      have beyond := List.getElem?_eq_none_iff.mp absent
      have last : j = k₁.procs.length ∧ q = new := by
        have bound : j < k.procs.length := (List.getElem?_eq_some_iff.mp present).1
        rw [procs, List.length_append, List.length_singleton] at bound
        have equal : j = k₁.procs.length := by omega
        have found : (k₁.procs ++ [new])[k₁.procs.length]? = some q := by rwa [← procs, ← equal]
        rw [List.getElem?_append_right (Nat.le_refl _), Nat.sub_self] at found
        exact ⟨equal, (Option.some.inj found).symm⟩
      obtain ⟨old, new', listed, pid⟩ := (execBegin_pid m.kernel i p answers).returned begun child rfl
      have same : new = new' := by
        have ends := congrArg List.getLast? (procs.symm.trans listed)
        simpa using ends
      have other : j ≠ i := by
        rintro rfl
        rw [here] at absent
        cases absent
      refine ⟨last.1.trans length, ?_, update_of_ne other _ _, ?_, answers, i, p, rfl, running, here,
        call⟩
      · rw [last.2, fresh.state]
        simp
      · rw [last.2, same]
        exact pid

theorem serve_context (history : History) (body : m.phase i = .body)
    (apart : p.syscall ≠ some .sigsend ∧ p.syscall ≠ some .sigwait ∧ p.syscall ≠ some .exit ∧ p.syscall ≠ some .exec)
    (served : processSyscall m.kernel i p answers = .ok k) :
    ContextStep m (.call answers) ({ m with kernel := k, history := history }.setPhase i .done) := by
  have alive := call_alive stand running here (Or.inl body)
  by_cases exempt : Exempt p.syscall
  · obtain ⟨same, -⟩ := (processSyscall_shade answers running apart).returned served
    have others := (exempt_untouched running answers exempt apart.2.2.1).returned served
    obtain ⟨q, there, equal⟩ := shade_at same here
    refine contextStep_self running here (fun j other => by rw [← others j other]; rfl) ?_
      ⟨q, there, congrArg Prod.fst equal, ?_⟩
    · intro j other
      exact update_of_ne other _ _
    · have state : q.state = p.state := congrArg Prod.snd equal
      exact .exempt body (update_self ..) (by rw [state]; exact alive) exempt apart.2.2.1
  · have ordinary : Ordinary p.syscall := by
      unfold Ordinary
      split <;> simp_all [Exempt]
    have frame : FrameOf caller i m.kernel k :=
      (processSyscall_frameOf running answers ordinary fun ticks => by simp [Exempt, ticks] at exempt).returned
        served
    exact contextStep_frame running here alive (by simp [body]) (by simp) rfl frame apart.2.2.1

theorem load_context {loaded : Loaded} {child : Nat} (history : History) (place : m.phase i = .loading child) :
    ContextStep m (.load loaded) ({ m with
      kernel := execFinish m.kernel i p child loaded, history := history }.setPhase i .done) := by
  have alive := call_alive stand running here (Or.inr (Or.inr ⟨child, place⟩))
  obtain ⟨c, made, unloaded, -, -, other⟩ := stand.child here running place
  refine ⟨?_, ?_, ?_⟩
  · intro j r running' here'
    obtain rfl := Option.some.inj (running.symm.trans running')
    obtain rfl := Option.some.inj (here.symm.trans here')
    have kept : (m.kernel.modifyProc child (loadChild p.pid loaded)).procs[i]? = some p :=
      (modifyProc_of_ne m.kernel child _ (Ne.symm other)).trans here
    refine ⟨_, (modifyProc_self _ i _).trans (congrArg (Option.map _) kept), rfl, ?_⟩
    change OwnStep _ (m.phase i) p (update m.phase i .done i) _
    rw [update_self, place]
    refine .inside (by simp) (by simp) Iff.rfl (fun dead => absurd dead alive) (setReg_setReg _ _ _ _) ?_
      trivial
    intro body
    cases body
  · intro j r ne here'
    have apart : j ≠ i := fun same => ne (same ▸ running)
    refine ⟨update_of_ne apart _ _, ?_⟩
    by_cases new : j = child
    · subst new
      obtain rfl := Option.some.inj (made.symm.trans here')
      have done : (m.kernel.modifyProc j (loadChild p.pid loaded)).procs[j]? =
          some (loadChild p.pid loaded c) := by
        rw [modifyProc_self, made]
        rfl
      refine ⟨_, (modifyProc_of_ne _ i _ apart).trans done, Or.inr ⟨rfl, unloaded, ?_⟩⟩
      simp [loadChild]
    · refine ⟨r, ?_, Or.inl rfl⟩
      exact (modifyProc_of_ne _ i _ apart).trans ((modifyProc_of_ne m.kernel child _ new).trans here')
  · intro j q before after
    have inside : j < (execFinish m.kernel i p child loaded).procs.length :=
      (List.getElem?_eq_some_iff.mp after).1
    have length : (execFinish m.kernel i p child loaded).procs.length = m.kernel.procs.length :=
      (modifyProc_length _ i _).trans (modifyProc_length m.kernel child _)
    rw [length] at inside
    exact absurd inside (Nat.not_lt.mpr (List.getElem?_eq_none_iff.mp before))

omit stand in
theorem finish_context (place : m.phase i = .done) (dead : p.state = .dead)
    (resumed : m.resume m.kernel.log (intSysCallSwitch fuel m.kernel) = some m') (goes : m'.halted = none) :
    ContextStep m (.leave fuel) m' := by
  obtain ⟨s, logged, regs⟩ := mapPageZero_regs here illegalPage
  refine contextStep_resume running here resumed goes rfl ?_ ⟨_, logged, rfl, ?_⟩
    fun after ended => (intSysCallSwitch_switched ended).1
  · intro j other
    exact congrArg (Option.map still) (mapPageZero_ne running other illegalPage)
  · intro r equal
    obtain ⟨-, died, own, call⟩ := still_eq equal
    rw [place]
    refine .inside (by simp) (by simp) died (fun _ => by rw [own]; exact regs) (by rw [call]) ?_ dead
    intro body
    cases body

omit stand in
theorem leave_context (history : History) (place : m.phase i = .done)
    (alive : p.state ≠ .dead) (left : intSysCallLeave m.kernel i = .ok k) :
    ContextStep m (.leave fuel) ({ m with kernel := k, history := history }.setPhase i .user) := by
  have restored := userRestored_at here
  have untouched := (intSysCallLeave_untouched running here).returned left
  have others : ∀ j, j ≠ i → (k.procs[j]?).map still = (m.kernel.procs[j]?).map still :=
    fun j other => congrArg (Option.map still) (untouched j other)
  have phase : ∀ j, j ≠ i → update m.phase i .user j = m.phase j :=
    fun j other => update_of_ne other _ _
  rw [intSysCallLeave_eq here] at left
  cases pending : signalPending p with
  | false =>
    rw [pending] at left
    obtain rfl := Except.ok.inj left
    refine contextStep_self running here others phase
      ⟨toRunnable { p with procState := p.syscallState }, ?_, rfl, ?_⟩
    · exact (modifyProc_self _ i _).trans (by rw [restored]; rfl)
    · exact .returns fuel rfl place (update_self ..) alive (by simp [toRunnable]) pending rfl
  | true =>
    rw [pending, if_pos rfl] at left
    obtain ⟨k₂, taken, ended⟩ := bind_eq_ok.mp left
    obtain rfl := Except.ok.inj ended
    obtain ⟨signal, queue, first⟩ := signalPending_cons pending
    have delivery := (deliverSignal_map (k := userRestored m.kernel i) (i := i)
      (p := { p with procState := p.syscallState }) shaded_shade first).returned taken
    obtain ⟨q, there, equal⟩ := shade_at delivery.2.2 ((modifyProc_self _ i _).trans
      (congrArg (Option.map (delivered queue)) restored))
    refine contextStep_self running here others phase ⟨toRunnable q, ?_, congrArg Prod.fst equal, ?_⟩
    · exact (modifyProc_self _ i _).trans (by rw [there]; rfl)
    · exact .delivers place (update_self ..) alive (by simp [toRunnable]) pending

theorem pageZero_context (page : Word) (inside : inKernel p = true) :
    ContextStep m (.pageZero page) (m.setKernel (m.kernel.mapPageZero page)) := by
  have alive := kernel_alive stand here inside
  obtain ⟨s, mapped⟩ := mapPageZero_at here page
  refine contextStep_self running here ?_ (fun _ _ => rfl) ⟨_, mapped, rfl, ?_⟩
  · intro j other
    exact congrArg (Option.map still) (mapPageZero_ne running other page)
  · by_cases place : m.phase i = .user
    · exact .outside place place alive (by simp)
    · exact .inside place place Iff.rfl (fun dead => absurd dead alive) rfl (fun body => ⟨body, rfl⟩) trivial

theorem contextStep_same (procs : m'.kernel.procs = m.kernel.procs) (phase : m'.phase = m.phase)
    (calm : ∀ state fuel, action ≠ .segfault state fuel) (goesOn : GoesOn p action) : ContextStep m action m' := by
  refine contextStep_self running here (fun j _ => by rw [procs]) (fun j _ => congrFun phase j)
    ⟨p, by rw [procs]; exact here, rfl, ?_⟩
  rw [phase]
  by_cases place : m.phase i = .user
  · exact .outside place place (user_alive stand running here place) calm
  · exact .inside place place Iff.rfl (fun _ => rfl) rfl (fun body => ⟨body, rfl⟩) goesOn

omit running here in
theorem step_context (taken : m.step action = some m') (goes : m'.halted = none) : ContextStep m action m' := by
  cases (step_cases taken).2 with
  | irq state fuel _ served =>
    cases current : m.kernel.currentProc with
    | some i =>
      obtain ⟨p, here, -⟩ := step_act taken current
      exact irq_context stand current here served goes
    | none =>
      rcases resume_cases served with ⟨after, result, rfl⟩ | ⟨stop, -, rfl⟩
      · refine contextStep_idle current ?_ rfl
        refine (still_switched (interruptEnd_switched result).1).trans ?_
        rw [countTick_procs]
        simp only [saveState, current]
      · cases goes
  | others semas heap =>
    cases current : m.kernel.currentProc with
    | some i =>
      obtain ⟨p, here, -⟩ := step_act taken current
      exact contextStep_same stand current here rfl rfl (by simp) trivial
    | none => exact contextStep_idle current rfl rfl
  | own i p _ _ running here does =>
    cases does with
    | user phys place => exact contextStep_same stand running here rfl rfl (by simp) trivial
    | trap state place outside => exact trap_context running here state place
    | signal _ _ step =>
      refine signal_context stand running here step ?_
      cases step with
      | refuse _ _ call => rcases call with call | call <;> simp [GoesOn, call]
      | down _ _ call | send _ _ _ call => simp [GoesOn, call]
      | _ => trivial
    | exit answers place call => exact callExit_context running here place call
    | exec answers k child place call begun => exact exec_context stand running here place call begun
    | serve answers k place apart served => exact serve_context stand running here _ place apart served
    | load loaded child place => exact load_context stand running here _ place
    | finish fuel _ place dead resumed => exact finish_context running here place dead resumed goes
    | leave fuel k place alive left => exact leave_context running here _ place alive left
    | sleep sema state fuel _ inside place resumed => exact sleep_context stand running here inside resumed goes
    | segfault state fuel heap _ place outside room resumed => exact segfault_context running here place resumed rfl goes
    | pageZero page inside => exact pageZero_context stand running here page inside
    | stop _ stop fault => cases goes

end

end PiOS.Proof
