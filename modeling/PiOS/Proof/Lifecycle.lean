import PiOS.Proof.SignalFrame
import PiOS.Proof.Standing

namespace PiOS.Proof.Lifecycle
open Kernel Transition

structure Life where
  dead : Bool
  running : Bool
  place : Phase
  parent : Option Nat
  heir : Option Nat
  notices : List (Nat × Signal)

inductive LifeStep (switch : Prop) (a b : Life) : Prop
  | lives (alive : a.dead = false) (still : b.dead = false) (notices : b.notices = a.notices)
  | rests (dead : a.dead = true) (still : b.dead = true) (idle : a.running = false)
      (never : b.running = false) (heir : b.heir = a.heir) (notices : b.notices = a.notices)
  | waits (dead : a.dead = true) (same : b = a)
  | exits (alive : a.dead = false) (dead : b.dead = true) (running : b.running = true)
      (place : b.place = .marked) (heir : ∀ pp, b.heir = some pp → b.parent = some pp)
      (notices : b.notices = a.notices)
  | seeks (dead : a.dead = true) (still : b.dead = true) (running : a.running = true)
      (goesOn : b.running = true) (place : a.place = .marked)
      (next : b.place = a.parent.elim .done fun pp => .append pp sigchld) (heir : b.heir = a.heir)
      (notices : b.notices = a.notices)
  | appends (target : Nat) (signal : Signal) (dead : a.dead = true) (still : b.dead = true)
      (running : a.running = true) (place : a.place = .append target signal)
      (next : b.place = .up target) (heir : b.heir = a.heir)
      (notices : b.notices = a.notices ++ [(target, signal)])
  | raises (target : Nat) (dead : a.dead = true) (still : b.dead = true) (running : a.running = true)
      (place : a.place = .up target) (next : b.place = .done) (heir : b.heir = a.heir)
      (notices : b.notices = a.notices)
  | leaves (dead : a.dead = true) (still : b.dead = true) (running : a.running = true)
      (place : a.place = .done ∨ switch) (never : b.running = false) (heir : b.heir = a.heir)
      (notices : b.notices = a.notices)
  | killed (alive : a.dead = false) (dead : b.dead = true) (place : b.place = .user)
      (heir : ∀ pp, b.heir = some pp → b.notices = a.notices ++ [(pp, sigchld)])

def isDead (p : Proc) : Bool := p.state = .dead

def deadAt (procs : List Proc) (j : Nat) : Bool := (procs[j]?).any isDead

def parentAt (procs : List Proc) (j : Nat) : Option Nat :=
  (procs[j]?).bind fun p => sigchldTarget procs p p

def life (m : Machine) (j : Nat) : Life where
  dead := deadAt m.kernel.procs j
  running := m.kernel.currentProc = some j
  place := m.phase j
  parent := parentAt m.kernel.procs j
  heir := m.history.heir j
  notices := m.history.notices j

def notifying : Phase → Bool
  | .marked | .append _ _ => true
  | _ => false

def Life.Settled (a : Life) : Prop := ∀ pp, a.heir = some pp → a.notices = [(pp, sigchld)]

inductive Life.Sound (a : Life) : Prop
  | alive (alive : a.dead = false) (notices : a.notices = [])
  | marked (dead : a.dead = true) (running : a.running = true) (place : a.place = .marked)
      (notices : a.notices = []) (heir : ∀ pp, a.heir = some pp → a.parent = some pp)
  | append (target : Nat) (dead : a.dead = true) (running : a.running = true)
      (place : a.place = .append target sigchld) (notices : a.notices = [])
      (heir : ∀ pp, a.heir = some pp → target = pp)
  | settled (dead : a.dead = true) (place : a.running = true → notifying a.place = false)
      (settled : a.Settled)

section

variable {switch : Prop} {a b : Life}

theorem LifeStep.refl (a : Life) : LifeStep switch a a := by
  cases alive : a.dead with
  | false => exact .lives alive alive rfl
  | true => exact .waits alive rfl

theorem LifeStep.same (dead : b.dead = a.dead) (heir : b.heir = a.heir) (notices : b.notices = a.notices)
    (idle : a.dead = true → a.running = false ∧ b.running = false) : LifeStep switch a b := by
  cases alive : a.dead with
  | false => exact .lives alive (dead.trans alive) notices
  | true =>
    obtain ⟨idle, never⟩ := idle alive
    exact .rests alive (dead.trans alive) idle never heir notices

theorem Life.Sound.notices (sound : a.Sound) (alive : a.dead = false) : a.notices = [] := by
  cases sound <;> simp_all

theorem Life.Sound.settles (sound : a.Sound) (dead : a.dead = true)
    (place : a.running = true → notifying a.place = false) : a.Settled := by
  cases sound <;> simp_all [notifying]

theorem Life.Settled.same (settled : a.Settled) (heir : b.heir = a.heir) (notices : b.notices = a.notices) :
    b.Settled := by
  intro pp living
  rw [notices]
  exact settled pp (heir ▸ living)

theorem LifeStep.sound (step : LifeStep switch a b) (sound : a.Sound)
    (calm : switch → a.dead = true → a.running = true → notifying a.place = true → a.heir = none) : b.Sound := by
  cases step with
  | lives alive still notices => exact .alive still (notices.trans (sound.notices alive))
  | rests dead still idle never heir notices =>
    have settled := sound.settles dead (by simp [idle])
    exact .settled still (by simp [never]) (settled.same heir notices)
  | waits dead same => exact same ▸ sound
  | exits alive dead running place heir notices =>
    exact .marked dead running place (notices.trans (sound.notices alive)) heir
  | seeks dead still running goesOn place next heir notices =>
    cases sound with
    | marked _ _ _ empty parent =>
      cases found : a.parent with
      | none =>
        rw [found] at next
        refine .settled still (by simp [next, notifying]) fun pp living => ?_
        have target := parent pp (heir ▸ living)
        rw [found] at target
        cases target
      | some target =>
        rw [found] at next
        refine .append target still goesOn next (notices.trans empty) fun pp living => ?_
        exact Option.some.inj (found.symm.trans (parent pp (heir ▸ living)))
    | _ => simp_all [notifying]
  | appends target signal dead still running place next heir notices =>
    cases sound with
    | append target' _ _ place' empty parent =>
      obtain ⟨rfl, rfl⟩ := Phase.append.inj (place.symm.trans place')
      refine .settled still (by simp [next, notifying]) fun pp living => ?_
      rw [notices, empty, parent pp (heir ▸ living)]
      rfl
    | _ => simp_all [notifying]
  | raises target dead still running place next heir notices =>
    have settled := sound.settles dead (by simp [place, notifying])
    exact .settled still (by simp [next, notifying]) (settled.same heir notices)
  | leaves dead still running place never heir notices =>
    refine .settled still (by simp [never]) ?_
    cases amid : notifying a.place with
    | false => exact (sound.settles dead fun _ => amid).same heir notices
    | true =>
      rcases place with done | interrupted
      · rw [done] at amid
        cases amid
      · intro pp living
        rw [heir, calm interrupted dead running amid] at living
        cases living
  | killed alive dead place heir =>
    refine .settled dead (by simp [place, notifying]) fun pp living => ?_
    rw [heir pp living, sound.notices alive]
    rfl

theorem LifeStep.gone (step : LifeStep switch a b) (dead : a.dead = true) (idle : a.running = false) :
    b.dead = true ∧ b.running = false ∧ b.heir = a.heir ∧ b.notices = a.notices := by
  cases step <;> simp_all

end

section

variable {k k' : KernelState} {procs procs' : List Proc} {i : Nat} {p : Proc}

theorem deadAt_map (same : procs'.map isDead = procs.map isDead) (j : Nat) : deadAt procs' j = deadAt procs j := by
  have equal := congrArg (fun list => (list[j]?).any id) same
  simpa only [deadAt, List.getElem?_map, Option.any_map, id_eq] using equal

theorem deadAt_self (here : procs[i]? = some p) : deadAt procs i = isDead p := by
  simp [deadAt, here]

theorem deadAt_modify (here : k.procs[i]? = some p) {f : Proc → Proc} (keeps : isDead (f p) = isDead p)
    (j : Nat) : deadAt (k.modifyProc i f).procs j = deadAt k.procs j := by
  unfold deadAt
  by_cases own : j = i
  · subst own
    simp [modifyProc_self, here, keeps]
  · rw [modifyProc_of_ne _ _ _ own]

theorem isDead_procState (p : Proc) (s : ProcState) : isDead { p with procState := s } = isDead p := rfl

def kin (p : Proc) : Word × Word := (p.pid, p.parent)

theorem parentAt_kin (procs : List Proc) (j : Nat) : parentAt procs j = ((procs.map kin)[j]?).bind fun r =>
    if r.2 = 0 then none else ((procs.map kin).map Prod.fst).findIdx? fun w => w = r.2 := by
  unfold parentAt
  rw [List.getElem?_map, Option.bind_map]
  simp only [sigchldTarget, procByPid_map, List.map_map]
  rfl

theorem parentAt_map (same : procs'.map kin = procs.map kin) (j : Nat) : parentAt procs' j = parentAt procs j := by
  rw [parentAt_kin, parentAt_kin, same]

theorem deadAt_switched (switched : Switched k k') (j : Nat) : deadAt k'.procs j = deadAt k.procs j := by
  cases here : k.procs[j]? with
  | none =>
    have outside : k'.procs[j]? = none := by
      rw [List.getElem?_eq_none_iff] at here ⊢
      rwa [switched.length]
    simp [deadAt, here, outside]
  | some p =>
    obtain ⟨q, there, effect⟩ := switched.each j p here
    rw [deadAt_self here, deadAt_self there, isDead, isDead]
    rcases effect.state with same | ⟨blocked, runnable⟩ | ⟨blocked, syscall⟩
    · rw [same]
    · simp [blocked, runnable]
    · simp [blocked, syscall]

theorem alive_in_call (inCall : p.state = .syscall) : isDead p = false := by
  simp [isDead, inCall]

theorem livingParent_target {pp : Nat} (living : livingParent procs p = some pp) :
    sigchldTarget procs p p = some pp := (Option.filter_eq_some_iff.mp living).1

theorem segfaulted_deadAt (heap : HeapMemory) (state : IntHandlerState) (here : k.procs[i]? = some p) :
    deadAt (segfaulted k i p state heap).procs i = true ∧
      ∀ j, j ≠ i → deadAt (segfaulted k i p state heap).procs j = deadAt k.procs j := by
  have sent := deadAt_map (segfaulted_map (π := isDead) (fun _ => rfl) k i p state heap)
  refine ⟨?_, fun j other => ?_⟩
  · obtain ⟨s, saved⟩ := saveState_at here state
    rw [sent, deadAt, modifyProc_self, saved]
    rfl
  · rw [sent, deadAt, modifyProc_of_ne _ _ _ other]
    exact deadAt_map (saveState_map isDead_procState k state) j

theorem segfaulted_currentProc {heap : HeapMemory} (state : IntHandlerState) :
    (segfaulted k i p state heap).currentProc = k.currentProc := by
  rw [segfaulted, countTick_currentProc, ← saveState_currentProc k state]
  cases sigchldTarget k.procs p p <;> rfl

theorem recordKilled_other (h : History) (heir target : Option Nat) {j : Nat} (other : j ≠ i) :
    (h.recordKilled i heir target).heir j = h.heir j ∧ (h.recordKilled i heir target).notices j = h.notices j := by
  cases target <;>
    simp [History.recordKilled, History.recordDeath, History.recordNotice, History.recordSent, other]

theorem recordKilled_self (h : History) {pp : Nat}
    (recorded : (h.recordKilled i (livingParent procs p) (sigchldTarget procs p p)).heir i = some pp) :
    (h.recordKilled i (livingParent procs p) (sigchldTarget procs p p)).notices i = h.notices i ++ [(pp, sigchld)] := by
  have living : livingParent procs p = some pp := by
    cases found : sigchldTarget procs p p <;>
      simpa [found, History.recordKilled, History.recordDeath, History.recordNotice, History.recordSent]
        using recorded
  rw [livingParent_target living]
  simp [History.recordKilled, History.recordNotice, History.recordDeath]

end

def Switches : Action → Prop
  | .irq state _ => state.timer = true
  | _ => False

section

variable {switch : Prop} {m m' : Machine} {i : Nat} {p : Proc}

theorem live_on (dead : ∀ j, deadAt m'.kernel.procs j = deadAt m.kernel.procs j)
    (history : m'.history.heir = m.history.heir ∧ m'.history.notices = m.history.notices)
    (before : ∀ j, m.kernel.currentProc = some j → deadAt m.kernel.procs j = false)
    (after : ∀ j, m'.kernel.currentProc = some j → deadAt m'.kernel.procs j = false) :
    ∀ j, LifeStep switch (life m j) (life m' j) := by
  intro j
  apply LifeStep.same (dead j) (congrFun history.1 j) (congrFun history.2 j)
  intro dying
  have idle : m.kernel.currentProc ≠ some j := fun running => by
    simp [life, before j running] at dying
  have never : m'.kernel.currentProc ≠ some j := fun running => by
    simp [life, ← dead j, after j running] at dying
  simp [life, idle, never]

variable {k : KernelState} {action : Action}

theorem picked_alive (picks : Picked k) {j : Nat} (running : k.currentProc = some j) : deadAt k.procs j = false := by
  obtain ⟨q, there, runnable | syscall⟩ := picks j running
  · simp [deadAt_self there, isDead, runnable]
  · simp [deadAt_self there, isDead, syscall]

theorem resume_lives {before : KernelState} {x : Option (Except Stop KernelState)}
    (resumed : m.resume before x = some m') (dead : ∀ j, deadAt before.procs j = deadAt m.kernel.procs j)
    (place : ∀ j, m.kernel.currentProc = some j → m.phase j = .done ∨ switch ∨ deadAt m.kernel.procs j = false)
    (switches : ∀ after, x = some (.ok after) → Switched before after ∧ Picked after) :
    ∀ j, LifeStep switch (life m j) (life m' j) := by
  intro j
  rcases resume_cases resumed with ⟨after, result, rfl⟩ | ⟨stop, -, rfl⟩
  · obtain ⟨switched, picks⟩ := switches after result
    have same : deadAt after.procs j = deadAt m.kernel.procs j := (deadAt_switched switched j).trans (dead j)
    cases dying : deadAt m.kernel.procs j with
    | false => exact .lives dying (same.trans dying) rfl
    | true =>
      have never : after.currentProc ≠ some j := by
        intro running
        simp [picked_alive picks running, dying] at same
      by_cases running : m.kernel.currentProc = some j
      · refine .leaves dying (same.trans dying) (decide_eq_true running) ?_ (decide_eq_false never) rfl rfl
        rcases place j running with done | interrupted | alive
        · exact Or.inl done
        · exact Or.inr interrupted
        · rw [dying] at alive
          cases alive
      · exact .rests dying (same.trans dying) (decide_eq_false running) (decide_eq_false never) rfl rfl
  · exact .refl _

theorem irq_lives {state : IntHandlerState} {fuel : Nat} (served : m.irq state fuel = some m') :
    ∀ j, LifeStep (state.timer = true) (life m j) (life m' j) := by
  have dead : ∀ j, deadAt (countTick (saveState m.kernel state) state).procs j = deadAt m.kernel.procs j := by
    intro j
    rw [countTick_procs]
    exact deadAt_map (saveState_map isDead_procState m.kernel state) j
  unfold Machine.irq at served
  dsimp only at served
  cases switch : state.timer || m.kernel.currentProc.isNone with
  | true =>
    rw [switch] at served
    refine resume_lives served dead (fun j running => ?_) fun after ended => interruptEnd_switched ended
    simp only [running, Option.isNone_some, Bool.or_false] at switch
    exact Or.inr (Or.inl switch)
  | false =>
    intro j
    rw [switch] at served
    rcases resume_cases served with ⟨after, result, rfl⟩ | ⟨stop, -, rfl⟩
    · obtain ⟨switched, current⟩ := interruptEnd_switched result
      simp only [Bool.false_eq_true, if_false, countTick_currentProc, saveState_currentProc] at current
      have same : deadAt after.procs j = deadAt m.kernel.procs j :=
        (deadAt_switched switched j).trans (dead j)
      have relatives : after.procs.map kin = m.kernel.procs.map kin := by
        refine (switched.map (fun _ _ => rfl) fun _ => rfl).trans ?_
        rw [countTick_procs]
        exact saveState_map (fun _ _ => rfl) m.kernel state
      cases dying : deadAt m.kernel.procs j with
      | false => exact .lives dying (same.trans dying) rfl
      | true =>
        refine .waits dying ?_
        simp [life, same, current, parentAt_map relatives, History.recordAlarms]
    · exact .refl _

variable (running : m.kernel.currentProc = some i) (here : m.kernel.procs[i]? = some p)
include running here

theorem acts_alive (alive : isDead p = false) (dead : ∀ j, deadAt m'.kernel.procs j = deadAt m.kernel.procs j)
    (history : m'.history.heir = m.history.heir ∧ m'.history.notices = m.history.notices)
    (current : m'.kernel.currentProc = m.kernel.currentProc) : ∀ j, LifeStep switch (life m j) (life m' j) := by
  have living : ∀ j, m.kernel.currentProc = some j → deadAt m.kernel.procs j = false := by
    intro j chosen
    obtain rfl := Option.some.inj (running.symm.trans chosen)
    rw [deadAt_self here, alive]
  refine live_on dead history living fun j chosen => ?_
  rw [dead]
  exact living j (current.symm.trans chosen)

omit here in
theorem acts_self (others : ∀ j, j ≠ i → deadAt m'.kernel.procs j = deadAt m.kernel.procs j) (history : ∀ j, j ≠ i →
      m'.history.heir j = m.history.heir j ∧ m'.history.notices j = m.history.notices j)
    (after : ∀ j, j ≠ i → m'.kernel.currentProc = some j → deadAt m'.kernel.procs j = false)
    (own : LifeStep switch (life m i) (life m' i)) : ∀ j, LifeStep switch (life m j) (life m' j) := by
  intro j
  by_cases self : j = i
  · rw [self]
    exact own
  · obtain ⟨heir, notices⟩ := history j self
    refine .same (others j self) heir notices fun dying => ⟨?_, ?_⟩
    · simp [life, running, Ne.symm self]
    · refine decide_eq_false fun chosen => ?_
      have living := after j self chosen
      rw [others j self] at living
      exact absurd (dying.symm.trans living) (by simp)

omit here in
theorem still_runs (current : m'.kernel.currentProc = m.kernel.currentProc) (j : Nat) (other : j ≠ i)
    (chosen : m'.kernel.currentProc = some j) : deadAt m'.kernel.procs j = false := by
  rw [current, running] at chosen
  exact absurd (Option.some.inj chosen).symm other

theorem signal_alive (alive : isDead p = false) (step : SignalStep m i p action m') :
    ∀ j, LifeStep switch (life m j) (life m' j) := by
  obtain ⟨place, quiet⟩ := step.quiet running
  refine acts_alive running here alive (deadAt_map (quiet.map fun _ => rfl)) ?_ quiet.current
  have living : p.state ≠ .dead := of_decide_eq_false alive
  cases step with
  | append target signal heap place room =>
    simp only [living, if_false]
    exact ⟨rfl, rfl⟩
  | _ => exact ⟨rfl, rfl⟩

theorem signal_dead (dying : isDead p = true)
    (later : m.phase i ≠ .body ∧ m.phase i ≠ .waited) (step : SignalStep m i p action m') :
    ∀ j, LifeStep switch (life m j) (life m' j) := by
  have runs : (life m i).running = true := decide_eq_true running
  have state : (life m i).dead = true := (deadAt_self here).trans dying
  have dead : p.state = .dead := of_decide_eq_true dying
  cases step with
  | refuse _ place | down _ place | send _ _ place => exact absurd place later.1
  | take _ _ place => exact absurd place later.2
  | parent place =>
    have found : (life m i).parent = sigchldTarget m.kernel.procs p p := by simp [life, parentAt, here]
    refine acts_self running (fun _ _ => rfl) (fun _ _ => ⟨rfl, rfl⟩) (still_runs running rfl)
      (.seeks state state runs runs place ?_ rfl rfl)
    rw [found]
    cases sigchldTarget m.kernel.procs p p <;> simp [life, Machine.setPhase]
  | append target signal heap place room =>
    have appended := deadAt_map (map_modifyProc m.kernel target (fun q => listAppendSignal q signal)
      (π := isDead) fun _ => rfl)
    simp only [dead, if_true]
    refine acts_self running (fun j _ => appended j) (fun j other => ⟨rfl, ?_⟩) (still_runs running rfl)
      (.appends target signal state ((appended i).trans state) runs place ?_ rfl ?_)
    · simp [Machine.setPhase, History.recordNotice, other]
    · simp [life, Machine.setPhase]
    · simp [life, Machine.setPhase, History.recordNotice]
  | up target place =>
    have raised := deadAt_map (map_modifyProc m.kernel target semaphoreUpSignal (π := isDead) fun _ => rfl)
    refine acts_self running (fun j _ => raised j) (fun _ _ => ⟨rfl, rfl⟩) (still_runs running rfl)
      (.raises target state ((raised i).trans state) runs place ?_ rfl rfl)
    simp [life, Machine.setPhase]

theorem callExit_lives (alive : isDead p = false) : ∀ j, LifeStep switch (life m j) (life (m.callExit i p) j) := by
  obtain ⟨s, logged⟩ := mapPageZero_at here illegalPage
  have kernel : (m.callExit i p).kernel = (m.kernel.mapPageZero illegalPage).modifyProc i fun p => { p with
      syscallState := p.syscallState.setReg 0 (p.syscallState.regs 1), state := .dead } := rfl
  apply acts_self running
  · intro j other
    rw [kernel, deadAt, modifyProc_of_ne _ _ _ other]
    exact deadAt_map (mapPageZero_map isDead_procState m.kernel illegalPage) j
  · intro j other
    simp [Machine.callExit, Machine.setPhase, History.recordDeath, other]
  · exact still_runs running (mapPageZero_currentProc m.kernel illegalPage)
  · refine .exits ?_ ?_ ?_ ?_ ?_ rfl
    · exact (deadAt_self here).trans alive
    · simp [life, kernel, deadAt, logged, isDead]
    · simp [life, kernel, running]
    · simp [life, Machine.callExit, Machine.setPhase]
    · intro pp heir
      have living : livingParent m.kernel.procs p = some pp := by
        simpa [life, Machine.callExit, Machine.setPhase, History.recordDeath] using heir
      have relatives : (m.callExit i p).kernel.procs.map kin = m.kernel.procs.map kin := by
        rw [kernel]
        refine (map_modifyProc _ _ _ ?_).trans (mapPageZero_map (fun _ _ => rfl) m.kernel illegalPage)
        exact fun _ => rfl
      refine (parentAt_map relatives i).trans ?_
      simp [parentAt, here, livingParent_target living]

theorem exec_lives {answers : Answers} {child : Option Nat} (alive : isDead p = false)
    (call : p.syscall = some .exec) (begun : execBegin m.kernel i p answers = .ok (k, child)) :
    ∀ j, LifeStep switch (life m j) (life ((m.setKernel k).setPhase i (child.elim .done .loading)) j) := by
  have begins := (execBegin_frame running answers call).returned begun
  cases child with
  | none =>
    exact acts_alive running here alive (deadAt_map (begins.map fun _ => rfl)) ⟨rfl, rfl⟩ begins.current
  | some child =>
    obtain ⟨position, k₁, new, frame, fresh, procs, current⟩ := begins
    refine acts_alive running here alive (fun j => ?_) ⟨rfl, rfl⟩ current
    rw [← deadAt_map (frame.map fun _ => rfl) j]
    change deadAt k.procs j = _
    rw [procs]
    unfold deadAt
    by_cases small : j < k₁.procs.length
    · rw [List.getElem?_append_left small]
    · have beyond : k₁.procs[j]? = none := List.getElem?_eq_none (not_lt.mp small)
      rw [beyond, List.getElem?_append_right (not_lt.mp small)]
      cases last : [new][j - k₁.procs.length]? with
      | none => rfl
      | some q =>
        obtain rfl := List.mem_singleton.mp (List.mem_of_getElem? last)
        simp [isDead, fresh.state]

theorem leave_lives (alive : isDead p = false) (left : intSysCallLeave m.kernel i = .ok k)
    {history : History} (same : history.heir = m.history.heir ∧ history.notices = m.history.notices) :
    ∀ j, LifeStep switch (life m j) (life ({ m with kernel := k, history := history }.setPhase i .user) j) := by
  obtain ⟨current, cases_of⟩ := (intSysCallLeave_map shaded_shade here).returned left
  refine acts_alive running here alive (fun j => ?_) same current
  rcases cases_of with ⟨-, same⟩ | ⟨-, -, signal, queue, -, same⟩
  · refine (deadAt_map (map_of_shade (fun _ => rfl) same) j).trans (deadAt_modify here ?_ j)
    exact alive.symm
  · have taken : (m.kernel.modifyProc i (delivered queue)).procs[i]? = some (delivered queue p) := by
      rw [modifyProc_self, here]
      rfl
    refine (deadAt_map (map_of_shade (fun _ => rfl) same) j).trans ((deadAt_modify taken ?_ j).trans
      (deadAt_modify here ?_ j))
    · exact alive.symm
    · rfl

omit running in
theorem asleep_deadAt (sema : SemaRef) (state : IntHandlerState) (alive : isDead p = false) (j : Nat) :
    deadAt (asleep m.kernel i sema state).procs j = deadAt m.kernel.procs j := by
  rw [asleep, countTick_procs]
  refine (deadAt_map (saveState_map isDead_procState _ _) j).trans (deadAt_modify here ?_ j)
  rw [alive]
  simp only [isDead]
  split <;> rfl

theorem segfault_lives {state : IntHandlerState} {fuel : Nat} {heap : HeapMemory} (alive : isDead p = false)
    (place : m.phase i = .user) (resumed : { m with
      kernel := segfaulted m.kernel i p state heap
      history := m.history.recordKilled i (livingParent m.kernel.procs p) (sigchldTarget m.kernel.procs p p) }.resume
        (segfaulted m.kernel i p state heap) (interruptEnd fuel true (segfaulted m.kernel i p state heap)) = some m') :
    ∀ j, LifeStep switch (life m j) (life m' j) := by
  obtain ⟨own, others⟩ := segfaulted_deadAt heap state here
  have before : (life m i).dead = false := (deadAt_self here).trans alive
  rcases resume_cases resumed with ⟨after, result, rfl⟩ | ⟨stop, -, rfl⟩
  · obtain ⟨switched, picks⟩ := interruptEnd_switched result
    have same := deadAt_switched switched
    exact acts_self running (fun j other => (same j).trans (others j other))
      (fun j other => recordKilled_other _ _ _ other) (fun j _ chosen => picked_alive picks chosen)
      (.killed before ((same i).trans own) place fun pp => recordKilled_self _)
  · exact acts_self running others (fun j other => recordKilled_other _ _ _ other)
      (still_runs running (segfaulted_currentProc state)) (.killed before own place fun pp => recordKilled_self _)

variable (stand : Stands m)
include stand

theorem alive_of_user (place : m.phase i = .user) : isDead p = false := by
  rcases stand.runs i p running here with runnable | syscall | ⟨-, inside⟩
  · simp [isDead, runnable]
  · simp [isDead, syscall]
  · exact absurd place inside

omit running in
theorem alive_of_inKernel (inside : inKernel p = true) : isDead p = false := by
  refine decide_eq_false fun dead => ?_
  have fits := stand.fits i p here
  rw [dead] at fits
  cases place : m.phase i <;> cases kind : p.type <;> simp_all [Fits, inKernel]

theorem trap_lives (state : IntHandlerState) (place : m.phase i = .user) : ∀ j, LifeStep switch (life m j)
      (life ((m.setKernel (intSysCallEnter (countTick (saveState m.kernel state) state) i)).setPhase i .body) j) := by
  have alive := alive_of_user running here stand place
  refine acts_alive running here alive (fun j => ?_) ⟨rfl, rfl⟩ ?_
  · obtain ⟨s, saved⟩ := saveState_at here state
    rw [← countTick_procs _ state] at saved
    refine (deadAt_map (intSysCallEnter_map isDead_procState _ _) j).trans ?_
    refine (deadAt_modify saved ?_ j).trans ?_
    · exact alive.symm
    · rw [countTick_procs]
      exact deadAt_map (saveState_map isDead_procState m.kernel state) j
  · simp [Machine.setPhase, Machine.setKernel]

theorem load_lives {loaded : Loaded} {child : Nat} (place : m.phase i = .loading child) :
    ∀ j, LifeStep switch (life m j) (life ({ m with
      kernel := execFinish m.kernel i p child loaded
      history := m.history.recordStart child loaded }.setPhase i .done) j) := by
  obtain ⟨c, made, unloaded⟩ := stand.loading i child place
  have inCall := in_call stand running here (Or.inr (Or.inr ⟨child, place⟩))
  refine acts_alive running here (alive_in_call inCall.2) (fun j => ?_) ⟨rfl, rfl⟩ rfl
  refine (deadAt_map (map_modifyProc _ _ _ ?_) j).trans (deadAt_modify made ?_ j)
  · exact fun _ => rfl
  · simp [isDead, unloaded, loadChild]

theorem signal_lives (step : SignalStep m i p action m') : ∀ j, LifeStep switch (life m j) (life m' j) := by
  cases dying : isDead p with
  | false => exact signal_alive running here dying step
  | true =>
    have dead : ¬ isDead p = false := by simp [dying]
    refine signal_dead running here dying ⟨fun place => ?_, fun place => ?_⟩ step
    · exact dead (alive_in_call (in_call stand running here (Or.inl place)).2)
    · exact dead (alive_in_call (in_call stand running here (Or.inr (Or.inl place))).2)

omit running here in
theorem step_lives (taken : m.step action = some m') : ∀ j, LifeStep (Switches action) (life m j) (life m' j) := by
  cases (step_cases taken).2 with
  | irq state fuel _ served => exact irq_lives served
  | others semas heap => exact fun j => .refl _
  | own i p _ _ running here does =>
    have inBody : m.phase i = .body → isDead p = false :=
      fun place => alive_in_call (in_call stand running here (Or.inl place)).2
    cases does with
    | user | stop => exact fun j => .refl _
    | trap state place outside => exact trap_lives running here stand state place
    | signal _ _ step => exact signal_lives running here stand step
    | exit answers place call => exact callExit_lives running here (inBody place)
    | exec answers k child place call begun => exact exec_lives running here (inBody place) call begun
    | serve answers k place apart served =>
      obtain ⟨same, current⟩ := (processSyscall_shade answers running apart).returned served
      exact acts_alive running here (inBody place) (deadAt_map (map_of_shade (fun _ => rfl) same)) ⟨rfl, rfl⟩
        current
    | load loaded child place => exact load_lives running here stand place
    | finish fuel _ place dead resumed =>
      refine resume_lives resumed (deadAt_map (mapPageZero_map isDead_procState m.kernel illegalPage))
        (fun j chosen => ?_) fun after ended => intSysCallSwitch_switched ended
      obtain rfl := Option.some.inj (running.symm.trans chosen)
      exact Or.inl place
    | leave fuel k place alive left => exact leave_lives running here (decide_eq_false alive) left ⟨rfl, rfl⟩
    | sleep sema state fuel _ inside place resumed =>
      have alive := alive_of_inKernel here stand inside
      refine resume_lives resumed (asleep_deadAt here sema state alive) (fun j chosen => ?_)
        fun after ended => interruptEnd_switched ended
      obtain rfl := Option.some.inj (running.symm.trans chosen)
      exact Or.inr (Or.inr ((deadAt_self here).trans alive))
    | segfault state fuel heap _ place outside room resumed =>
      exact segfault_lives running here (alive_of_user running here stand place) place resumed
    | pageZero page inside =>
      exact acts_alive running here (alive_of_inKernel here stand inside)
        (deadAt_map (mapPageZero_map isDead_procState m.kernel page)) ⟨rfl, rfl⟩
        (mapPageZero_currentProc m.kernel page)

end

/-- A process that has ended with a living parent, and does not run any more or is stopped with the kernel,
has had one child signal appended to the queue of that parent, and nothing else. -/
def ChildrenNotified (m : Machine) : Prop :=
  ∀ (j : Nat) (p : Proc), m.kernel.procs[j]? = some p → p.state = .dead →
    m.kernel.currentProc ≠ some j ∨ m.halted ≠ none →
    ∀ pp, m.history.heir j = some pp → m.history.notices j = [(pp, sigchld)]

def appending : Phase → Bool
  | .append _ _ => true
  | _ => false

/-- No timer interrupt comes while a process with a living parent is between `state = DEAD` and
`list_append` in `SYS_EXIT`, and the notice of a death finds room on the heap. -/
def Calm (m : Machine) : Action → Prop
  | .irq state _ => state.timer = true → ∀ i ∈ m.kernel.currentProc, ∀ p ∈ m.kernel.procs[i]?,
      p.state = .dead → notifying (m.phase i) = true → m.history.heir i = none
  | .proceed => ∀ i ∈ m.kernel.currentProc, ∀ p ∈ m.kernel.procs[i]?, p.state = .dead →
      appending (m.phase i) = true → (signalBlocks m.kernel.heap).isOk = true
  | .segfault _ _ => ∀ i ∈ m.kernel.currentProc, ∀ p ∈ m.kernel.procs[i]?,
      (noticeHeap m.kernel.heap (sigchldTarget m.kernel.procs p p)).isOk = true
  | _ => True

instance (m : Machine) (action : Action) : Decidable (Calm m action) := by
  apply @Kernel.Action.casesOn (fun action => Decidable (Calm m action)) action <;> intros <;>
    dsimp only [Calm] <;> infer_instance

/-- The kernel has not stopped before a notice. -/
def Uncut (m : Machine) : Prop :=
  m.halted ≠ none → ∀ j, m.kernel.currentProc = some j → deadAt m.kernel.procs j = true →
    notifying (m.phase j) = true → m.history.heir j = none

structure LifeInv (m : Machine) : Prop where
  stand : m.halted = none → Stands m
  sound : ∀ j, (life m j).Sound
  uncut : Uncut m

variable {m m' : Machine} {action : Action}

theorem LifeInv.notified (inv : LifeInv m) : ChildrenNotified m := by
  intro j p here dead ended pp living
  have dying : deadAt m.kernel.procs j = true := (deadAt_self here).trans (decide_eq_true dead)
  refine (inv.sound j).settles dying (fun running => ?_) pp living
  apply Bool.eq_false_of_not_eq_true
  intro amid
  have chosen : m.kernel.currentProc = some j := of_decide_eq_true running
  have nobody := inv.uncut (ended.resolve_left (not_not_intro chosen)) j chosen dying amid
  rw [living] at nobody
  cases nobody

theorem resume_uncut {before : KernelState} {x : Option (Except Stop KernelState)}
    (resumed : m.resume before x = some m') (goes : m.halted = none) (late : ∀ stop, x = some (.error stop) → ∀ j,
      m.kernel.currentProc = some j → deadAt m.kernel.procs j = true → notifying (m.phase j) = true →
      m.history.heir j = none) : Uncut m' := by
  rcases resume_cases resumed with ⟨after, -, rfl⟩ | ⟨stop, failed, rfl⟩
  · exact fun halted => absurd goes halted
  · exact fun _ => late stop failed

theorem irq_uncut {state : IntHandlerState} {fuel : Nat} (goes : m.halted = none)
    (calm : Calm m (.irq state fuel)) (served : m.irq state fuel = some m') : Uncut m' := by
  refine resume_uncut served goes fun stop failed j chosen dead amid => ?_
  obtain ⟨p, here, dying⟩ := (Option.any_eq_true _ _).mp dead
  cases timer : state.timer with
  | true => exact calm timer j chosen p here (of_decide_eq_true dying) amid
  | false =>
    -- without a switch only a process that is not loaded stops the kernel
    rw [timer, chosen] at failed
    have ended := Option.some.inj failed
    unfold resumeCurrent at ended
    split at ended
    · rename_i unloaded
      obtain ⟨s, saved⟩ := saveState_at here state
      rw [countTick_currentProc, saveState_currentProc, chosen] at unloaded
      simp [countTick_procs, saved, show p.state = .dead from of_decide_eq_true dying] at unloaded
    · cases ended

theorem step_uncut (stand : Stands m) (calm : Calm m action) (taken : m.step action = some m') : Uncut m' := by
  obtain ⟨goes, steps⟩ := step_cases taken
  cases steps with
  | irq state fuel _ served => exact irq_uncut goes calm served
  | others semas heap => exact fun halted => absurd goes halted
  | own i p _ _ running here does =>
    have only : ∀ {m₀ : Machine}, m₀.kernel.currentProc = m.kernel.currentProc → notifying (m₀.phase i) = false →
        ∀ j, m₀.kernel.currentProc = some j → deadAt m₀.kernel.procs j = true → notifying (m₀.phase j) = true →
          m₀.history.heir j = none := by
      intro m₀ same calmly j chosen dead amid
      obtain rfl := Option.some.inj (running.symm.trans (same.symm.trans chosen))
      rw [calmly] at amid
      cases amid
    cases does with
    | user | trap | exit | exec | serve | load | leave | pageZero => exact fun halted => absurd goes halted
    | signal _ _ step => cases step <;> exact fun halted => absurd goes halted
    | finish fuel _ place dead resumed =>
      exact resume_uncut resumed goes fun _ _ => only rfl (congrArg notifying place)
    | sleep sema state fuel _ inside place resumed =>
      refine resume_uncut resumed goes fun _ _ j chosen dead => ?_
      obtain rfl := Option.some.inj (running.symm.trans chosen)
      rw [deadAt_self here, alive_of_inKernel here stand inside] at dead
      cases dead
    | segfault state fuel heap _ place outside room resumed =>
      exact resume_uncut resumed goes fun _ _ => only (segfaulted_currentProc state) (congrArg notifying place)
    | stop _ stop fault =>
      intro _
      cases fault with
      | exec _ _ place | serve _ _ place | wait place | leave _ _ place | segfault _ _ place | notice _ _ _ place =>
        exact only rfl (congrArg notifying place)
      | append target signal _ place full =>
        intro j chosen dead amid
        obtain rfl := Option.some.inj (running.symm.trans chosen)
        have dying : p.state = .dead := of_decide_eq_true ((deadAt_self here).symm.trans dead)
        have room := calm i running p here dying (congrArg appending place)
        rw [full] at room
        cases room

theorem step_lifeInv (inv : LifeInv m) (calm : Calm m action) (taken : m.step action = some m') : LifeInv m' := by
  have stand := inv.stand (step_cases taken).1
  refine ⟨step_stands stand taken, fun j => (step_lives stand taken j).sound (inv.sound j) ?_,
    step_uncut stand calm taken⟩
  intro switches dead running amid
  cases action with
  | irq state fuel =>
    obtain ⟨p, here, dying⟩ := (Option.any_eq_true _ _).mp dead
    exact calm switches j (of_decide_eq_true running) p here (of_decide_eq_true dying) amid
  | _ => exact absurd switches id

theorem start_sound (k : KernelState) (j : Nat) : (life (Machine.start k) j).Sound := by
  have nobody : (life (Machine.start k) j).heir = none := rfl
  cases alive : (life (Machine.start k) j).dead with
  | false => exact .alive alive rfl
  | true =>
    refine .settled alive (fun _ => rfl) fun pp living => ?_
    rw [nobody] at living
    cases living

def parentAndChild : KernelState := runningFirst [userProc 1 0 0x211, userProc 2 1 0x213]

def childExits : List Action :=
  [tick, .trap (userRegs Syscall.exit.number 0 0 0 false), .call (.refusing fun _ _ => 0), .proceed, .proceed,
    .proceed, .leave 8]

theorem gone_for_good {actions : List Action} {j : Nat} (stand : m.halted = none → Stands m)
    (dead : (life m j).dead = true) (idle : (life m j).running = false)
    (action : run Machine.step m actions = some m') :
    (life m' j).dead = true ∧ (life m' j).running = false ∧ m'.history.notices j = m.history.notices j := by
  have kept := run_invariant (I := fun s : Machine => (s.halted = none → Stands s) ∧ (life s j).dead = true ∧
    (life s j).running = false ∧ s.history.notices j = m.history.notices j) ?_ ⟨stand, dead, idle, rfl⟩ action
  · exact kept.2
  · rintro s a s' ⟨stand, dead, idle, same⟩ taken
    have standing := stand (step_cases taken).1
    obtain ⟨dead', idle', -, same'⟩ := (step_lives standing taken j).gone dead idle
    exact ⟨step_stands standing taken, dead', idle', same'.trans same⟩

def interruptedExit : List Action :=
  [tick, .trap (userRegs Syscall.exit.number 0 0 0 false), .call (.refusing fun _ _ => 0), tick]

end PiOS.Proof.Lifecycle
