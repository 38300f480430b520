import PiOS.Proof.Steps

namespace PiOS.Proof
open Kernel Transition Function

def Fits : Phase → ProcType → RunState → Prop
  | .user, .kernel, s => s = .runnable ∨ s = .blocked
  | .user, _, s => s = .unloaded ∨ s = .runnable ∨ s = .dead
  | .body, t, s | .waited, t, s | .loading _, t, s => t ≠ .kernel ∧ (s = .syscall ∨ s = .syscallBlocked)
  | .marked, t, s => t ≠ .kernel ∧ s = .dead
  | .append _ _, t, s | .up _, t, s | .done, t, s =>
    t ≠ .kernel ∧ (s = .syscall ∨ s = .syscallBlocked ∨ s = .dead)

instance (place : Phase) (t : ProcType) (s : RunState) : Decidable (Fits place t s) := by
  cases place <;> cases t <;> unfold Fits <;> infer_instance

def Ready (k : KernelState) : Prop :=
  (∀ p ∈ k.procs, Fits .user p.type p.state) ∧
    ∀ i ∈ k.currentProc, ∀ p ∈ k.procs[i]?, p.state = .runnable

instance (k : KernelState) : Decidable (Ready k) := by
  unfold Ready
  infer_instance

def Runs (place : Phase) (s : RunState) : Prop :=
  s = .runnable ∨ s = .syscall ∨ s = .dead ∧ place ≠ .user

def standing (p : Proc) : ProcType × RunState := (p.type, p.state)

/-- Every process stands where its state says, and the process being loaded is nobody else's. -/
structure Standing (procs : List Proc) (current : Option Nat) (phase : Nat → Phase) : Prop where
  fits : ∀ (i : Nat) (p : Proc), procs[i]? = some p → Fits (phase i) p.type p.state
  runs : ∀ (i : Nat) (p : Proc), current = some i → procs[i]? = some p → Runs (phase i) p.state
  fresh : ∀ i, procs.length ≤ i → phase i = .user
  loading : ∀ i child, phase i = .loading child → ∃ p, procs[child]? = some p ∧ p.state = .unloaded
  single : ∀ i j child, phase i = .loading child → phase j = .loading child → i = j

section

variable {k k' : KernelState} {procs procs' : List Proc} {current : Option Nat} {phase : Nat → Phase}
  {i : Nat} {p : Proc} {t : BitVec 32} {q : Proc}

theorem standing_at (same : procs'.map standing = procs.map standing) {j : Nat}
    (there : procs'[j]? = some q) : ∃ p, procs[j]? = some p ∧ p.type = q.type ∧ p.state = q.state := by
  have equal := congrArg (fun list => list[j]?) same
  simp only [List.getElem?_map, there, Option.map_some] at equal
  obtain ⟨p, here, matched⟩ := Option.map_eq_some_iff.mp equal.symm
  exact ⟨p, here, congrArg Prod.fst matched, congrArg Prod.snd matched⟩

theorem Standing.same (stand : Standing procs current phase)
    (same : procs'.map standing = procs.map standing) : Standing procs' current phase := by
  have length : procs'.length = procs.length := by simpa using congrArg List.length same
  refine ⟨fun j q there => ?_, fun j q chosen there => ?_, ?_, fun j child place => ?_, stand.single⟩
  · obtain ⟨p, here, type, state⟩ := standing_at same there
    rw [← type, ← state]
    exact stand.fits j p here
  · obtain ⟨p, here, -, state⟩ := standing_at same there
    rw [← state]
    exact stand.runs j p chosen here
  · rw [length]
    exact stand.fresh
  · obtain ⟨p, here, unloaded⟩ := stand.loading j child place
    obtain ⟨q, there, -, state⟩ := standing_at same.symm here
    exact ⟨q, there, state.trans unloaded⟩

theorem Standing.move (stand : Standing k.procs current phase) (here : k.procs[i]? = some p)
    (loaded : p.state ≠ .unloaded) (f : Proc → Proc) (place : Phase)
    (fits : Fits place (f p).type (f p).state) (runs : current = some i → Runs place (f p).state)
    (free : ∀ child, place = .loading child →
      (∃ q, k.procs[child]? = some q ∧ q.state = .unloaded) ∧ ∀ j, j ≠ i → phase j ≠ .loading child) :
    Standing (k.modifyProc i f).procs current (update phase i place) := by
  have inside : i < k.procs.length := (List.getElem?_eq_some_iff.mp here).1
  refine ⟨fun j q there => ?_, fun j q chosen there => ?_, fun j outside => ?_, fun j child at_j => ?_,
    fun j l child at_j at_l => ?_⟩
  · by_cases own : j = i
    · subst own
      rw [modifyProc_self, here] at there
      obtain rfl := Option.some.inj there
      rwa [update_self]
    · rw [modifyProc_of_ne _ _ _ own] at there
      rw [update_of_ne own]
      exact stand.fits j q there
  · by_cases own : j = i
    · subst own
      rw [modifyProc_self, here] at there
      obtain rfl := Option.some.inj there
      rw [update_self]
      exact runs chosen
    · rw [modifyProc_of_ne _ _ _ own] at there
      rw [update_of_ne own]
      exact stand.runs j q chosen there
  · rw [modifyProc_length] at outside
    rw [update_of_ne (by omega)]
    exact stand.fresh j outside
  · have kept : ∃ q, k.procs[child]? = some q ∧ q.state = .unloaded := by
      by_cases own : j = i
      · subst own
        rw [update_self] at at_j
        exact (free child at_j).1
      · rw [update_of_ne own] at at_j
        exact stand.loading j child at_j
    obtain ⟨q, there, unloaded⟩ := kept
    have other : child ≠ i := by
      rintro rfl
      exact loaded (Option.some.inj (here.symm.trans there) ▸ unloaded)
    exact ⟨q, by rwa [modifyProc_of_ne _ _ _ other], unloaded⟩
  · by_cases ownJ : j = i <;> by_cases ownL : l = i
    · exact ownJ.trans ownL.symm
    · rw [ownJ, update_self] at at_j
      rw [update_of_ne ownL] at at_l
      exact absurd at_l ((free child at_j).2 l ownL)
    · rw [ownL, update_self] at at_l
      rw [update_of_ne ownJ] at at_j
      exact absurd at_j ((free child at_l).2 j ownJ)
    · rw [update_of_ne ownJ] at at_j
      rw [update_of_ne ownL] at at_l
      exact stand.single j l child at_j at_l

theorem Standing.grow (stand : Standing procs current phase) {child : Proc} (fresh : Fresh child)
    (inside : ∀ j, current = some j → j < procs.length) : Standing (procs ++ [child]) current phase := by
  have cases_of : ∀ {j q}, (procs ++ [child])[j]? = some q →
      procs[j]? = some q ∨ j = procs.length ∧ q = child := by
    intro j q there
    by_cases small : j < procs.length
    · rw [List.getElem?_append_left small] at there
      exact Or.inl there
    · have last := (List.getElem?_eq_some_iff.mp there).1
      simp only [List.length_append, List.length_singleton] at last
      have equal : j = procs.length := by omega
      subst equal
      rw [List.getElem?_append_right le_rfl, Nat.sub_self] at there
      exact Or.inr ⟨rfl, (Option.some.inj there).symm⟩
  refine ⟨fun j q there => ?_, fun j q chosen there => ?_, fun j outside => ?_, fun j c place => ?_,
    stand.single⟩
  · rcases cases_of there with here | ⟨rfl, rfl⟩
    · exact stand.fits j q here
    · rw [stand.fresh _ le_rfl, fresh.type, fresh.state]
      exact Or.inl rfl
  · rcases cases_of there with here | ⟨rfl, rfl⟩
    · exact stand.runs j q chosen here
    · exact absurd (inside _ chosen) (lt_irrefl _)
  · simp only [List.length_append, List.length_singleton] at outside
    exact stand.fresh j (by omega)
  · obtain ⟨q, here, unloaded⟩ := stand.loading j c place
    refine ⟨q, ?_, unloaded⟩
    rw [List.getElem?_append_left (List.getElem?_eq_some_iff.mp here).1]
    exact here

theorem Fits.scheduled {place : Phase} (fits : Fits place p.type p.state)
    (effect : SchedEffect t p q) : Fits place q.type q.state := by
  have type : q.type = p.type := effect.keeps (alarmed_keeps fun _ _ => rfl) fun _ => rfl
  rw [type]
  rcases effect.state with same | ⟨blocked, runnable⟩ | ⟨blocked, syscall⟩
  · rwa [same]
  · rw [runnable]
    rw [blocked] at fits
    cases place <;> cases kind : p.type <;> simp_all [Fits]
  · rw [syscall]
    rw [blocked] at fits
    cases place <;> cases kind : p.type <;> simp_all [Fits]

theorem Standing.switched (stand : Standing k.procs current phase) (switched : Switched k k')
    (runs : ∀ (j : Nat) (q : Proc), k'.currentProc = some j → k'.procs[j]? = some q → Runs (phase j) q.state) :
    Standing k'.procs k'.currentProc phase := by
  refine ⟨fun j q there => ?_, runs, ?_, fun j child place => ?_, stand.single⟩
  · have inside : j < k.procs.length := by
      rw [← switched.length]
      exact (List.getElem?_eq_some_iff.mp there).1
    obtain ⟨r, equal, effect⟩ := switched.each j _ (List.getElem?_eq_getElem inside)
    obtain rfl := Option.some.inj (there.symm.trans equal)
    exact (stand.fits j _ (List.getElem?_eq_getElem inside)).scheduled effect
  · rw [switched.length]
    exact stand.fresh
  · obtain ⟨q, here, unloaded⟩ := stand.loading j child place
    obtain ⟨r, there, effect⟩ := switched.each child q here
    refine ⟨r, there, ?_⟩
    rcases effect.state with same | ⟨blocked, -⟩ | ⟨blocked, -⟩
    · exact same.trans unloaded
    · rw [unloaded] at blocked
      cases blocked
    · rw [unloaded] at blocked
      cases blocked

theorem Runs.not_unloaded {place : Phase} {s : RunState} (runs : Runs place s) : s ≠ .unloaded := by
  rintro rfl
  simp [Runs] at runs

theorem Runs.scheduled {place : Phase} (runs : Runs place p.state)
    (effect : SchedEffect t p q) : Runs place q.state := by
  rcases effect.state with same | ⟨blocked, -⟩ | ⟨blocked, -⟩
  · rwa [same]
  · simp [Runs, blocked] at runs
  · simp [Runs, blocked] at runs

theorem Standing.idle (stand : Standing procs current phase) : Standing procs none phase :=
  { stand with runs := fun _ _ chosen => by cases chosen }

theorem Standing.place (stand : Standing k.procs current phase) (here : k.procs[i]? = some p)
    (loaded : p.state ≠ .unloaded) (place : Phase) (fits : Fits place p.type p.state)
    (runs : current = some i → Runs place p.state) (free : ∀ child, place = .loading child →
      (∃ q, k.procs[child]? = some q ∧ q.state = .unloaded) ∧ ∀ j, j ≠ i → phase j ≠ .loading child) :
    Standing k.procs current (update phase i place) := by
  have moved := stand.move here loaded id place fits runs free
  exact moved.same (map_modifyProc k i id fun _ => rfl).symm

theorem Standing.child (stand : Standing procs current phase) (here : procs[i]? = some p)
    (running : current = some i) {child : Nat} (place : phase i = .loading child) :
    ∃ c, procs[child]? = some c ∧ c.state = .unloaded ∧ phase child = .user ∧ c.type ≠ .kernel ∧ child ≠ i := by
  obtain ⟨c, made, unloaded⟩ := stand.loading i child place
  have fits := stand.fits child c made
  rw [unloaded] at fits
  refine ⟨c, made, unloaded, ?_, ?_, ?_⟩
  · cases at_child : phase child <;> simp_all [Fits]
  · cases at_child : phase child <;> cases kind : c.type <;> simp_all [Fits]
  · rintro rfl
    obtain rfl := Option.some.inj (made.symm.trans here)
    exact (stand.runs child c running made).not_unloaded unloaded

theorem Standing.loaded (stand : Standing k.procs current phase) (here : k.procs[i]? = some p)
    (running : current = some i) {child : Nat} (place : phase i = .loading child) {f : Proc → Proc}
    (type : ∀ q, (f q).type = q.type) (state : ∀ q, (f q).state = .runnable) :
    Standing (k.modifyProc child f).procs current (update phase i .done) := by
  obtain ⟨c, made, unloaded, home, -, other⟩ := stand.child here running place
  have stands := stand.fits i p here
  rw [place] at stands
  refine ⟨fun j q there => ?_, fun j q chosen there => ?_, fun j outside => ?_, fun j c' at_j => ?_,
    fun j l c' at_j at_l => ?_⟩
  · by_cases own : j = i
    · subst own
      rw [modifyProc_of_ne _ _ _ (Ne.symm other), here] at there
      obtain rfl := Option.some.inj there
      rw [update_self]
      exact ⟨stands.1, stands.2.elim Or.inl fun blocked => Or.inr (Or.inl blocked)⟩
    · rw [update_of_ne own]
      by_cases new : j = child
      · subst new
        rw [modifyProc_self, made] at there
        obtain rfl := Option.some.inj there
        have fits := stand.fits j c made
        rw [home, unloaded] at fits
        rw [home, type, state]
        cases kind : c.type <;> simp_all [Fits]
      · rw [modifyProc_of_ne _ _ _ new] at there
        exact stand.fits j q there
  · obtain rfl := Option.some.inj (running.symm.trans chosen)
    rw [modifyProc_of_ne _ _ _ (Ne.symm other), here] at there
    obtain rfl := Option.some.inj there
    rcases stand.runs i p running here with runnable | syscall | ⟨dead, -⟩
    · exact Or.inl runnable
    · exact Or.inr (Or.inl syscall)
    · simp [dead, Fits] at stands
  · rw [modifyProc_length] at outside
    have inside : i < k.procs.length := (List.getElem?_eq_some_iff.mp here).1
    rw [update_of_ne (by omega)]
    exact stand.fresh j outside
  · by_cases own : j = i
    · rw [own, update_self] at at_j
      cases at_j
    · rw [update_of_ne own] at at_j
      obtain ⟨q, there, unloaded'⟩ := stand.loading j c' at_j
      have different : c' ≠ child := by
        rintro rfl
        exact own (stand.single j i c' at_j place)
      exact ⟨q, by rwa [modifyProc_of_ne _ _ _ different], unloaded'⟩
  · by_cases ownJ : j = i
    · rw [ownJ, update_self] at at_j
      cases at_j
    by_cases ownL : l = i
    · rw [ownL, update_self] at at_l
      cases at_l
    rw [update_of_ne ownJ] at at_j
    rw [update_of_ne ownL] at at_l
    exact stand.single j l c' at_j at_l

end

def unsignalled (p : Proc) : Proc := { p with signalQueue := [], signalSema := 0 }

def unanswered (p : Proc) : Proc :=
  { unsignalled p with
    procState := .zero
    syscallState := p.syscallState.setReg 0 0
    openFiles := fun _ => ⟨none, 0, 0, none⟩
    sighandler := 0 }

theorem setReg_setReg (s : ProcState) (r : Fin 8) (v w : Word) : (s.setReg r v).setReg r w = s.setReg r w := by
  simp [ProcState.setReg]

instance : Steady unanswered where
  procState _ _ := rfl
  answer p w := by simp only [unanswered, unsignalled, setReg_setReg]
  openFiles _ _ := rfl
  sighandler _ _ := rfl

structure Quiet (m : Machine) (i : Nat) (m' : Machine) (place : Phase) : Prop where
  before : m.phase i ≠ .user ∧ m.phase i ≠ .done
  after : place ≠ .user ∧ place ≠ .body ∧ ∀ child, place ≠ .loading child
  fits : ∀ t s, Fits (m.phase i) t s → Fits place t s
  phase : m'.phase = update m.phase i place
  current : m'.kernel.currentProc = m.kernel.currentProc
  halted : m'.halted = m.halted
  granted : m'.history.granted = m.history.granted
  returns : m'.history.returns = m.history.returns
  procs : (m.phase i = .body ∨ m.phase i = .waited) ∧ FrameOf unanswered i m.kernel m'.kernel ∨
    m'.kernel.procs.map unsignalled = m.kernel.procs.map unsignalled

section

variable {m m' : Machine} {i : Nat} {p : Proc} {place : Phase}

theorem Quiet.map {α : Type} {π : Proc → α} (quiet : Quiet m i m' place)
    (blind : ∀ q, π (unanswered q) = π q) : m'.kernel.procs.map π = m.kernel.procs.map π := by
  rcases quiet.procs with ⟨-, frame⟩ | same
  · exact frame.map blind
  · have unseen : ∀ q, π (unsignalled q) = π q := fun q => (blind (unsignalled q)).symm.trans (blind q)
    have seen := congrArg (List.map π) same
    simpa only [List.map_map, Function.comp_def, unseen] using seen

theorem Fits.later {t : ProcType} {s : RunState} (fits : Fits place t s) (inside : place ≠ .user) :
    t ≠ .kernel ∧ (s = .syscall ∨ s = .syscallBlocked ∨ s = .dead) := by
  cases place with
  | user => exact absurd rfl inside
  | body | waited | loading => exact ⟨fits.1, fits.2.imp_right Or.inl⟩
  | marked => exact ⟨fits.1, Or.inr (Or.inr fits.2)⟩
  | append | up | done => exact fits

theorem SignalStep.quiet {action : Action} (running : m.kernel.currentProc = some i)
    (step : SignalStep m i p action m') : ∃ place, Quiet m i m' place := by
  have later : ∀ t s, m.phase i ≠ .user → Fits (m.phase i) t s → Fits .done t s :=
    fun t s inside fits => fits.later inside
  cases step with
  | refuse answers place call =>
    refine ⟨.done, by simp [place], by simp, fun t s => later t s (by simp [place]), rfl, rfl, rfl, rfl, rfl,
      Or.inl ⟨Or.inl place, ?_⟩⟩
    exact (FrameOf.refl i m.kernel).setReg (-einval)
  | down answers place call up =>
    refine ⟨.waited, by simp [place], by simp, ?_, rfl, rfl, rfl, rfl, rfl, Or.inr ?_⟩
    · rw [place]
      exact fun _ _ fits => fits
    · exact map_modifyProc _ _ _ fun _ => rfl
  | send answers target place call known =>
    exact ⟨.append target _, by simp [place], by simp, fun t s => later t s (by simp [place]), rfl, rfl, rfl, rfl,
      rfl, Or.inr rfl⟩
  | take signal queue place first =>
    have copied : FrameOf unanswered i m.kernel (memcpyToUserspace m.kernel p (p.syscallState.regs 1)
      signal.bytes (BitVec.ofNat 16 sizeofSignal)) := (FrameOf.refl i m.kernel).memcpyToUserspace running ..
    have taken := copied.modify (g := fun p => { p with signalQueue := queue }) fun _ => rfl
    exact ⟨.done, by simp [place], by simp, fun t s => later t s (by simp [place]), rfl, (taken.setReg 0).current,
      rfl, rfl, rfl, Or.inl ⟨Or.inr place, taken.setReg 0⟩⟩
  | parent place =>
    refine ⟨_, by simp [place], ?_, fun t s fits => ?_, rfl, rfl, rfl, rfl, rfl, Or.inr rfl⟩
    · cases sigchldTarget m.kernel.procs p p <;> simp
    · have fits := later t s (by simp [place]) fits
      cases sigchldTarget m.kernel.procs p p <;> exact fits
  | append target signal heap place room =>
    refine ⟨.up target, by simp [place], by simp, fun t s => later t s (by simp [place]), rfl, rfl, rfl, ?_, ?_,
      Or.inr (map_modifyProc _ _ _ fun _ => rfl)⟩
    · dsimp only [Machine.setPhase]
      split <;> rfl
    · dsimp only [Machine.setPhase]
      split <;> rfl
  | up target place =>
    exact ⟨.done, by simp [place], by simp, fun t s => later t s (by simp [place]), rfl, rfl, rfl, rfl, rfl,
      Or.inr (map_modifyProc _ _ _ fun _ => rfl)⟩

end

abbrev Stands (m : Machine) : Prop := Standing m.kernel.procs m.kernel.currentProc m.phase

section

variable {m m' : Machine} {i : Nat} {p : Proc}

theorem standing_procState (p : Proc) (s : ProcState) : standing { p with procState := s } = standing p := rfl

theorem resume_stands {before : KernelState} {current : Option Nat} {x : Option (Except Stop KernelState)}
    (resumed : m.resume before x = some m') (goes : m'.halted = none) (stand₁ : Standing before.procs current m.phase)
    (switches : ∀ after, x = some (.ok after) →
      Switched before after ∧ (Picked after ∨ after.currentProc = current)) : Stands m' := by
  rcases resume_cases resumed with ⟨after, result, rfl⟩ | ⟨stop, -, rfl⟩
  · obtain ⟨switched, goesOn⟩ := switches after result
    apply stand₁.switched switched
    intro j q chosen there
    rcases goesOn with picks | same
    · obtain ⟨r, equal, state⟩ := picks j chosen
      obtain rfl := Option.some.inj (there.symm.trans equal)
      exact state.imp_right Or.inl
    · have inside : j < before.procs.length := by
        rw [← switched.length]
        exact (List.getElem?_eq_some_iff.mp there).1
      obtain ⟨r, equal, effect⟩ := switched.each j _ (List.getElem?_eq_getElem inside)
      obtain rfl := Option.some.inj (there.symm.trans equal)
      exact (stand₁.runs j _ (same ▸ chosen) (List.getElem?_eq_getElem inside)).scheduled effect
  · cases goes

variable (stand : Stands m)
include stand

theorem irq_stands {state : IntHandlerState} {fuel : Nat} (served : m.irq state fuel = some m')
    (goes : m'.halted = none) : Stands m' := by
  have saved := stand.same (saveState_map standing_procState m.kernel state)
  rw [← countTick_procs _ state] at saved
  apply resume_stands served goes saved
  intro after ended
  obtain ⟨switched, goesOn⟩ := interruptEnd_switched ended
  refine ⟨switched, ?_⟩
  split at goesOn
  · exact Or.inl goesOn
  · right
    simpa using goesOn

variable (running : m.kernel.currentProc = some i) (here : m.kernel.procs[i]? = some p) {k : KernelState}
include running here

theorem trap_stands (state : IntHandlerState) (outside : inKernel p = false) :
    Stands ((m.setKernel (intSysCallEnter (countTick (saveState m.kernel state) state) i)).setPhase i .body) := by
  have runs := stand.runs i p running here
  simp only [inKernel, Bool.or_eq_false_iff, decide_eq_false_iff_not] at outside
  obtain ⟨⟨notKernel, notSyscall⟩, -⟩ := outside
  have loaded := runs.not_unloaded
  obtain ⟨s, saved⟩ := saveState_at here state
  have stand₁ := stand.same (saveState_map standing_procState m.kernel state)
  rw [← countTick_procs _ state] at stand₁ saved
  have entered := stand₁.move saved loaded enterSyscall .body ⟨notKernel, Or.inl rfl⟩
    (fun _ => Or.inr (Or.inl rfl)) (fun child load => by cases load)
  have logged := entered.same (intSysCallEnter_map standing_procState
    (countTick (saveState m.kernel state) state) i)
  simpa [Stands, Machine.setPhase, Machine.setKernel] using logged

theorem in_call (place : m.phase i = .body ∨ m.phase i = .waited ∨ ∃ child, m.phase i = .loading child) :
    p.type ≠ .kernel ∧ p.state = .syscall := by
  have runs := stand.runs i p running here
  have fits := stand.fits i p here
  have inside : p.type ≠ .kernel ∧ (p.state = .syscall ∨ p.state = .syscallBlocked) := by
    rcases place with body | waited | ⟨child, loading⟩
    · rwa [body] at fits
    · rwa [waited] at fits
    · rwa [loading] at fits
  refine ⟨inside.1, ?_⟩
  rcases runs with runnable | syscall | ⟨dead, -⟩
  · simp [runnable] at inside
  · exact syscall
  · simp [dead] at inside

theorem goes_on (place : Phase) (fits : Fits place p.type p.state)
    (same : k.procs.map standing = m.kernel.procs.map standing)
    (current : k.currentProc = m.kernel.currentProc) (user : place ≠ .user) (free : ∀ child, place ≠ .loading child) :
    Standing k.procs k.currentProc (update m.phase i place) := by
  have runs := stand.runs i p running here
  have moved := stand.place here runs.not_unloaded place fits
    (fun _ => runs.imp_right (Or.imp_right fun dead => ⟨dead.1, user⟩))
    fun child load => absurd load (free child)
  rw [current]
  exact moved.same same

theorem signal_stands {action : Action} (step : SignalStep m i p action m') : Stands m' := by
  obtain ⟨place, quiet⟩ := step.quiet running
  have went := goes_on stand running here place (quiet.fits _ _ (stand.fits i p here)) (quiet.map fun _ => rfl)
    quiet.current quiet.after.1 quiet.after.2.2
  rwa [← quiet.phase] at went

theorem callExit_stands (inCall : p.type ≠ .kernel ∧ p.state = .syscall) : Stands (m.callExit i p) := by
  have runs := stand.runs i p running here
  obtain ⟨s, logged⟩ := mapPageZero_at here illegalPage
  have stand₁ := stand.same (mapPageZero_map standing_procState m.kernel illegalPage)
  have moved := stand₁.move logged runs.not_unloaded (fun p => { p with
      syscallState := p.syscallState.setReg 0 (p.syscallState.regs 1), state := .dead }) .marked
    ⟨inCall.1, rfl⟩ (fun _ => Or.inr (Or.inr ⟨rfl, by simp⟩)) fun child load => by cases load
  rw [← mapPageZero_currentProc m.kernel illegalPage] at moved
  exact moved

theorem exec_stands {answers : Answers} {child : Option Nat}
    (inCall : p.type ≠ .kernel ∧ p.state = .syscall) (call : p.syscall = some .exec)
    (begun : execBegin m.kernel i p answers = .ok (k, child)) :
    Stands ((m.setKernel k).setPhase i (child.elim .done .loading)) := by
  have begins := (execBegin_frame running answers call).returned begun
  cases child with
  | none =>
    exact goes_on stand running here .done ⟨inCall.1, Or.inl inCall.2⟩ (begins.map fun _ => rfl)
      begins.current (by simp) (by simp)
  | some child =>
    obtain ⟨position, k₁, new, frame, fresh, procs, current⟩ := begins
    have inside := (List.getElem?_eq_some_iff.mp here).1
    have stand₁ := (stand.same (frame.map fun _ => rfl)).grow fresh (by
      intro j chosen
      rw [running] at chosen
      rw [frame.length, ← Option.some.inj chosen]
      exact inside)
    rw [← procs, ← current] at stand₁
    obtain ⟨q, there, type, state⟩ := standing_at (frame.map fun _ => rfl).symm here
    have here₁ : k.procs[i]? = some q := by
      rw [procs, List.getElem?_append_left (by rw [frame.length]; exact inside)]
      exact there
    have made : k.procs[child]? = some new := by
      rw [procs, position, ← frame.length]
      simp
    refine stand₁.place here₁ (by simp [state, inCall.2]) (.loading child) ?_ ?_ ?_
    · rw [type, state]
      exact ⟨inCall.1, Or.inl inCall.2⟩
    · rw [state]
      exact fun _ => Or.inr (Or.inl inCall.2)
    · intro c same
      obtain rfl := Phase.loading.inj same
      refine ⟨⟨new, made, fresh.state⟩, fun j _ loads => ?_⟩
      obtain ⟨r, old, -⟩ := stand.loading j child loads
      have small := (List.getElem?_eq_some_iff.mp old).1
      omega

theorem leave_stands (place : m.phase i = .done) (left : intSysCallLeave m.kernel i = .ok k) :
    Standing k.procs k.currentProc (update m.phase i .user) := by
  have runs := stand.runs i p running here
  have fits := stand.fits i p here
  rw [place] at fits
  obtain ⟨current, cases_of⟩ := (intSysCallLeave_map shaded_shade here).returned left
  have moved := stand.move here runs.not_unloaded toRunnable .user (by
    have notKernel : p.type ≠ .kernel := fits.1
    cases kind : p.type <;> simp_all [Fits, toRunnable]) (fun _ => Or.inl rfl) fun child load => by
      cases load
  rw [← current] at moved
  refine moved.same ?_
  rcases cases_of with ⟨-, same⟩ | ⟨-, -, signal, queue, -, same⟩
  · exact map_of_shade (fun _ => rfl) same
  · have equal : k.procs.map standing = _ := map_of_shade (fun _ => rfl) same
    refine equal.trans (map_modifyProc_congr m.kernel i toRunnable ?_ (map_modifyProc _ _ _ ?_))
    · intro q r same
      exact congrArg (fun pair : ProcType × RunState => (pair.1, RunState.runnable)) same
    · exact fun _ => rfl

theorem asleep_stands (sema : SemaRef) (state : IntHandlerState) (inside : inKernel p = true) :
    Standing (asleep m.kernel i sema state).procs none m.phase := by
  have runs := stand.runs i p running here
  have fits := stand.fits i p here
  have blocks : Fits (m.phase i) p.type (if p.state = .syscall then .syscallBlocked else .blocked) := by
    cases place : m.phase i <;> cases kind : p.type <;> cases state : p.state <;>
      simp_all [Fits, Runs, inKernel]
  have blocked := stand.idle.move here runs.not_unloaded (fun p => { p with
    state := if p.state = .syscall then .syscallBlocked else .blocked
    semaBlocked := some sema }) (m.phase i) blocks (fun chosen => by cases chosen) ?_
  · rw [update_eq_self] at blocked
    have saved := blocked.same (saveState_map standing_procState (m.kernel.modifyProc i fun p => { p with
      state := if p.state = .syscall then .syscallBlocked else .blocked
      semaBlocked := some sema }) state)
    rwa [← countTick_procs _ state] at saved
  · intro child load
    exact ⟨stand.loading i child load, fun j other loads => other (stand.single j i child loads load)⟩

theorem segfaulted_stands {heap : HeapMemory} (state : IntHandlerState) (place : m.phase i = .user) (outside : inKernel p = false) :
    Standing (segfaulted m.kernel i p state heap).procs none m.phase := by
  have runs := stand.runs i p running here
  obtain ⟨s, saved⟩ := saveState_at here state
  have dead : Fits .user p.type .dead := by
    cases kind : p.type <;> simp_all [Fits, inKernel]
  have moved := (stand.idle.same (saveState_map standing_procState m.kernel state)).move saved
    runs.not_unloaded killedBySegfault .user dead (fun chosen => by cases chosen) fun child load => by
      cases load
  rw [← place, update_eq_self] at moved
  exact moved.same (segfaulted_map (fun _ => rfl) m.kernel i p state heap)

end

theorem start_stands {k : KernelState} (ready : Ready k) : Stands (Machine.start k) := by
  refine ⟨fun i p here => ready.1 p (List.mem_of_getElem? here), fun i p running here => ?_, fun _ _ => rfl,
    fun i child place => ?_, fun i j child place => ?_⟩
  · exact Or.inl (ready.2 i running p here)
  · cases place
  · cases place

theorem step_stands {m m' : Machine} {action : Action} (stand : Stands m)
    (taken : m.step action = some m') (goes : m'.halted = none) : Stands m' := by
  cases (step_cases taken).2 with
  | irq state fuel _ served => exact irq_stands stand served goes
  | others semas heap => exact stand
  | own i p _ _ running here does =>
    cases does with
    | user phys place => exact stand
    | trap state place outside => exact trap_stands stand running here state outside
    | signal _ _ step => exact signal_stands stand running here step
    | exit answers place call => exact callExit_stands stand running here (in_call stand running here (Or.inl place))
    | exec answers k child place call begun =>
      exact exec_stands stand running here (in_call stand running here (Or.inl place)) call begun
    | serve answers k place apart served =>
      have inCall := in_call stand running here (Or.inl place)
      obtain ⟨same, current⟩ := (processSyscall_shade answers running apart).returned served
      exact goes_on stand running here .done ⟨inCall.1, Or.inl inCall.2⟩ (map_of_shade (fun _ => rfl) same)
        current (by simp) (by simp)
    | load loaded child place =>
      have done := stand.loaded here running place (f := loadChild p.pid loaded) (fun _ => rfl) fun _ => rfl
      refine done.same (map_modifyProc _ _ _ ?_)
      exact fun _ => rfl
    | finish fuel _ place dead resumed =>
      have logged := stand.same (mapPageZero_map standing_procState m.kernel illegalPage)
      exact resume_stands resumed goes logged fun after ended =>
        (intSysCallSwitch_switched ended).imp_right Or.inl
    | leave fuel k place alive left => exact leave_stands stand running here place left
    | sleep sema state fuel _ inside place resumed =>
      exact resume_stands resumed goes (asleep_stands stand running here sema state inside)
        fun after ended => (interruptEnd_switched ended).imp_right Or.inl
    | segfault state fuel heap _ place outside room resumed =>
      exact resume_stands resumed goes (segfaulted_stands stand running here state place outside)
        fun after ended => (interruptEnd_switched ended).imp_right Or.inl
    | pageZero page inside =>
      have mapped := stand.same (mapPageZero_map standing_procState m.kernel page)
      rw [← mapPageZero_currentProc m.kernel page] at mapped
      exact mapped
    | stop _ stop fault => cases goes

end PiOS.Proof
