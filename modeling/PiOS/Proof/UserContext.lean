import PiOS.Kernel.Shared
import PiOS.Proof.Context
import PiOS.Proof.Tables

namespace PiOS.Proof.UserContext
open Kernel Tables Transition Function

structure Trip where
  entered : ProcState
  delivered : Bool
  loaded : ProcState

structure Trips where
  entered : Nat → Option ProcState
  last : Nat → Option Trip

def Trips.none : Trips := ⟨fun _ => Option.none, fun _ => Option.none⟩

def noteTrip (trips : Trips) (m : Machine) (action : Action) (m' : Machine) : Trips :=
  match m.kernel.currentProc, action with
  | some i, .trap state => { trips with
      entered := update trips.entered i ((m.kernel.procs[i]?).map fun p => p.procState.save state) }
  | some i, .leave _ =>
    match m.kernel.procs[i]?, m'.kernel.procs[i]?, trips.entered i with
    | some p, some q, some entered =>
      if p.state = .dead then trips
      else { trips with last := update trips.last i (some ⟨entered, signalPending p, q.procState⟩) }
    | _, _, _ => trips
  | _, _ => trips

abbrev tripStep : Machine × Trips → Action → Option (Machine × Trips) := watch Machine.sharedStep noteTrip

/-- Nothing is stored over the `struct proc` of a process. -/
def StatesApart (m : Machine) (action : Action) : Prop :=
  ∀ m' ∈ m.step action, ∀ p ∈ m'.kernel.procs, Unstored m.kernel.phys m'.kernel.phys p

instance (m : Machine) (action : Action) : Decidable (StatesApart m action) := by
  unfold StatesApart
  infer_instance

def Trip.Preserves (trip : Trip) : Prop :=
  ∃ w, trip.loaded = trip.entered.setReg 0 w

def ContextPreserved (w : Machine × Trips) : Prop :=
  w.1.halted = none → ∀ j trip, w.2.last j = some trip → ¬ Exempt (Syscall.ofNumber (trip.entered.regs 0)) →
    trip.delivered = false → trip.Preserves

structure InCall (place : Phase) (p : Proc) (entered : ProcState) : Prop where
  body : place = .body → p.syscallState = entered
  answer : ¬ Exempt (Syscall.ofNumber (entered.regs 0)) → p.syscallState.setReg 0 0 = entered.setReg 0 0

structure TripInv (w : Machine × Trips) : Prop where
  stand : Stands w.1
  inside : ∀ j p, w.1.kernel.procs[j]? = some p → w.1.phase j ≠ .user →
    ∃ entered, w.2.entered j = some entered ∧ InCall (w.1.phase j) p entered
  past : ∀ j trip, w.2.last j = some trip → ¬ Exempt (Syscall.ofNumber (trip.entered.regs 0)) →
    trip.delivered = false → trip.Preserves

section

variable {m m' : Machine} {trips : Trips} {action : Action} {i j : Nat} {p q : Proc} {entered : ProcState}

theorem preserves_of_answer {s : ProcState} (same : s.setReg 0 0 = entered.setReg 0 0) (delivered : Bool) :
    (Trip.mk entered delivered s).Preserves := by
  refine ⟨s.regs 0, ?_⟩
  have equal := congrArg (fun t => ProcState.setReg t 0 (s.regs 0)) same
  simp only [setReg_setReg] at equal
  rw [← equal]
  simp [ProcState.setReg]

theorem InCall.own (inCall : InCall (m.phase i) p entered) (own : OwnStep action (m.phase i) p (m'.phase i) q)
    (before : m.phase i ≠ .user) (after : m'.phase i ≠ .user) : InCall (m'.phase i) q entered := by
  -- a call that may change more has been entered with its number, which is still there at its body
  have exempt : m.phase i = .body → Exempt p.syscall → Exempt (Syscall.ofNumber (entered.regs 0)) := by
    intro body exempt
    rwa [Proc.syscall, inCall.body body] at exempt
  cases own with
  | outside away | enters _ _ away | killed _ _ _ away => exact absurd away before
  | inside _ _ _ _ call body =>
    refine ⟨fun place => ?_, fun ordinary => call.trans (inCall.answer ordinary)⟩
    obtain ⟨still, same⟩ := body place
    exact same.trans (inCall.body still)
  | interrupted _ _ _ _ same _ _ call =>
    refine ⟨fun place => ?_, fun ordinary => ?_⟩
    · rw [call]
      exact inCall.body (same ▸ place)
    · rw [call]
      exact inCall.answer ordinary
  | exempt body done _ call =>
    refine ⟨fun place => ?_, fun ordinary => absurd (exempt body call) ordinary⟩
    rw [done] at place
    cases place
  | exits _ _ body marked call =>
    refine ⟨fun place => ?_, fun ordinary => absurd (exempt body (by rw [call]; trivial)) ordinary⟩
    rw [marked] at place
    cases place
  | returns _ _ _ home | delivers _ home => exact absurd home after

theorem ownStep_returns {fuel : Nat} (place : m.phase i = .done) (alive : p.state ≠ .dead)
    (quiet : signalPending p = false) (own : OwnStep (.leave fuel) (m.phase i) p (m'.phase i) q) :
    q.procState = p.syscallState := by
  cases own with
  | outside away => rw [place] at away; cases away
  | enters _ trap => cases trap
  | inside _ _ _ _ _ _ dead => exact absurd dead alive
  | interrupted _ _ irq => cases irq
  | exempt body => rw [place] at body; cases body
  | exits _ called => cases called
  | returns _ _ _ _ _ _ _ restored => exact restored
  | delivers _ _ _ _ pending => rw [quiet] at pending; cases pending
  | killed _ _ segfault => cases segfault

theorem noteTrip_entered (elsewhere : m.kernel.currentProc = some j → ∀ state, action ≠ .trap state) :
    (noteTrip trips m action m').entered j = trips.entered j := by
  unfold noteTrip
  split
  · rename_i i state running
    have other : j ≠ i := by
      rintro rfl
      exact elsewhere running state rfl
    exact update_of_ne other _ _
  · split
    · split <;> rfl
    · rfl
  · rfl

theorem noteTrip_trap {state : IntHandlerState} (running : m.kernel.currentProc = some i)
    (here : m.kernel.procs[i]? = some p) :
    (noteTrip trips m (.trap state) m').entered i = some (p.procState.save state) := by
  simp [noteTrip, running, here]

theorem noteTrip_last {trip : Trip} (noted : (noteTrip trips m action m').last j = some trip) :
    trips.last j = some trip ∨ m.kernel.currentProc = some j ∧ ∃ fuel p q, action = .leave fuel ∧
      m.kernel.procs[j]? = some p ∧ m'.kernel.procs[j]? = some q ∧ p.state ≠ .dead ∧
        ∃ entered, trips.entered j = some entered ∧ trip = ⟨entered, signalPending p, q.procState⟩ := by
  unfold noteTrip at noted
  split at noted
  · exact Or.inl noted
  · rename_i i fuel running
    split at noted
    · rename_i p q entered here there inside
      split at noted
      · exact Or.inl noted
      · rename_i alive
        dsimp only at noted
        by_cases own : j = i
        · subst own
          rw [update_self] at noted
          exact Or.inr ⟨running, fuel, p, q, rfl, here, there, alive, entered, inside,
            (Option.some.inj noted).symm⟩
        · rw [update_of_ne own] at noted
          exact Or.inl noted
    · exact Or.inl noted
  · exact Or.inl noted

theorem step_inside {w : Machine × Trips} (inv : TripInv w) (taken : w.1.step action = some m')
    (context : ContextStep w.1 action m') (there : m'.kernel.procs[j]? = some q) (after : m'.phase j ≠ .user) :
    ∃ entered, (noteTrip w.2 w.1 action m').entered j = some entered ∧ InCall (m'.phase j) q entered := by
  obtain ⟨m, trips⟩ := w
  cases here : m.kernel.procs[j]? with
  | none =>
    obtain ⟨last, -, phase, -⟩ := context.born j q here there
    rw [phase] at after
    exact absurd (inv.stand.fresh j (by rw [last])) after
  | some p =>
    by_cases running : m.kernel.currentProc = some j
    · obtain ⟨r, equal, -, own⟩ := context.own j p running here
      obtain rfl := Option.some.inj (there.symm.trans equal)
      by_cases before : m.phase j = .user
      · -- the one way from the program into a call
        cases own with
        | enters state trap _ body _ saved =>
          subst trap
          exact ⟨_, noteTrip_trap running here, fun _ => saved, fun _ => by rw [saved]⟩
        | outside _ home | killed _ _ _ _ home => exact absurd home after
        | inside away | interrupted _ _ _ away => exact absurd before away
        | exempt body | exits _ _ body => rw [before] at body; cases body
        | returns _ _ done | delivers done => rw [before] at done; cases done
      · obtain ⟨entered, known, inCall⟩ := inv.inside j p here before
        refine ⟨entered, (noteTrip_entered fun _ state trap => ?_).trans known, inCall.own own before after⟩
        subst trap
        obtain ⟨p', -, acted⟩ := step_act taken running
        exact before (Option.ite_none_right_eq_some.mp acted).1.1
    · obtain ⟨phase, r, equal, aside⟩ := context.others j p running here
      obtain rfl := Option.some.inj (there.symm.trans equal)
      rw [phase] at after ⊢
      obtain ⟨entered, known, inCall⟩ := inv.inside j p here after
      refine ⟨entered, (noteTrip_entered fun chosen => absurd chosen running).trans known, ?_⟩
      rcases aside with same | ⟨-, unloaded, -⟩
      · obtain ⟨-, -, -, call⟩ := still_eq same
        exact ⟨fun body => call.trans (inCall.body body), fun ordinary => by rw [call]; exact inCall.answer ordinary⟩
      · have fits := inv.stand.fits j p here
        rw [unloaded] at fits
        cases place : m.phase j <;> simp_all [Fits]

theorem step_past {w : Machine × Trips} (inv : TripInv w) (taken : w.1.step action = some m')
    (context : ContextStep w.1 action m') {trip : Trip} (noted : (noteTrip w.2 w.1 action m').last j = some trip)
    (ordinary : ¬ Exempt (Syscall.ofNumber (trip.entered.regs 0))) (quiet : trip.delivered = false) :
    trip.Preserves := by
  obtain ⟨m, trips⟩ := w
  rcases noteTrip_last noted with before | ⟨running, fuel, p, q, rfl, here, there, alive, entered, known, rfl⟩
  · exact inv.past j trip before ordinary quiet
  · obtain ⟨_, -, acted⟩ := step_act taken running
    obtain ⟨place, -⟩ := Option.ite_none_right_eq_some.mp acted
    obtain ⟨r, equal, -, own⟩ := context.own j p running here
    obtain rfl := Option.some.inj (there.symm.trans equal)
    obtain ⟨entered', known', inCall⟩ := inv.inside j p here fun home => by
      rw [home] at place
      cases place
    obtain rfl := Option.some.inj (known.symm.trans known')
    apply preserves_of_answer
    rw [ownStep_returns place alive quiet own]
    exact inCall.answer ordinary

end

theorem step_tripInv {w : Machine × Trips} {m' : Machine} {action : Action} (inv : TripInv w)
    (taken : w.1.step action = some m') (goes : m'.halted = none) : TripInv (m', noteTrip w.2 w.1 action m') :=
  have context := step_context inv.stand taken goes
  ⟨step_stands inv.stand taken goes, fun _ _ there after => step_inside inv taken context there after,
    fun _ _ last => step_past inv taken context last⟩

theorem sharedStep_apart {m m' : Machine} {action : Action} (apart : StatesApart m action)
    (shared : m.sharedStep action = some m') :
    ∃ m₁, m.step action = some m₁ ∧ m' = m₁.setKernel m₁.kernel.mirrored := by
  obtain ⟨m₁, taken, rfl⟩ := Option.map_eq_some_iff.mp shared
  refine ⟨m₁, taken, ?_⟩
  have same : m₁.kernel.procs.map (Proc.overwritten m.kernel.phys m₁.kernel.phys) = m₁.kernel.procs := by
    refine (List.map_congr_left fun p member => ?_).trans (List.map_id _)
    rw [Proc.overwritten, if_pos (apart m₁ taken p member)]
    rfl
  rw [same]

theorem shared_tripInv {w w' : Machine × Trips} {action : Action} (inv : TripInv w)
    (apart : StatesApart w.1 action) (watched : tripStep w action = some w') (goes : w'.1.halted = none) :
    TripInv w' := by
  obtain ⟨m', trips⟩ := w'
  obtain ⟨shared, noted⟩ := watch_eq_some watched
  obtain ⟨m₁, taken, same⟩ := sharedStep_apart apart shared
  dsimp only at noted same goes
  subst noted same
  have next := step_tripInv inv taken goes
  exact ⟨next.stand, next.inside, next.past⟩

def inHeap : KernelState := runningFirst [{ userProc 1 0 0x211 with addr := kernelHeapStart }]

def interruptedCall : List Action :=
  [.trap (userRegs Syscall.sigaction.number 0x40 6 7 false), tick, .call (.refusing fun _ _ => 0), .leave 0]

def forgedFrame : ProcState := { forgedState with memPages := update forgedState.memPages 1 0x20a }

def forgedStack : PhysMem := writePage inHeap.mirrored.phys 0x211 0xf06 forgedFrame.bytes

/-- The program forges the frame of a handler, so that its page 1 is the first one of the kernel heap, and asks for
`proc_info` at `syscall_state.regs[1]` of its own `struct proc`. -/
def infoOverState : List Action :=
  [.user forgedStack, .trap (handlerRegs 0xff00), .call (.refusing forgedStack), .leave 0] ++
    wholeCall .procinfo 0 (0x1000 + BitVec.ofNat 16 (offSyscallState + 2)) 0

end PiOS.Proof.UserContext
