import PiOS.Proof.Tables
import PiOS.Proof.Context
import PiOS.Proof.UserCopy

namespace PiOS.Proof.Handler
open Kernel Transition Memory Function
open Tables (mapPageZero_silent memcpyToUserspace_silent)

def handlerSp (s : ProcState) : Word :=
  s.regs 7 - 4 - BitVec.ofNat 16 sizeofProcState - BitVec.ofNat 16 sizeofSignal

def frameStart (s : ProcState) : Word := handlerSp s + BitVec.ofNat 16 sizeofSignal + 2

def frame (phys : PhysMem) (s : ProcState) : List Byte :=
  userBytes phys s.memPages (frameStart s) sizeofProcState

section

variable {k k' : KernelState} {i : Nat} {p : Proc}

theorem frame_stored (k : KernelState) (q : Proc) (signal : Signal) (own : q.syscallState = q.procState) :
    frame (memcpyToUserspace (memcpyToUserspace k q (frameStart q.procState) q.procState.bytes
        (BitVec.ofNat 16 sizeofProcState)) q (handlerSp q.procState + 2) signal.bytes
        (BitVec.ofNat 16 sizeofSignal)).phys q.procState = q.procState.bytes := by
  set s := q.procState
  set base := handlerSp s + 2
  have start : ∀ j, frameStart s + BitVec.ofNat 16 j = base + BitVec.ofNat 16 (sizeofSignal + j) := by
    intro j
    rw [BitVec.ofNat_add, ← BitVec.add_assoc]
    congr 1
    exact add_right_comm _ _ _
  have all : s.bytes.take (BitVec.ofNat 16 sizeofProcState).toNat = s.bytes :=
    List.take_of_length_le (by rw [bytes_length]; decide)
  apply List.ext_getElem
  · rw [frame, userBytes_length, bytes_length]
  · intro j inside inBytes
    have small : j < sizeofProcState := by rwa [frame, userBytes_length] at inside
    have near : sizeofSignal + j < pageSize := by unfold sizeofSignal sizeofProcState pageSize at *; omega
    simp only [frame, userBytes, List.getElem_map, List.getElem_range]
    rw [memcpyToUserspace_phys, memcpyToUserspace_phys, own, all, storeAll_outside, storeAll_apply inBytes]
    · intro l inL same
      rw [start, start] at same
      rw [bytes_length] at inL
      have equal := placeOf_apart (by unfold sizeofSignal sizeofProcState pageSize at *; omega) near same
      exact (Nat.add_left_cancel equal).le
    · intro l inL same
      rw [start] at same
      have inSignal : l < sizeofSignal := by
        refine lt_of_lt_of_le inL ?_
        rw [List.length_take]
        exact min_le_left _ _
      have equal := placeOf_apart (by unfold sizeofSignal pageSize at *; omega) near same
      omega

theorem signalHandlerEnter_ok (silent : k.intNoProcModify = true) (here : k.procs[i]? = some p)
    (own : p.syscallState = p.procState) {signal : Signal} (entered : signalHandlerEnter k i signal = .ok k') :
    frame k'.phys p.procState = p.procState.bytes ∧ ∃ s, s.regs 5 = handlerSp p.procState ∧
      tables s = tables p.procState ∧ k'.procs[i]? = some { p with signalsHold := true, procState := s } := by
  unfold signalHandlerEnter at entered
  rw [here] at entered
  dsimp only at entered
  split at entered
  · cases entered
  split at entered
  · cases entered
  obtain rfl := Except.ok.inj entered
  have start : p.procState.regs 7 - 4 - BitVec.ofNat 16 sizeofProcState + 2 = frameStart p.procState := by
    rw [frameStart, handlerSp, sub_add_cancel]
  rw [start]
  obtain ⟨first, silent₁⟩ := memcpyToUserspace_silent silent p (frameStart p.procState) p.procState.bytes
    (BitVec.ofNat 16 sizeofProcState)
  obtain ⟨second, -⟩ := memcpyToUserspace_silent silent₁ p (handlerSp p.procState + 2) signal.bytes
    (BitVec.ofNat 16 sizeofSignal)
  refine ⟨frame_stored k p signal own, { ((((p.procState.setReg 0 (handlerSp p.procState + 2)).setReg 1 1).setReg 5
    (handlerSp p.procState)).setReg 6 0).setReg 7 (handlerSp p.procState) with pc := p.sighandler }, ?_, rfl, ?_⟩
  · simp [ProcState.setReg]
  · refine (modifyProc_self _ i _).trans ?_
    have stays := second.trans first
    unfold handlerSp at stays
    rw [stays, here]
    rfl

theorem signalHandlerReturn_frame {s : ProcState} (here : k.procs[i]? = some p)
    (pages : tables p.syscallState = tables s) (pointer : p.syscallState.regs 5 = handlerSp s)
    (intact : frame k.phys s = s.bytes) : ∃ k', signalHandlerReturn k i = .ok k' ∧
      ∃ t, k'.procs[i]? = some { p with procState := t, syscallState := s, signalsHold := false } := by
  have read : readUser k.phys (userChunks p.syscallState.memPages sizeofProcState (frameStart s)
      (BitVec.ofNat 16 sizeofProcState)) = s.bytes := by
    have mem : p.syscallState.memPages = s.memPages := congrArg Prod.fst pages
    rw [readUser_eq sizeofProcState (le_of_eq rfl), mem]
    exact intact
  have whole := copyState_frame k.currentPageZero (read ▸ (bytes_tables pages).symm)
  rw [read] at whole
  have top : handlerSp s + BitVec.ofNat 16 sizeofSignal + BitVec.ofNat 16 sizeofProcState + 4 = s.regs 7 := by
    rw [handlerSp, sub_add_cancel, sub_add_cancel, sub_add_cancel]
  have start : p.syscallState.regs 5 + BitVec.ofNat 16 sizeofSignal + 2 = frameStart s := by
    rw [pointer, frameStart]
  unfold signalHandlerReturn
  rw [here]
  dsimp only
  rw [start, whole, ofBytes_bytes, pointer, top]
  refine ⟨_, if_neg (not_not.mpr rfl), ?_⟩
  obtain ⟨t, mapped⟩ := mapPageZero_at here (copyState k.phys sizeofProcState p.syscallState.bytes 0 (frameStart s)
    (BitVec.ofNat 16 sizeofProcState) k.currentPageZero).2
  exact ⟨t, (modifyProc_self _ i _).trans (by rw [mapped]; rfl)⟩

end

structure Kept (away : Prop) (p q : Proc) : Prop where
  loaded : p.state ≠ .unloaded → q.state ≠ .unloaded
  type : q.type = p.type
  hold : q.signalsHold = p.signalsHold
  inner : tables q.syscallState = tables p.syscallState
  outer : away → tables q.procState = tables p.procState

def Lasts (away : Prop) (j : Nat) (k k' : KernelState) : Prop :=
  ∀ p, k.procs[j]? = some p → ∃ q, k'.procs[j]? = some q ∧ Kept away p q

section

variable {away : Prop} {j i : Nat} {k k' k'' : KernelState} {p q r : Proc}

theorem Kept.refl (p : Proc) : Kept away p p := ⟨id, rfl, rfl, rfl, fun _ => rfl⟩

theorem Kept.trans (first : Kept away p q) (second : Kept away q r) : Kept away p r :=
  ⟨second.loaded ∘ first.loaded, second.type.trans first.type, second.hold.trans first.hold,
    second.inner.trans first.inner, fun out => (second.outer out).trans (first.outer out)⟩

theorem Kept.weaken (kept : Kept True p q) : Kept away p q :=
  { kept with outer := fun _ => kept.outer trivial }

theorem Lasts.of_eq (same : k'.procs[j]? = k.procs[j]?) : Lasts away j k k' :=
  fun p here => ⟨p, same.trans here, .refl p⟩

theorem Lasts.trans (first : Lasts away j k k') (second : Lasts away j k' k'') : Lasts away j k k'' := by
  intro p here
  obtain ⟨q, there, kept⟩ := first p here
  obtain ⟨r, last, keptToo⟩ := second q there
  exact ⟨r, last, kept.trans keptToo⟩

theorem Lasts.weaken (lasts : Lasts True j k k') : Lasts away j k k' := by
  intro p here
  obtain ⟨q, there, kept⟩ := lasts p here
  exact ⟨q, there, kept.weaken⟩

theorem Lasts.modify (k : KernelState) (i : Nat) {f : Proc → Proc} (keeps : ∀ p, Kept away p (f p)) :
    Lasts away j k (k.modifyProc i f) := by
  intro p here
  by_cases own : j = i
  · subst own
    exact ⟨f p, by rw [modifyProc_self, here]; rfl, keeps p⟩
  · exact ⟨p, by rwa [modifyProc_of_ne _ _ _ own], .refl p⟩

theorem Lasts.switched (switched : Switched k k') : Lasts away j k k' := by
  intro p here
  obtain ⟨q, there, effect⟩ := switched.each j p here
  have type : q.type = p.type := effect.keeps (alarmed_keeps fun _ _ => rfl) fun _ => rfl
  have hold : q.signalsHold = p.signalsHold := effect.keeps (alarmed_keeps fun _ _ => rfl) fun _ => rfl
  have call : q.syscallState = p.syscallState := effect.keeps (alarmed_keeps fun _ _ => rfl) fun _ => rfl
  have own : q.procState = p.procState := effect.keeps (alarmed_keeps fun _ _ => rfl) fun _ => rfl
  refine ⟨q, there, fun loaded => ?_, type, hold, by rw [call], fun _ => by rw [own]⟩
  rcases effect.state with same | ⟨-, runnable⟩ | ⟨-, syscall⟩
  · rwa [same]
  · simp [runnable]
  · simp [syscall]

theorem Lasts.saveState (k : KernelState) (state : IntHandlerState) : Lasts away j k (saveState k state) := by
  unfold Kernel.saveState
  split
  · exact .of_eq rfl
  · exact .modify k _ fun p => ⟨id, rfl, rfl, rfl, fun _ => rfl⟩

theorem Lasts.counted (lasts : Lasts away j k k') (state : IntHandlerState) :
    Lasts away j k (countTick k' state) := lasts.trans (.of_eq (by rw [countTick_procs]))

theorem Lasts.interrupted (k : KernelState) (state : IntHandlerState) :
    Lasts away j k (countTick (Kernel.saveState k state) state) := (Lasts.saveState k state).counted state

theorem Lasts.frame (frame : Frame i k k') : Lasts (j ≠ i) j k k' := by
  by_cases own : j = i
  · subst own
    intro p here
    have same := frame.own
    rw [here, Option.map_some] at same
    obtain ⟨q, there, equal⟩ := Option.map_eq_some_iff.mp same
    have state : (core q).state = (core p).state := congrArg Proc.state equal
    have type : (core q).type = (core p).type := congrArg Proc.type equal
    have hold : (core q).signalsHold = (core p).signalsHold := congrArg Proc.signalsHold equal
    have inner : tables (core q).syscallState = tables (core p).syscallState :=
      congrArg (fun p => tables p.syscallState) equal
    exact ⟨q, there, fun loaded => by rwa [show q.state = p.state from state], type, hold, inner,
      fun other => absurd rfl other⟩
  · exact .of_eq (frame.others j own)

end

def program (place : Phase) (p : Proc) : PageTables :=
  if place = .user then tables p.procState else tables p.syscallState

def InHandler (j : Nat) (t : PageTables) (m : Machine) : Prop :=
  ∃ p, m.kernel.procs[j]? = some p ∧ p.state ≠ .unloaded ∧ p.type ≠ .kernel ∧ p.signalsHold = true ∧
    program (m.phase j) p = t

def Handling (j : Nat) (m : Machine) : Action → Prop
  | .call _ => m.kernel.currentProc = some j → ∀ p ∈ m.kernel.procs[j]?,
      p.syscall ≠ some .pgmap ∧ p.syscall ≠ some .sighdlrret
  | _ => True

instance (j : Nat) (m : Machine) (action : Action) : Decidable (Handling j m action) := by
  apply @Kernel.Action.casesOn (fun action => Decidable (Handling j m action)) action <;> intros <;>
    dsimp only [Handling] <;> infer_instance

section

variable {m m' : Machine} {j i : Nat} {t : PageTables} {p : Proc} {state : IntHandlerState} {fuel : Nat}

section

variable (held : InHandler j t m)
include held

theorem InHandler.steady (lasts : Lasts True j m.kernel m'.kernel)
    (phase : m'.phase j = m.phase j) : InHandler j t m' := by
  obtain ⟨p, here, loaded, user, hold, same⟩ := held
  obtain ⟨q, there, kept⟩ := lasts p here
  refine ⟨q, there, kept.loaded loaded, ?_, kept.hold.trans hold, ?_⟩
  · rwa [kept.type]
  · rw [phase, ← same, program, program, kept.inner, kept.outer trivial]

theorem InHandler.inside (lasts : Lasts (j ≠ i) j m.kernel m'.kernel)
    (before : m.phase i ≠ .user) {place : Phase} (after : place ≠ .user)
    (phase : m'.phase = update m.phase i place) : InHandler j t m' := by
  obtain ⟨p, here, loaded, user, hold, same⟩ := held
  obtain ⟨q, there, kept⟩ := lasts p here
  refine ⟨q, there, kept.loaded loaded, ?_, kept.hold.trans hold, ?_⟩
  · rwa [kept.type]
  · rw [phase, ← same]
    by_cases own : j = i
    · subst own
      rw [update_self, program, program, if_neg after, if_neg before, kept.inner]
    · rw [update_of_ne own, program, program, kept.inner, kept.outer own]

theorem InHandler.resume {before : KernelState} {x : Option (Except Stop KernelState)} {m₀ : Machine}
    (resumed : m₀.resume before x = some m') (phase : m₀.phase j = m.phase j)
    (lasts₀ : Lasts True j m.kernel m₀.kernel) (lasts : Lasts True j m.kernel before)
    (switches : ∀ after, x = some (.ok after) → Switched before after) : InHandler j t m' := by
  rcases resume_cases resumed with ⟨after, result, rfl⟩ | ⟨stop, -, rfl⟩
  · exact held.steady (lasts.trans (.switched (switches after result))) phase
  · exact held.steady lasts₀ phase

theorem irq_handler (served : m.irq state fuel = some m') : InHandler j t m' :=
  held.resume served rfl (.of_eq rfl) (.interrupted m.kernel state) fun _ ended => (interruptEnd_switched ended).1

theorem sleep_handler {sema : SemaRef}
    (resumed : m.resume (asleep m.kernel i sema state) (interruptEnd fuel true (asleep m.kernel i sema state)) =
      some m') : InHandler j t m' := by
  refine held.resume resumed rfl (.of_eq rfl) ((Lasts.modify m.kernel i fun p => ?_).trans (.interrupted _ state))
    fun _ ended => (interruptEnd_switched ended).1
  refine ⟨fun _ => ?_, rfl, rfl, rfl, fun _ => rfl⟩
  dsimp only
  split <;> simp

end

theorem segfaulted_lasts {heap : HeapMemory} (state : IntHandlerState) : Lasts True j m.kernel (segfaulted m.kernel i p state heap) := by
  have dead : Lasts True j m.kernel ((saveState m.kernel state).modifyProc i killedBySegfault) :=
    (Lasts.saveState m.kernel state).trans
      (.modify _ i fun p => ⟨fun _ => by simp [killedBySegfault], rfl, rfl, rfl, fun _ => rfl⟩)
  unfold segfaulted
  refine Lasts.counted ?_ state
  cases sigchldTarget m.kernel.procs p p with
  | none => exact dead
  | some pp =>
    refine dead.trans (.modify _ pp fun q => ?_)
    exact ⟨id, rfl, rfl, rfl, fun _ => rfl⟩

section Acting

variable (held : InHandler j t m) (running : m.kernel.currentProc = some i) {answers : Answers} {k : KernelState}
include held running

theorem trap_handler (state : IntHandlerState) (place : m.phase i = .user) : InHandler j t
      ((m.setKernel (intSysCallEnter (countTick (saveState m.kernel state) state) i)).setPhase i .body) := by
  set k := countTick (saveState m.kernel state) state with counted
  set entered : KernelState := { k.modifyProc i enterSyscall with intNoProcModify := false } with enters
  have current : entered.currentProc = some i := by simp [enters, counted, running]
  have logged : Lasts (j ≠ i) j entered (intSysCallEnter k i) :=
    .frame ((FrameOf.refl i entered).mapPageZero current illegalPage)
  have saved : Lasts True j m.kernel k := .interrupted m.kernel state
  obtain ⟨p, here, loaded, user, hold, same⟩ := held
  obtain ⟨q, there, kept⟩ := saved p here
  by_cases own : j = i
  · subst own
    have inside : entered.procs[j]? = some (enterSyscall q) := by
      refine (modifyProc_self k j enterSyscall).trans ?_
      rw [there]
      rfl
    obtain ⟨r, last, keptToo⟩ := logged _ inside
    refine ⟨r, last, keptToo.loaded (by simp [enterSyscall]), ?_, ?_, ?_⟩
    · rw [keptToo.type]
      exact kept.type ▸ user
    · rw [keptToo.hold]
      exact kept.hold.trans hold
    · have after : program ((update m.phase j Phase.body) j) r = tables r.syscallState := by
        rw [update_self]
        rfl
      rw [place] at same
      refine after.trans (keptToo.inner.trans ?_)
      exact (kept.outer trivial).trans same
  · have aside : Lasts True j m.kernel entered :=
      saved.trans (.of_eq (modifyProc_of_ne k i enterSyscall own))
    obtain ⟨r, last, keptToo⟩ := (aside.weaken.trans logged) p here
    refine ⟨r, last, keptToo.loaded loaded, by rwa [keptToo.type], keptToo.hold.trans hold, ?_⟩
    have phase : ((m.setKernel (intSysCallEnter k i)).setPhase i .body).phase j = m.phase j :=
      update_of_ne own _ _
    rw [phase, ← same, program, program, keptToo.inner, keptToo.outer own]

theorem signal_handler {action : Action} (step : SignalStep m i p action m') : InHandler j t m' := by
  obtain ⟨place, quiet⟩ := step.quiet running
  refine held.inside (i := i) (fun q here => ?_) quiet.before.1 quiet.after.1 quiet.phase
  rcases quiet.procs with ⟨-, frame⟩ | same
  · by_cases own : j = i
    · subst own
      have equal := frame.own
      rw [here, Option.map_some] at equal
      obtain ⟨r, there, equal⟩ := Option.map_eq_some_iff.mp equal
      have state : r.state = q.state := (congrArg Proc.state equal :)
      exact ⟨r, there, fun loaded => by rwa [state], (congrArg Proc.type equal :), (congrArg Proc.signalsHold equal :),
        (congrArg (fun p => tables p.syscallState) equal :), fun away => absurd rfl away⟩
    · exact ⟨q, (frame.others j own).trans here, .refl q⟩
  · have equal := congrArg (fun list => list[j]?) same
    simp only [List.getElem?_map, here, Option.map_some] at equal
    obtain ⟨r, there, equal⟩ := Option.map_eq_some_iff.mp equal
    have state : r.state = q.state := (congrArg Proc.state equal :)
    exact ⟨r, there, fun loaded => by rwa [state], (congrArg Proc.type equal :), (congrArg Proc.signalsHold equal :),
      (congrArg (fun p => tables p.syscallState) equal :), fun _ => (congrArg (fun p => tables p.procState) equal :)⟩

theorem callExit_handler (body : m.phase i = .body) : InHandler j t (m.callExit i p) := by
  have logged : Lasts (j ≠ i) j m.kernel m.kernel.log := .frame ((FrameOf.refl i m.kernel).log running)
  exact held.inside (logged.trans (.modify m.kernel.log i fun p => ⟨fun _ => by simp, rfl, rfl, rfl, fun _ => rfl⟩))
    (by simp [body]) (by simp) rfl

theorem exec_handler {child : Option Nat} (body : m.phase i = .body)
    (call : p.syscall = some .exec) (begun : execBegin m.kernel i p answers = .ok (k, child)) :
    InHandler j t ((m.setKernel k).setPhase i (child.elim .done .loading)) := by
  have begins := (execBegin_frame running answers call).returned begun
  cases child with
  | none => exact held.inside (.frame begins) (by simp [body]) (by simp) rfl
  | some child =>
    obtain ⟨-, k₁, new, frame, -, procs, -⟩ := begins
    have grown : Lasts (j ≠ i) j k₁ k := by
      intro q there
      refine ⟨q, ?_, .refl q⟩
      rw [procs, List.getElem?_append_left (List.getElem?_eq_some_iff.mp there).1]
      exact there
    exact held.inside ((Lasts.frame frame).trans grown) (by simp [body]) (by simp) rfl

theorem serve_handler (body : m.phase i = .body)
    (handling : j = i → p.syscall ≠ some .pgmap ∧ p.syscall ≠ some .sighdlrret)
    (apart : p.syscall ≠ some .sigsend ∧ p.syscall ≠ some .sigwait ∧ p.syscall ≠ some .exit ∧ p.syscall ≠ some .exec)
    (served : processSyscall m.kernel i p answers = .ok k) (history : History) :
    InHandler j t ({ m with kernel := k, history := history }.setPhase i .done) := by
  have lasts : Lasts (j ≠ i) j m.kernel k := by
    by_cases own : j = i
    · obtain ⟨notPgmap, notReturn⟩ := handling own
      have ordinary : Ordinary p.syscall := by
        unfold Ordinary
        split <;> simp_all
      exact .frame ((processSyscall_frame running answers ordinary).returned served)
    · exact .of_eq ((processSyscall_untouched running answers apart).returned served j own)
  exact held.inside lasts (by simp [body]) (by simp) rfl

theorem load_handler {loaded : Loaded} {child : Nat} (stand : Stands m) (here : m.kernel.procs[i]? = some p)
    (place : m.phase i = .loading child) (history : History) :
    InHandler j t ({ m with
      kernel := execFinish m.kernel i p child loaded, history := history }.setPhase i .done) := by
  obtain ⟨c, made, unloaded, -⟩ := stand.child here running place
  have other : j ≠ child := by
    rintro rfl
    obtain ⟨q, there, notUnloaded, -⟩ := held
    obtain rfl := Option.some.inj (made.symm.trans there)
    exact notUnloaded unloaded
  have aside : Lasts (j ≠ i) j m.kernel (m.kernel.modifyProc child (loadChild p.pid loaded)) :=
    .of_eq (modifyProc_of_ne _ _ _ other)
  refine held.inside (aside.trans (.modify _ i fun q => ?_)) (by simp [place]) (by simp) rfl
  exact ⟨id, rfl, rfl, rfl, fun _ => rfl⟩

theorem finish_handler {fuel : Nat} (place : m.phase i = .done)
    (resumed : m.resume m.kernel.log (intSysCallSwitch fuel m.kernel) = some m') : InHandler j t m' := by
  rcases resume_cases resumed with ⟨after, result, rfl⟩ | ⟨stop, -, rfl⟩
  · obtain ⟨switched, -⟩ := intSysCallSwitch_switched result
    have logged : Lasts (j ≠ i) j m.kernel m.kernel.log := .frame ((FrameOf.refl i m.kernel).log running)
    have stays : m.phase = update m.phase i .done := by rw [← place, update_eq_self]
    exact held.inside (logged.trans (.switched switched)) (by simp [place]) (by simp) stays
  · exact held.steady (.of_eq rfl) rfl

theorem leave_handler (here : m.kernel.procs[i]? = some p) (place : m.phase i = .done)
    (left : intSysCallLeave m.kernel i = .ok k)
    (history : History) : InHandler j t ({ m with kernel := k, history := history }.setPhase i .user) := by
  obtain ⟨q, there, loaded, user, hold, same⟩ := held
  by_cases own : j = i
  · subst own
    obtain rfl := Option.some.inj (here.symm.trans there)
    have quiet : signalPending p = false := by simp [signalPending, hold]
    rw [intSysCallLeave_eq here, quiet] at left
    obtain rfl := Except.ok.inj left
    refine ⟨toRunnable { p with procState := p.syscallState }, ?_, by simp [toRunnable], user, hold, ?_⟩
    · refine (modifyProc_self _ j _).trans ?_
      rw [userRestored_at here]
      rfl
    · rw [place] at same
      change program ((update m.phase j Phase.user) j) _ = t
      rw [update_self]
      exact same
  · refine ⟨q, ?_, loaded, user, hold, ?_⟩
    · exact ((intSysCallLeave_untouched running here).returned left j own).trans there
    · change program ((update m.phase i Phase.user) j) q = t
      rwa [update_of_ne own]

theorem pageZero_handler (stand : Stands m) (here : m.kernel.procs[i]? = some p) (inside : inKernel p = true)
    (page : Word) : InHandler j t (m.setKernel (m.kernel.mapPageZero page)) := by
  have mapped : Lasts (j ≠ i) j m.kernel (m.kernel.mapPageZero page) :=
    .frame ((FrameOf.refl i m.kernel).mapPageZero running page)
  by_cases home : m.phase i = .user
  · have other : j ≠ i := by
      rintro rfl
      obtain ⟨q, there, -, user, -⟩ := held
      obtain rfl := Option.some.inj (here.symm.trans there)
      have fits := stand.fits j p here
      rw [home] at fits
      cases kind : p.type <;> cases state : p.state <;> simp_all [Fits, inKernel]
    exact held.steady (.of_eq (mapPageZero_ne running other page)) rfl
  · have stays : m.phase = update m.phase i (m.phase i) := by rw [update_eq_self]
    exact held.inside mapped home home stays

end Acting

theorem step_handler {action : Action} (held : InHandler j t m) (stand : Stands m) (handling : Handling j m action)
    (taken : m.step action = some m') : InHandler j t m' := by
  cases (step_cases taken).2 with
  | irq state fuel _ served => exact irq_handler held served
  | others semas heap => exact held.steady (.of_eq rfl) rfl
  | own i p _ _ running here does =>
    cases does with
    | user | stop => exact held.steady (.of_eq rfl) rfl
    | trap state place outside => exact trap_handler held running state place
    | signal _ _ step => exact signal_handler held running step
    | exit answers place call => exact callExit_handler held running place
    | exec answers k child place call begun => exact exec_handler held running place call begun
    | serve answers k place apart served =>
      refine serve_handler held running place (fun own => ?_) apart served _
      subst own
      exact handling running p here
    | load loaded child place => exact load_handler held running stand here place _
    | finish fuel _ place dead resumed => exact finish_handler held running place resumed
    | leave fuel k place alive left => exact leave_handler held running here place left _
    | sleep sema state fuel _ inside place resumed => exact sleep_handler held resumed
    | segfault state fuel heap _ place outside room resumed =>
      exact held.resume resumed rfl (segfaulted_lasts state) (segfaulted_lasts state)
        fun _ ended => (interruptEnd_switched ended).1
    | pageZero page inside => exact pageZero_handler held running stand here inside page

theorem leave_enters {k : KernelState} (here : m.kernel.procs[i]? = some p) (user : p.type ≠ .kernel)
    (pending : signalPending p = true) (left : intSysCallLeave m.kernel i = .ok k) (history : History) :
    frame k.phys p.syscallState = p.syscallState.bytes ∧
      InHandler i (tables p.syscallState) ({ m with kernel := k, history := history }.setPhase i .user) ∧
      ∀ q, k.procs[i]? = some q → q.procState.regs 5 = handlerSp p.syscallState := by
  obtain ⟨signal, queue, first⟩ := signalPending_cons pending
  rw [intSysCallLeave_eq here, pending, if_pos rfl] at left
  obtain ⟨k₂, taken, ended⟩ := bind_eq_ok.mp left
  obtain rfl := Except.ok.inj ended
  simp only [deliverSignal, first] at taken
  obtain ⟨k₁, entered, counted⟩ := bind_eq_ok.mp taken
  split at counted
  · cases counted
  obtain rfl := Except.ok.inj counted
  obtain ⟨saved, s, pointer, pages, there⟩ := signalHandlerEnter_ok rfl (userRestored_at here) rfl entered
  set q := toRunnable (delivered queue { p with procState := s, signalsHold := true })
  have last : (switchToUserspace ((k₁.modifyProc i (delivered queue)).modifyProc i toRunnable)).procs[i]? =
      some q := by
    refine (modifyProc_self _ i _).trans ?_
    rw [modifyProc_self, there]
    rfl
  refine ⟨saved, ⟨q, last, by simp [q, toRunnable], user, rfl, ?_⟩, fun r other => ?_⟩
  · change program ((update m.phase i Phase.user) i) q = _
    rw [update_self]
    exact pages
  · obtain rfl := Option.some.inj (last.symm.trans other)
    exact pointer

end

def Held (i : Nat) (m : Machine) : Prop :=
  ∃ p, m.kernel.procs[i]? = some p ∧ p.signalsHold = true ∧ signalPending p = false

structure Returning (i : Nat) (fp : Word) (m : Machine) : Prop where
  goes : m.halted = none
  running : m.kernel.currentProc = some i
  body : m.phase i = .body
  asks : ∀ p ∈ m.kernel.procs[i]?, p.syscall = some .sighdlrret ∧ p.syscallState.regs 5 = fp

def Restored (i : Nat) (s : ProcState) (m : Machine) : Prop :=
  m.halted = none ∧ ∃ p, m.kernel.procs[i]? = some p ∧ p.syscallState = s ∧ p.signalsHold = false

variable {m : Machine} {i : Nat}

theorem InHandler.held {t : PageTables} (held : InHandler i t m) : Held i m := by
  obtain ⟨p, here, -, -, hold, -⟩ := held
  exact ⟨p, here, hold, by simp [signalPending, hold]⟩

theorem returning_restores {s : ProcState} (held : InHandler i (tables s) m)
    (returning : Returning i (handlerSp s) m) (intact : frame m.kernel.phys s = s.bytes) (answers : Answers) :
    ∃ m', m.step (.call answers) = some m' ∧ Restored i s m' := by
  obtain ⟨p, here, -, -, -, pages⟩ := held
  obtain ⟨call, pointer⟩ := returning.asks p here
  rw [returning.body] at pages
  obtain ⟨k, returned, t, there⟩ := signalHandlerReturn_frame here pages pointer intact
  have served : processSyscall m.kernel i p answers = .ok k := by
    rw [← returned]
    simp only [processSyscall, call]
  refine ⟨{ m with
    kernel := k
    history := m.history.recordGrant i (pgmapGrant p m.kernel.pages k.pages) }.setPhase i .done, ?_, ?_⟩
  · simp only [Machine.step, returning.goes, returning.running, here, Machine.act, returning.body, Machine.call,
      call, served]
    rfl
  · exact ⟨returning.goes, _, there, rfl, rfl⟩

theorem handler_transparent (m m₁ : Machine) (i : Nat) (p p₁ : Proc) (fuel : Nat) (stand : Stands m)
    (running : m.kernel.currentProc = some i) (here : m.kernel.procs[i]? = some p) (alive : p.state ≠ .dead)
    (pending : signalPending p = true) (entered : m.step (.leave fuel) = some m₁) (goes : m₁.halted = none)
    (there : m₁.kernel.procs[i]? = some p₁) (actions : List Action)
    (handling : Guarded Machine.step (Handling i) m₁ actions) :
    Throughout Machine.step (Held i) m₁ actions ∧
      ∀ m₂, run Machine.step m₁ actions = some m₂ → Returning i (p₁.procState.regs 5) m₂ →
        frame m₂.kernel.phys p.syscallState = frame m₁.kernel.phys p.syscallState →
        ∀ answers, ∃ m₃, m₂.step (.call answers) = some m₃ ∧ Restored i p.syscallState m₃ := by
  obtain ⟨p', here', acted⟩ := step_act entered running
  obtain rfl := Option.some.inj (here.symm.trans here')
  obtain ⟨place, acted⟩ := Option.ite_none_right_eq_some.mp acted
  cases does_of_leave place acted with
  | signal _ _ step => cases step
  | finish _ _ _ dead => exact absurd dead alive
  | stop => cases goes
  | leave _ k _ _ left =>
    have user : p.type ≠ .kernel := by
      have fits := stand.fits i p here
      rw [place] at fits
      exact fits.1
    obtain ⟨saved, begins, pointer⟩ := leave_enters here user pending left _
    have stand₁ := step_stands stand entered
    have during := throughout_of_guarded (I := fun m' : Machine => (m'.halted = none → Stands m') ∧
        InHandler i (tables p.syscallState) m') (fun m' action m'' inv allowed taken =>
      have stands := inv.1 (step_cases taken).1
      ⟨step_stands stands taken, step_handler inv.2 stands allowed taken⟩) ⟨stand₁, begins⟩ handling
    refine ⟨throughout_mono (fun m' inv => inv.2.held) during, fun m₂ reached returning untouched answers => ?_⟩
    obtain ⟨-, held⟩ := throughout_iff.mp during actions (List.prefix_refl _) m₂ reached
    rw [pointer p₁ there] at returning
    exact returning_restores held returning (untouched.trans saved) answers

def aboutToReturn : Machine :=
  (run Machine.step (Machine.start Tables.oneProgram) (wholeCall .sigaction 0x40 0 0 ++
    [.trap (userRegs Syscall.sigsend.number 0xffff 7 9 false), .call (.refusing fun _ _ => 0), .proceed,
      .proceed])).get (by decide +kernel)

def interruptedProgram : Proc := (aboutToReturn.kernel.procs[0]?).get (by decide +kernel)

def handlerCalled : Machine := (aboutToReturn.step (.leave 0)).get (by decide +kernel)

def calledProgram : Proc := (handlerCalled.kernel.procs[0]?).get (by decide +kernel)

def handlerRun : List Action :=
  [.trap (userRegs Syscall.sigsend.number 0xffff 7 9 false), .call (.refusing fun _ _ => 0), .proceed,
    .proceed, .leave 0, .trap (Tables.handlerRegs 0xffa2)]

def handlerReturns : Machine := (run Machine.step handlerCalled handlerRun).get (by decide +kernel)

theorem aboutToReturn_stands : Stands aboutToReturn := by
  have reached := (Option.some_get (x := run Machine.step (Machine.start Tables.oneProgram)
    (wholeCall .sigaction 0x40 0 0 ++ [.trap (userRegs Syscall.sigsend.number 0xffff 7 9 false),
      .call (.refusing fun _ _ => 0), .proceed, .proceed])) (by decide +kernel)).symm
  refine run_invariant (I := fun m : Machine => m.halted = none → Stands m) (fun m action m' inv taken => ?_)
    (fun _ => start_stands (by decide)) reached (by decide +kernel)
  exact step_stands (inv (step_cases taken).1) taken

theorem handler_transparent_sends :
    Throughout Machine.step (Held 0) handlerCalled handlerRun ∧
      ∃ m₃, handlerReturns.step (.call (.refusing fun _ _ => 0)) = some m₃ ∧
        Restored 0 interruptedProgram.syscallState m₃ := by
  have transparent := handler_transparent aboutToReturn handlerCalled 0 interruptedProgram calledProgram 0
    aboutToReturn_stands (by decide +kernel) (Option.some_get _).symm (by decide +kernel) (by decide +kernel)
    (Option.some_get _).symm (by decide +kernel) (Option.some_get _).symm handlerRun (by decide +kernel)
  refine ⟨transparent.1, transparent.2 handlerReturns (Option.some_get _).symm ⟨?_, ?_, ?_, ?_⟩ ?_ _⟩
  · decide +kernel
  · decide +kernel
  · decide +kernel
  · decide +kernel
  · decide +kernel

end PiOS.Proof.Handler
