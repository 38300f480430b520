import PiOS.Proof.SignalFrame
import PiOS.Proof.Standing

namespace PiOS.Proof.Alarms
open Kernel Transition Function

structure AlarmLog where
  armed : Nat → Option (BitVec 32)
  sets : Nat → Nat
  rung : Nat → List (Option (BitVec 32) × BitVec 32)

namespace AlarmLog

def empty : AlarmLog := ⟨fun _ => none, fun _ => 0, fun _ => []⟩

def set (log : AlarmLog) (i : Nat) (ticks : BitVec 32) : AlarmLog :=
  { log with
    armed := update log.armed i (if ticks = 0 then none else some ticks)
    sets := update log.sets i (if ticks = 0 then log.sets i else log.sets i + 1) }

def ring (log : AlarmLog) (now : BitVec 32) (alarms : Nat → List Signal) : AlarmLog :=
  { log with
    armed := fun j => if (alarms j).isEmpty then log.armed j else none
    rung := fun j => log.rung j ++ match alarms j with
      | [] => []
      | _ :: more => (log.armed j, now) :: more.map fun _ => (none, now) }

end AlarmLog

def newAlarms (m m' : Machine) (j : Nat) : List Signal :=
  ((m'.history.sent j).drop (m.history.sent j).length).filter fun signal => signal.type = sigTypeAlarm

def currentCall (m : Machine) : Option Syscall :=
  (m.kernel.currentProc.bind fun i => m.kernel.procs[i]?).bind Proc.syscall

def noteAlarms (log : AlarmLog) (m : Machine) (action : Action) (m' : Machine) : AlarmLog :=
  match action with
  | .call _ =>
    match m.kernel.currentProc with
    | none => log
    | some i =>
      if currentCall m = some .alarmset then
        log.set i ((m'.kernel.procs[i]?.map Proc.alarmTicks).getD 0)
      else
        log
  | .leave _ | .sleep _ _ _ | .irq _ _ | .segfault _ _ => log.ring m'.kernel.sysTicks (newAlarms m m')
  | _ => log

def Justified (log : AlarmLog) : Prop :=
  ∀ j, (∀ ring ∈ log.rung j, ∃ ticks, ring.1 = some ticks ∧ ticks ≤ ring.2) ∧
    (log.rung j).length ≤ log.sets j

def InReach (now ticks : BitVec 32) : Prop :=
  (ticks.setWidth 16).toNat ≤ (now.setWidth 16).toNat → (ticks >>> 16).toNat ≤ (now >>> 16).toNat

instance (now ticks : BitVec 32) : Decidable (InReach now ticks) := by
  unfold InReach
  infer_instance

def Scans (m : Machine) : Action → Prop
  | .leave _ => ∀ p ∈ m.kernel.currentProc.bind fun i => m.kernel.procs[i]?, p.state = .dead
  | .irq state _ => state.timer = true ∨ m.kernel.currentProc = none
  | .sleep _ _ _ | .segfault _ _ => True
  | _ => False

instance (m : Machine) (action : Action) : Decidable (Scans m action) := by
  apply @Kernel.Action.casesOn (fun action => Decidable (Scans m action)) action <;> intros <;>
    dsimp only [Scans] <;> infer_instance

def scanTime (m : Machine) : Action → BitVec 32
  | .sleep _ state _ | .irq state _ | .segfault state _ => (countTick m.kernel state).sysTicks
  | _ => m.kernel.sysTicks

def AlarmsSound (m : Machine) (action : Action) : Prop :=
  match action with
  | .call answers => currentCall m = some .exec → ∀ stale ∈ answers.child, stale.alarmTicks = 0
  | _ => Scans m action → ∀ p ∈ m.kernel.procs, InReach (scanTime m action) p.alarmTicks

instance (m : Machine) (action : Action) : Decidable (AlarmsSound m action) := by
  apply @Kernel.Action.casesOn (fun action => Decidable (AlarmsSound m action)) action <;> intros <;>
    dsimp only [AlarmsSound] <;> infer_instance

variable {now : BitVec 32} {p : Proc} {q : Proc}

theorem reached_of_due (due : alarmDue now p = true) (reach : InReach now p.alarmTicks) : p.alarmTicks ≤ now := by
  simp only [alarmDue, Bool.and_eq_true, decide_eq_true_eq] at due
  have high := reach due.2
  have low := due.2
  simp only [BitVec.toNat_setWidth, BitVec.toNat_ushiftRight, Nat.shiftRight_eq_div_pow] at high low
  rw [BitVec.le_def]
  omega

theorem alarmDue_congr (same : q.alarmTicks = p.alarmTicks) : alarmDue now q = alarmDue now p := by
  simp only [alarmDue, same]

def alarmOf (p : Proc) : Signal := ⟨sigTypeAlarm, p.alarmTicks.setWidth 16⟩

theorem alarm_effect (effect : SchedEffect now p q) : q.signalQueue = p.signalQueue ∧ q.alarmTicks = p.alarmTicks ∨
      alarmDue now p = true ∧ q.signalQueue = p.signalQueue ++ [alarmOf p] ∧ q.alarmTicks = 0 := by
  induction effect with
  | same => exact .inl ⟨rfl, rfl⟩
  | wake _ _ ih => exact ih
  | @alarm q _ ih =>
    unfold alarmed
    split
    · rename_i due
      rcases ih with ⟨queue, ticks⟩ | ⟨-, -, ticks⟩
      · refine .inr ⟨(alarmDue_congr ticks).symm.trans due, ?_, rfl⟩
        simp only [signalled, semaphoreUpSignal, listAppendSignal, queue, ticks, alarmOf]
      · simp [alarmDue, ticks] at due
    · exact ih

theorem shaded_alarmTicks : Shaded Proc.alarmTicks where
  procState _ _ := rfl
  syscallState _ _ := rfl
  entered _ _ := rfl
  restored _ _ := rfl
  delivered _ _ _ same := same
  toRunnable _ _ same := same

def onlyAlarm (p : Proc) : Proc := { Proc.zero with alarmTicks := p.alarmTicks }

instance : Steady onlyAlarm := ⟨fun _ _ => rfl, fun _ _ => rfl, fun _ _ => rfl, fun _ _ => rfl⟩

def SameAlarms (k k' : KernelState) : Prop := k'.procs.map Proc.alarmTicks = k.procs.map Proc.alarmTicks

section

variable {k k' : KernelState}

theorem SameAlarms.trans {k'' : KernelState} (first : SameAlarms k k') (second : SameAlarms k' k'') :
    SameAlarms k k'' := Eq.trans second first

theorem SameAlarms.modify (same : SameAlarms k k') (i : Nat) {f : Proc → Proc}
    (keeps : ∀ p, (f p).alarmTicks = p.alarmTicks) : SameAlarms k (k'.modifyProc i f) :=
  (map_modifyProc k' i f keeps).trans same

theorem SameAlarms.at (same : SameAlarms k k') {j : Nat} {q : Proc} (there : k'.procs[j]? = some q) :
    ∃ p, k.procs[j]? = some p ∧ p.alarmTicks = q.alarmTicks := by
  have equal := congrArg (fun ticks => ticks[j]?) same
  simp only [List.getElem?_map, there, Option.map_some] at equal
  obtain ⟨p, here, ticks⟩ := Option.map_eq_some_iff.mp equal.symm
  exact ⟨p, here, ticks⟩

end

structure AlarmInv (m : Machine) (log : AlarmLog) : Prop where
  armed : ∀ (j : Nat) (p : Proc), m.kernel.procs[j]? = some p → p.alarmTicks ≠ 0 →
    log.armed j = some p.alarmTicks
  rung : ∀ j, ∀ ring ∈ log.rung j, ∃ ticks, ring.1 = some ticks ∧ ticks ≤ ring.2
  count : ∀ j, (log.rung j).length + (log.armed j).toList.length ≤ log.sets j

theorem AlarmInv.justified {m : Machine} {log : AlarmLog} (inv : AlarmInv m log) : Justified log :=
  fun j => ⟨inv.rung j, (Nat.le_add_right _ _).trans (inv.count j)⟩

section

variable {m m' : Machine} {log : AlarmLog} {m₁ : Machine} {j : Nat}

theorem AlarmInv.keep (inv : AlarmInv m log) (same : SameAlarms m.kernel m'.kernel) : AlarmInv m' log where
  armed j q there set := by
    obtain ⟨p, here, ticks⟩ := same.at there
    rw [← ticks] at set ⊢
    exact inv.armed j p here set
  rung := inv.rung
  count := inv.count

theorem AlarmInv.grow (inv : AlarmInv m log) {k : KernelState} {new : Proc}
    (same : SameAlarms m.kernel k) (grown : m'.kernel.procs = k.procs ++ [new]) (unset : new.alarmTicks = 0) :
    AlarmInv m' log where
  armed j q there set := by
    rw [grown, List.getElem?_append] at there
    split at there
    · obtain ⟨p, here, ticks⟩ := same.at there
      rw [← ticks] at set ⊢
      exact inv.armed j p here set
    · rw [List.getElem?_singleton] at there
      obtain ⟨-, equal⟩ := Option.ite_none_right_eq_some.mp there
      obtain rfl := Option.some.inj equal
      exact absurd unset set
  rung := inv.rung
  count := inv.count

theorem AlarmInv.set (inv : AlarmInv m log) {i : Nat} {p : Proc} {ticks : BitVec 32}
    (here : m.kernel.procs[i]? = some p)
    (stored : m'.kernel = m.kernel.modifyProc i fun p => { p with alarmTicks := ticks }) :
    AlarmInv m' (log.set i ticks) where
  armed j q there set := by
    rw [stored] at there
    by_cases own : j = i
    · subst own
      rw [modifyProc_self, here] at there
      obtain rfl := Option.some.inj there
      have nonzero : ¬ ticks = 0 := set
      simp only [AlarmLog.set, update_self, if_neg nonzero]
    · rw [modifyProc_of_ne _ _ _ own] at there
      simp only [AlarmLog.set, update_of_ne own]
      exact inv.armed j q there set
  rung := inv.rung
  count j := by
    have before := inv.count j
    by_cases own : j = i
    · subst own
      by_cases zero : ticks = 0
      · simp only [AlarmLog.set, zero, if_true, update_self, Option.toList_none, List.length_nil]
        omega
      · simp only [AlarmLog.set, zero, if_false, update_self, Option.toList_some, List.length_singleton]
        omega
    · simpa only [AlarmLog.set, update_of_ne own] using before

structure Scanned (m : Machine) (now : BitVec 32) (m' : Machine) : Prop where
  each : ∀ (j : Nat) (q : Proc), m'.kernel.procs[j]? = some q → ∃ p, m.kernel.procs[j]? = some p ∧
    (newAlarms m m' j = [] ∧ q.alarmTicks = p.alarmTicks ∨
      alarmDue now p = true ∧ m'.kernel.sysTicks = now ∧ (∃ signal, newAlarms m m' j = [signal]) ∧
        q.alarmTicks = 0)
  absent : ∀ j, m'.kernel.procs[j]? = none → newAlarms m m' j = []

theorem newAlarms_of_sent {notices alarms : List Signal}
    (sent : m'.history.sent j = m.history.sent j ++ notices ++ alarms)
    (plain : notices.filter (fun signal => signal.type = sigTypeAlarm) = []) :
    newAlarms m m' j = alarms.filter fun signal => signal.type = sigTypeAlarm := by
  rw [newAlarms, sent, List.append_assoc, List.drop_left, List.filter_append, plain, List.nil_append]

theorem newAlarms_recorded {notices : List Signal} (before after : KernelState)
    (sent : m₁.history.sent j = m.history.sent j ++ notices)
    (plain : notices.filter (fun signal => signal.type = sigTypeAlarm) = []) :
    newAlarms m { m₁ with kernel := after, history := m₁.history.recordAlarms before.procs after.procs } j =
      (match before.procs[j]?, after.procs[j]? with
        | some p, some q => q.signalQueue.drop p.signalQueue.length
        | _, _ => []).filter fun signal => signal.type = sigTypeAlarm := by
  refine newAlarms_of_sent ?_ plain
  rw [← sent]
  rfl

theorem scanned_quiet (now : BitVec 32) (same : SameAlarms m.kernel m'.kernel)
    (silent : ∀ j, newAlarms m m' j = []) : Scanned m now m' where
  each j q there := by
    obtain ⟨p, here, ticks⟩ := same.at there
    exact ⟨p, here, .inl ⟨silent j, ticks.symm⟩⟩
  absent j _ := silent j

theorem AlarmInv.quiet (inv : AlarmInv m log) (now : BitVec 32) (same : SameAlarms m.kernel m'.kernel)
    (silent : ∀ j, newAlarms m m' j = []) : AlarmInv m' (log.ring now (newAlarms m m')) := by
  have unchanged : log.ring now (newAlarms m m') = log := by simp [AlarmLog.ring, silent]
  rw [unchanged]
  exact inv.keep same

theorem AlarmInv.scan (inv : AlarmInv m log) (scanned : Scanned m now m')
    (reach : ∀ p ∈ m.kernel.procs, InReach now p.alarmTicks) :
    AlarmInv m' (log.ring m'.kernel.sysTicks (newAlarms m m')) := by
  -- process by process: its alarm is as it was, or it was armed and has been sent in time
  have cases : ∀ j, newAlarms m m' j = [] ∨ ∃ signal ticks, newAlarms m m' j = [signal] ∧
      log.armed j = some ticks ∧ ticks ≤ m'.kernel.sysTicks := by
    intro j
    cases there : m'.kernel.procs[j]? with
    | none => exact .inl (scanned.absent j there)
    | some q =>
      obtain ⟨p, here, ⟨silent, -⟩ | ⟨due, time, ⟨signal, one⟩, -⟩⟩ := scanned.each j q there
      · exact .inl silent
      · have set : p.alarmTicks ≠ 0 := by
          simp only [alarmDue, Bool.and_eq_true, decide_eq_true_eq] at due
          exact due.1
        refine .inr ⟨signal, p.alarmTicks, one, inv.armed j p here set, ?_⟩
        rw [time]
        exact reached_of_due due (reach p (List.mem_of_getElem? here))
  constructor
  case armed =>
    intro j q there set
    obtain ⟨p, here, ⟨silent, ticks⟩ | ⟨-, -, -, zero⟩⟩ := scanned.each j q there
    · rw [ticks] at set ⊢
      simpa [AlarmLog.ring, silent] using inv.armed j p here set
    · exact absurd zero set
  case rung =>
    intro j ring among
    rcases cases j with silent | ⟨signal, ticks, one, armed, reached⟩
    · simp only [AlarmLog.ring, silent, List.append_nil] at among
      exact inv.rung j ring among
    · simp only [AlarmLog.ring, one, armed, List.map_nil, List.mem_append, List.mem_singleton] at among
      rcases among with old | rfl
      · exact inv.rung j ring old
      · exact ⟨ticks, rfl, reached⟩
  case count =>
    intro j
    have before := inv.count j
    rcases cases j with silent | ⟨signal, ticks, one, armed, -⟩
    · simpa [AlarmLog.ring, silent] using before
    · simpa [AlarmLog.ring, one, armed] using before

theorem resume_scanned {before : KernelState} {picked : Option (Except Stop KernelState)}
    (own : SameAlarms m.kernel m₁.kernel) (saved : SameAlarms m.kernel before)
    (time : before.sysTicks = now) (notices : ∀ j, ∃ signals, m₁.history.sent j = m.history.sent j ++ signals ∧
      signals.filter (fun signal => signal.type = sigTypeAlarm) = [])
    (switched : ∀ after, picked = some (.ok after) → Switched before after)
    (resumed : m₁.resume before picked = some m') : Scanned m now m' := by
  subst time
  rcases resume_cases resumed with ⟨after, result, rfl⟩ | ⟨stop, -, rfl⟩
  · have switch := switched after result
    constructor
    · intro j q there
      cases held : before.procs[j]? with
      | none =>
        have length := switch.length
        rw [List.getElem?_eq_none_iff] at held
        obtain ⟨inside, -⟩ := List.getElem?_eq_some_iff.mp there
        dsimp only at inside
        omega
      | some p₁ =>
        obtain ⟨q', there', effect⟩ := switch.each j p₁ held
        obtain rfl : q' = q := Option.some.inj (there'.symm.trans there)
        obtain ⟨p, here, ticks⟩ := saved.at held
        refine ⟨p, here, ?_⟩
        obtain ⟨signals, sent, plain⟩ := notices j
        rw [newAlarms_recorded before after sent plain, held, there']
        rcases alarm_effect effect with ⟨queue, same⟩ | ⟨due, queue, zero⟩
        · refine .inl ⟨?_, same.trans ticks.symm⟩
          simp [queue]
        · refine .inr ⟨(alarmDue_congr ticks).trans due, switch.ticks, ⟨alarmOf p₁, ?_⟩, zero⟩
          simp [queue, alarmOf]
    · intro j gone
      dsimp only at gone
      obtain ⟨signals, sent, plain⟩ := notices j
      rw [newAlarms_recorded before after sent plain, gone]
      cases before.procs[j]? <;> rfl
  · refine scanned_quiet _ own fun j => ?_
    obtain ⟨signals, sent, plain⟩ := notices j
    exact newAlarms_of_sent (sent.trans (List.append_nil _).symm) plain

end

section

variable {m m' : Machine} {log : AlarmLog} {i : Nat} {p : Proc}

theorem sameAlarms_refl (k : KernelState) : SameAlarms k k := rfl

theorem sameAlarms_mapPageZero (k : KernelState) (page : Word) : SameAlarms k (k.mapPageZero page) :=
  mapPageZero_map shaded_alarmTicks.procState k page

theorem sameAlarms_saved (k : KernelState) (state : IntHandlerState) :
    SameAlarms k (countTick (saveState k state) state) := by
  unfold SameAlarms
  rw [countTick_procs]
  exact saveState_map shaded_alarmTicks.procState k state

theorem mapPageZero_sysTicks (k : KernelState) (page : Word) : (k.mapPageZero page).sysTicks = k.sysTicks := by
  unfold KernelState.mapPageZero
  split <;> rfl

theorem saveState_sysTicks (k : KernelState) (state : IntHandlerState) : (saveState k state).sysTicks = k.sysTicks := by
  unfold saveState
  split <;> rfl

variable {k k' : KernelState} {answers : Answers} {fuel : Nat} {state : IntHandlerState} {heap : HeapMemory}
  {sema : SemaRef}

theorem countTick_sysTicks (same : k'.sysTicks = k.sysTicks) (state : IntHandlerState) :
    (countTick k' state).sysTicks = (countTick k state).sysTicks := by
  unfold countTick
  split
  · exact congrArg (· + 1) same
  · exact same

theorem callExit_same : SameAlarms m.kernel (m.callExit i p).kernel :=
  (sameAlarms_mapPageZero m.kernel illegalPage).modify i fun _ => rfl

theorem processSyscall_same (running : k.currentProc = some i) (result : processSyscall k i p answers = .ok k')
    (apart : p.syscall ≠ some .sigsend ∧ p.syscall ≠ some .sigwait ∧ p.syscall ≠ some .exit ∧
      p.syscall ≠ some .exec) (other : p.syscall ≠ some .alarmset) : SameAlarms k k' := by
  by_cases pgmap : p.syscall = some .pgmap
  · simp only [processSyscall, pgmap] at result
    exact ((processPgmap_map shaded_alarmTicks).returned result).1
  by_cases sighdlrret : p.syscall = some .sighdlrret
  · simp only [processSyscall, sighdlrret] at result
    exact ((signalHandlerReturn_map shaded_alarmTicks).returned result).1
  have ordinary : Ordinary p.syscall := by
    unfold Ordinary
    split <;> simp_all
  have frame := (processSyscall_steady (κ := onlyAlarm) running answers ordinary (fun _ _ _ => rfl)
    fun alarmset => absurd alarmset other).returned result
  exact frame.map fun _ => rfl

theorem execBegin_alarm {child : Nat} (result : execBegin k i p answers = .ok (k', some child)) :
    ∃ stale ∈ answers.child, ∃ new, k'.procs.getLast? = some new ∧ new.alarmTicks = stale.alarmTicks := by
  unfold execBegin at result
  split at result
  · cases result
  · obtain ⟨⟨k₁, files, r⟩, -, rest⟩ := bind_eq_ok.mp result
    dsimp only at rest
    split at rest
    · cases rest
    · cases made : answers.child with
      | none =>
        rw [made] at rest
        cases rest
      | some stale =>
        rw [made] at rest
        obtain ⟨k₂, created, rest⟩ := bind_eq_ok.mp rest
        obtain ⟨-, -, same⟩ := bind_eq_ok.mp rest
        obtain ⟨rfl, -⟩ := Prod.mk.inj (Except.ok.inj same)
        obtain ⟨⟨addr, heap⟩, -, created⟩ := bind_eq_ok.mp created
        obtain ⟨⟨node, heap⟩, -, created⟩ := bind_eq_ok.mp created
        obtain rfl := Except.ok.inj created
        exact ⟨stale, rfl, _, List.getLast?_concat .., rfl⟩

theorem exec_alarms {child : Option Nat} (inv : AlarmInv m log)
    (running : m.kernel.currentProc = some i) (call : p.syscall = some .exec)
    (unset : ∀ stale ∈ answers.child, stale.alarmTicks = 0) (begun : execBegin m.kernel i p answers = .ok (k, child)) :
    AlarmInv ((m.setKernel k).setPhase i (child.elim .done .loading)) log := by
  have begins := (execBegin_frameOf (κ := onlyAlarm) running answers call).returned begun
  cases child with
  | none => exact inv.keep (begins.map fun _ => rfl)
  | some child =>
    obtain ⟨stale, there, new, last, ticks⟩ := execBegin_alarm begun
    obtain ⟨-, k₁, new', frame, -, grown, -⟩ := begins
    rw [grown, List.getLast?_concat] at last
    obtain rfl := Option.some.inj last
    exact inv.grow (frame.map fun _ => rfl) grown (ticks.trans (unset stale there))

theorem note_call (running : m.kernel.currentProc = some i)
    (here : m.kernel.procs[i]? = some p) : noteAlarms log m (.call answers) m' =
      if p.syscall = some .alarmset then log.set i ((m'.kernel.procs[i]?.map Proc.alarmTicks).getD 0) else log := by
  simp [noteAlarms, running, currentCall, here]

theorem serve_alarms {history : History} (inv : AlarmInv m log)
    (running : m.kernel.currentProc = some i) (here : m.kernel.procs[i]? = some p)
    (apart : p.syscall ≠ some .sigsend ∧ p.syscall ≠ some .sigwait ∧ p.syscall ≠ some .exit ∧ p.syscall ≠ some .exec)
    (served : processSyscall m.kernel i p answers = .ok k) (m' : Machine)
    (next : m' = { m with kernel := k, history := history }.setPhase i .done) :
    AlarmInv m' (noteAlarms log m (.call answers) m') := by
  rw [note_call running here]
  subst next
  by_cases alarmset : p.syscall = some .alarmset
  · rw [if_pos alarmset]
    simp only [processSyscall, alarmset, processAlarmset, Except.ok.injEq] at served
    subst served
    simp only [Machine.setPhase, modifyProc_self, here, Option.map_some, Option.getD_some]
    exact inv.set here rfl
  · rw [if_neg alarmset]
    exact inv.keep (processSyscall_same running served apart alarmset)

theorem silent_of_sent (same : m'.history.sent = m.history.sent) (j : Nat) : newAlarms m m' j = [] := by
  rw [newAlarms, same, List.drop_length, List.filter_nil]

theorem no_notices (sent : Nat → List Signal) (j : Nat) : ∃ signals, sent j = sent j ++ signals ∧
    signals.filter (fun signal => signal.type = sigTypeAlarm) = [] := ⟨[], (List.append_nil _).symm, rfl⟩

theorem intSysCallLeave_same (here : k.procs[i]? = some p) (left : intSysCallLeave k i = .ok k') : SameAlarms k k' := by
  obtain ⟨-, ⟨-, same⟩ | ⟨-, -, signal, queue, -, same⟩⟩ :=
    (intSysCallLeave_map shaded_alarmTicks here).returned left
  · refine SameAlarms.trans ?_ same
    exact (sameAlarms_refl k).modify i fun _ => rfl
  · have took : SameAlarms k (k.modifyProc i (delivered queue)) := (sameAlarms_refl k).modify i fun _ => rfl
    refine SameAlarms.trans ?_ same
    exact took.modify i fun _ => rfl

theorem finish_alarms (inv : AlarmInv m log) (running : m.kernel.currentProc = some i)
    (here : m.kernel.procs[i]? = some p) (dead : p.state = .dead) (sound : AlarmsSound m (.leave fuel))
    (resumed : m.resume m.kernel.log (intSysCallSwitch fuel m.kernel) = some m') :
    AlarmInv m' (log.ring m'.kernel.sysTicks (newAlarms m m')) := by
  have scans : Scans m (.leave fuel) := by simp [Scans, running, here, dead]
  refine inv.scan (resume_scanned (sameAlarms_refl _) (sameAlarms_mapPageZero m.kernel illegalPage) ?_
    (no_notices _) (fun _ ended => (intSysCallSwitch_switched ended).1) resumed) (sound scans)
  exact mapPageZero_sysTicks m.kernel illegalPage

theorem asleep_same (state : IntHandlerState) : SameAlarms m.kernel (asleep m.kernel i sema state) := by
  have blocks : SameAlarms m.kernel (m.kernel.modifyProc i fun p => { p with
      state := if p.state = .syscall then .syscallBlocked else .blocked
      semaBlocked := some sema }) := (sameAlarms_refl _).modify i fun _ => rfl
  exact blocks.trans (sameAlarms_saved _ state)

theorem asleep_sysTicks (state : IntHandlerState) :
    (asleep m.kernel i sema state).sysTicks = (countTick m.kernel state).sysTicks := by
  refine countTick_sysTicks (k := m.kernel) ?_ state
  exact saveState_sysTicks _ state

theorem sleep_alarms (inv : AlarmInv m log) (sound : AlarmsSound m (.sleep sema state fuel))
    (resumed : m.resume (asleep m.kernel i sema state) (interruptEnd fuel true (asleep m.kernel i sema state)) =
      some m') : AlarmInv m' (log.ring m'.kernel.sysTicks (newAlarms m m')) :=
  inv.scan (resume_scanned (sameAlarms_refl _) (asleep_same state) (asleep_sysTicks state)
    (no_notices _) (fun _ ended => (interruptEnd_switched ended).1) resumed) (sound trivial)

theorem irq_alarms (inv : AlarmInv m log)
    (sound : AlarmsSound m (.irq state fuel)) (taken : m.irq state fuel = some m') :
    AlarmInv m' (log.ring m'.kernel.sysTicks (newAlarms m m')) := by
  unfold Machine.irq at taken
  dsimp only at taken
  cases switch : state.timer || m.kernel.currentProc.isNone with
  | true =>
    have scans : Scans m (.irq state fuel) := by simpa [Scans] using switch
    rw [switch] at taken
    refine inv.scan (resume_scanned (sameAlarms_refl _) (sameAlarms_saved m.kernel state) ?_
      (no_notices _) (fun _ ended => (interruptEnd_switched ended).1) taken) (sound scans)
    exact countTick_sysTicks (saveState_sysTicks _ state) state
  | false =>
    rw [switch] at taken
    rcases resume_cases taken with ⟨after, result, rfl⟩ | ⟨stop, -, rfl⟩
    · obtain rfl := resumeCurrent_eq (Option.some.inj result)
      refine inv.quiet _ (sameAlarms_saved m.kernel state) fun j => ?_
      refine silent_of_sent (funext fun j => ?_) j
      simp only [History.recordAlarms, switchToUserspace, List.append_right_eq_self]
      split
      · rename_i p q held there
        obtain rfl := Option.some.inj (held.symm.trans there)
        exact List.drop_length
      · rfl
    · exact inv.quiet _ (sameAlarms_refl _) (silent_of_sent rfl)

theorem recordKilled_sent (h : History) (heir target : Option Nat) (j : Nat) : ∃ signals,
    (h.recordKilled i heir target).sent j = h.sent j ++ signals ∧
      signals.filter (fun signal => signal.type = sigTypeAlarm) = [] := by
  cases target with
  | none => exact no_notices _ j
  | some pp =>
    by_cases own : j = pp
    · subst own
      exact ⟨[sigchld], update_self .., rfl⟩
    · exact ⟨[], (update_of_ne own ..).trans (List.append_nil _).symm, rfl⟩

theorem segfaulted_same (state : IntHandlerState) : SameAlarms m.kernel (segfaulted m.kernel i p state heap) := by
  refine SameAlarms.trans ?_ (segfaulted_map (fun _ => rfl) m.kernel i p state heap)
  exact SameAlarms.modify (saveState_map shaded_alarmTicks.procState m.kernel state) i fun _ => rfl

theorem segfaulted_sysTicks (state : IntHandlerState) :
    (segfaulted m.kernel i p state heap).sysTicks = (countTick m.kernel state).sysTicks := by
  refine countTick_sysTicks (Eq.trans ?_ (saveState_sysTicks m.kernel state)) state
  cases sigchldTarget m.kernel.procs p p <;> rfl

theorem step_alarms {action : Action} (inv : AlarmInv m log) (sound : AlarmsSound m action)
    (taken : m.step action = some m') : AlarmInv m' (noteAlarms log m action m') := by
  cases (step_cases taken).2 with
  | irq _ _ _ served => exact irq_alarms inv sound served
  | others semas heap => exact inv.keep (sameAlarms_refl _)
  | own i p _ _ running here does =>
    have notSet : ∀ {answers : Answers}, p.syscall ≠ some .alarmset → noteAlarms log m (.call answers) m' = log :=
      fun other => (note_call running here).trans (if_neg other)
    cases does with
    | user => exact inv.keep (sameAlarms_refl _)
    | trap state =>
      refine inv.keep ((intSysCallEnter_map shaded_alarmTicks.procState _ i).trans ?_)
      exact (sameAlarms_saved m.kernel state).modify i fun _ => rfl
    | signal _ _ step =>
      obtain ⟨_, quiet⟩ := step.quiet running
      have kept : AlarmInv m' log := inv.keep (quiet.map fun _ => rfl)
      cases step with
      | refuse _ _ call => rwa [notSet (by rcases call with call | call <;> simp [call])]
      | down _ _ call | send _ _ _ call => rwa [notSet (by simp [call])]
      | _ => exact kept
    | exit answers place call =>
      rw [notSet (by simp [call])]
      exact inv.keep callExit_same
    | exec answers k child place call begun =>
      rw [notSet (by simp [call])]
      exact exec_alarms inv running call (sound (by simp [currentCall, running, here, call])) begun
    | serve answers k place apart served => exact serve_alarms inv running here apart served _ rfl
    | load loaded child =>
      have loads : SameAlarms m.kernel (m.kernel.modifyProc child (loadChild p.pid loaded)) :=
        (sameAlarms_refl _).modify child fun _ => rfl
      exact inv.keep (loads.modify i fun _ => rfl)
    | finish _ _ _ dead resumed => exact finish_alarms inv running here dead sound resumed
    | leave _ _ _ _ left => exact inv.quiet _ (intSysCallLeave_same here left) (silent_of_sent rfl)
    | sleep _ _ _ _ _ _ resumed => exact sleep_alarms inv sound resumed
    | segfault state _ _ _ _ _ _ resumed =>
      exact inv.scan (resume_scanned (segfaulted_same state) (segfaulted_same state) (segfaulted_sysTicks state)
        (recordKilled_sent m.history _ _) (fun _ ended => (interruptEnd_switched ended).1) resumed) (sound trivial)
    | pageZero page => exact inv.keep (sameAlarms_mapPageZero m.kernel page)
    | stop action stop fault =>
      cases fault with
      | exec _ _ _ call =>
        rw [notSet (by simp [call])]
        exact inv.keep (sameAlarms_refl _)
      | serve _ _ _ _ failed =>
        rw [notSet fun alarmset => by simp [processSyscall, alarmset, processAlarmset] at failed]
        exact inv.keep (sameAlarms_refl _)
      | wait | append => exact inv.keep (sameAlarms_refl _)
      | leave | segfault | notice => exact inv.quiet _ (sameAlarms_refl _) (silent_of_sent rfl)

end

def alarmAtOne : List Action := wholeCall .alarmset 1 0 0 ++ [tick]

theorem not_justified_of_rung {k : KernelState} {actions : List Action} (armed : Option (BitVec 32)) (now : BitVec 32)
    (rung : (run (watch Machine.step noteAlarms) (Machine.start k, .empty) actions).map (fun w => w.2.rung 0) =
      some [(armed, now)]) (unjustified : ∀ ticks ∈ armed, now < ticks) :
    ¬ Throughout (watch Machine.step noteAlarms) (fun w => Justified w.2) (Machine.start k, .empty) actions := by
  intro justified
  obtain ⟨w, reached, list⟩ := Option.map_eq_some_iff.mp rung
  have last := (throughout_iff.mp justified _ (List.prefix_refl _) w reached 0).1 (armed, now) (by simp [list])
  obtain ⟨ticks, set, due⟩ := last
  exact absurd due (BitVec.not_le.mpr (unjustified ticks set))

end PiOS.Proof.Alarms
