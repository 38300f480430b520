import PiOS.Kernel.Libk.SemaphoreDown
import PiOS.Proof.Switch
import PiOS.Transition.Outcome

namespace PiOS.Proof.Semaphore
open Kernel Transition Sched Function

structure Tally where
  ups : Nat
  downs : Nat
  origin : Nat → RunState

def Tally.zero : Tally := ⟨0, 0, fun _ => .runnable⟩

def takesUnit (id : Nat) (s : SemaState) : SemaAction → Bool
  | .down => 0 < s.kernel.semas id
  | .recheck => s.kernel.semas id ≠ 0
  | _ => false

def noteSema (id : Nat) (tally : Tally) (s : SemaState) (action : SemaAction) (_ : SemaState) : Tally :=
  match action with
  | .up => { tally with ups := tally.ups + 1 }
  | .down =>
    if takesUnit id s .down then { tally with downs := tally.downs + 1 }
    else { tally with origin := fun i =>
      if s.kernel.currentProc = some i then ((s.kernel.procs[i]?).map Proc.state).getD .runnable else tally.origin i }
  | .recheck => if takesUnit id s .recheck then { tally with downs := tally.downs + 1 } else tally
  | _ => tally

abbrev tallyStep (id : Nat) : SemaState × Tally → SemaAction → Option (SemaState × Tally) :=
  watch (semaStep id) (noteSema id)

def Asleep (p : Proc) : Prop := p.state = .blocked ∨ p.state = .syscallBlocked

instance (p : Proc) : Decidable (Asleep p) := by
  unfold Asleep
  infer_instance

structure SemaSafe (id : Nat) (w : SemaState × Tally) : Prop where
  asserts : w.1.halted = none
  count : w.1.kernel.semas id = w.2.ups - w.2.downs
  nonneg : 0 ≤ w.1.kernel.semas id
  asleep : ∀ p ∈ w.1.kernel.procs, Asleep p ↔ p.semaBlocked ≠ none
  woken : ∀ (i : Nat) (p : Proc), w.1.kernel.procs[i]? = some p → w.1.place i ≠ .outside →
    p.semaBlocked = none → p.state = w.2.origin i

def Below (id : Nat) (w : SemaState × Tally) : SemaAction → Prop
  | .up => w.1.kernel.semas id < 2 ^ 15 - 1
  | _ => True

instance (id : Nat) (w : SemaState × Tally) (action : SemaAction) : Decidable (Below id w action) := by
  cases action <;> unfold Below <;> infer_instance

def KindOf : RunState → RunState → Prop
  | .runnable, state => state = .runnable ∨ state = .blocked
  | .syscall, state => state = .syscall ∨ state = .syscallBlocked
  | _, _ => False

structure SemaInv (id : Nat) (w : SemaState × Tally) : Prop where
  asserts : w.1.halted = none
  count : w.1.kernel.semas id = w.2.ups - w.2.downs
  nonneg : 0 ≤ w.1.kernel.semas id
  small : w.1.kernel.semas id < 2 ^ 15
  asleep : ∀ p ∈ w.1.kernel.procs, Asleep p ↔ p.semaBlocked ≠ none
  kind : ∀ (i : Nat) (p : Proc), w.1.kernel.procs[i]? = some p → w.1.place i ≠ .outside →
    KindOf (w.2.origin i) p.state

variable {id : Nat}

theorem SemaInv.safe {w : SemaState × Tally} (inv : SemaInv id w) : SemaSafe id w := by
  refine ⟨inv.asserts, inv.count, inv.nonneg, inv.asleep, fun i p here inside free => ?_⟩
  have awake : ¬ Asleep p := fun asleep => (inv.asleep p (List.mem_of_getElem? here)).mp asleep free
  have kind := inv.kind i p here inside
  cases origin : w.2.origin i <;> simp_all [KindOf, Asleep]

section

variable {id : Nat} {s s' : SemaState} {tally : Tally} {i : Nat} {p : Proc} {w w' : SemaState × Tally}
  {action : SemaAction} {origin : RunState} {t : BitVec 32} {q : Proc}

theorem SemaInv.add (inv : SemaInv id (s, tally)) {val : Int} {ups downs : Nat}
    (count : s.kernel.semas id + val = ups - downs) (nonneg : 0 ≤ s.kernel.semas id + val)
    (small : s.kernel.semas id + val < 2 ^ 15) :
    SemaInv id (s.setKernel (s.kernel.atomicAddInt id val), { tally with ups := ups, downs := downs }) := by
  have value : (s.kernel.atomicAddInt id val).semas id = s.kernel.semas id + val := by
    simp only [KernelState.atomicAddInt, update_self]
    exact intWrap_eq (by omega) small
  refine ⟨inv.asserts, ?_, ?_, ?_, inv.asleep, inv.kind⟩
  · exact value.trans count
  · exact le_of_le_of_eq nonneg value.symm
  · exact lt_of_eq_of_lt value small

theorem SemaInv.setPlace (inv : SemaInv id (s, tally)) {place : DownPlace}
    (kind : place ≠ .outside → ∀ p, s.kernel.procs[i]? = some p → KindOf (tally.origin i) p.state) :
    SemaInv id (s.setPlace i place, tally) := by
  refine ⟨inv.asserts, inv.count, inv.nonneg, inv.small, inv.asleep, fun j q here inside => ?_⟩
  by_cases own : j = i
  · subst own
    change update s.place j place j ≠ .outside at inside
    rw [update_self] at inside
    exact kind inside q here
  · change update s.place i place j ≠ .outside at inside
    rw [update_of_ne own] at inside
    exact inv.kind j q here inside

theorem SemaInv.modify (inv : SemaInv id (s, tally)) (here : s.kernel.procs[i]? = some p) {f : Proc → Proc}
    (asleep : Asleep (f p) ↔ (f p).semaBlocked ≠ none)
    (kind : s.place i ≠ .outside → KindOf origin (f p).state) : SemaInv id (s.setKernel (s.kernel.modifyProc i f),
      { tally with origin := update tally.origin i origin }) := by
  refine ⟨inv.asserts, inv.count, inv.nonneg, inv.small, fun q listed => ?_, fun j q there inside => ?_⟩
  · obtain ⟨j, there⟩ := List.getElem?_of_mem listed
    by_cases own : j = i
    · subst own
      rw [SemaState.setKernel, modifyProc_self, here] at there
      obtain rfl := Option.some.inj there
      exact asleep
    · rw [SemaState.setKernel, modifyProc_of_ne _ _ _ own] at there
      exact inv.asleep q (List.mem_of_getElem? there)
  · by_cases own : j = i
    · subst own
      rw [SemaState.setKernel, modifyProc_self, here] at there
      obtain rfl := Option.some.inj there
      change KindOf (update tally.origin j origin j) _
      rw [update_self]
      exact kind inside
    · rw [SemaState.setKernel, modifyProc_of_ne _ _ _ own] at there
      change KindOf (update tally.origin i origin j) _
      rw [update_of_ne own]
      exact inv.kind j q there inside

theorem kindOf_effect (kind : KindOf origin p.state) (effect : SchedEffect t p q) : KindOf origin q.state := by
  rcases effect.state with same | ⟨blocked, runs⟩ | ⟨blocked, runs⟩
  · rwa [same]
  · rw [blocked] at kind
    cases origin <;> simp_all [KindOf]
  · rw [blocked] at kind
    cases origin <;> simp_all [KindOf]

theorem asleep_effect (asleep : Asleep p ↔ p.semaBlocked ≠ none)
    (effect : SchedEffect t p q) : Asleep q ↔ q.semaBlocked ≠ none := by
  induction effect with
  | same => exact asleep
  | @alarm q _ ih =>
    have state : (alarmed t q).state = q.state := alarmed_keeps (fun _ _ => rfl) q
    have sema : (alarmed t q).semaBlocked = q.semaBlocked := alarmed_keeps (fun _ _ => rfl) q
    rwa [Asleep, state, sema]
  | @wake q _ blocked _ =>
    rcases blocked with state | state <;> simp [Asleep, Kernel.wake, state]

section

variable (inv : SemaInv id (s, tally))
include inv

theorem SemaInv.pickNext {fuel : Nat} (picked : s.pickNext fuel = some s') : SemaInv id (s', tally) := by
  obtain ⟨result, returned, rest⟩ := Option.bind_eq_some_iff.mp picked
  obtain ⟨k, ok, rfl⟩ := Option.map_eq_some_iff.mp rest
  rw [toOption_eq_some] at ok
  subst ok
  obtain ⟨switched, -⟩ := schedPickNext_switched returned
  have origin : ∀ (j : Nat) (q : Proc), k.procs[j]? = some q →
      ∃ r, s.kernel.procs[j]? = some r ∧ SchedEffect s.kernel.sysTicks r q := by
    intro j q there
    have small : j < s.kernel.procs.length := by
      rw [← switched.length]
      exact (List.getElem?_eq_some_iff.mp there).1
    obtain ⟨q', there', effect⟩ := switched.each j _ (List.getElem?_eq_getElem small)
    obtain rfl := Option.some.inj (there.symm.trans there')
    exact ⟨_, List.getElem?_eq_getElem small, effect⟩
  have semas : k.semas id = s.kernel.semas id := by rw [switched.semas]
  refine ⟨inv.asserts, semas.trans inv.count, le_of_le_of_eq inv.nonneg semas.symm,
    lt_of_eq_of_lt semas inv.small, fun q listed => ?_, fun j q there inside => ?_⟩
  · obtain ⟨j, there⟩ := List.getElem?_of_mem listed
    obtain ⟨r, here, effect⟩ := origin j q there
    exact asleep_effect (inv.asleep r (List.mem_of_getElem? here)) effect
  · obtain ⟨r, here, effect⟩ := origin j q there
    exact kindOf_effect (inv.kind j r here inside) effect

theorem semaphoreDown_inv (running : s.kernel.currentProc = some i)
    (here : s.kernel.procs[i]? = some p) (outside : s.place i = .outside)
    (runs : p.state = .runnable ∨ p.state = .syscall) :
    SemaInv id (s.semaphoreDown id i, noteSema id tally s .down (s.semaphoreDown id i)) := by
  have nonneg : 0 ≤ s.kernel.semas id := inv.nonneg
  have count : s.kernel.semas id = tally.ups - tally.downs := inv.count
  have small : s.kernel.semas id < 2 ^ 15 := inv.small
  unfold SemaState.semaphoreDown
  rw [if_neg (Int.not_lt.mpr nonneg)]
  by_cases zero : s.kernel.semas id = 0
  · rw [if_pos zero]
    have recorded : ∀ t, noteSema id tally s .down t =
        { tally with origin := update tally.origin i p.state } := by
      intro t
      simp only [noteSema, takesUnit, zero, lt_self_iff_false, decide_false, Bool.false_eq_true, if_false]
      congr 1
      funext j
      by_cases own : i = j
      · subst own
        simp [running, here]
      · simp [running, own, update_of_ne (Ne.symm own)]
    rw [recorded]
    refine (inv.modify here ?_ fun inside => absurd outside inside).setPlace fun _ q there => ?_
    · rcases runs with state | state <;> simp [Asleep, blockOn, state]
    · rw [SemaState.setKernel, modifyProc_self, here] at there
      obtain rfl := Option.some.inj there
      change KindOf (update tally.origin i p.state i) _
      rw [update_self]
      rcases runs with state | state <;> simp [KindOf, blockOn, state]
  · rw [if_neg zero]
    have recorded : ∀ t, noteSema id tally s .down t = { tally with downs := tally.downs + 1 } := by
      intro t
      simp [noteSema, takesUnit, lt_of_le_of_ne nonneg (Ne.symm zero)]
    rw [recorded]
    exact inv.add (by push_cast; omega) (by omega) (by omega)

theorem semaphoreRecheck_inv (after : s.place i = .afterYield) :
    SemaInv id (s.semaphoreRecheck id i, noteSema id tally s .recheck (s.semaphoreRecheck id i)) := by
  have nonneg : 0 ≤ s.kernel.semas id := inv.nonneg
  have count : s.kernel.semas id = tally.ups - tally.downs := inv.count
  have small : s.kernel.semas id < 2 ^ 15 := inv.small
  unfold SemaState.semaphoreRecheck
  by_cases zero : s.kernel.semas id = 0
  · rw [if_pos zero]
    have recorded : ∀ t, noteSema id tally s .recheck t = tally := by
      intro t
      simp [noteSema, takesUnit, zero]
    rw [recorded]
    exact inv.setPlace fun _ q there => inv.kind i q there (by simp [after])
  · rw [if_neg zero]
    have recorded : ∀ t, noteSema id tally s .recheck t = { tally with downs := tally.downs + 1 } := by
      intro t
      simp [noteSema, takesUnit, zero]
    rw [recorded]
    refine SemaInv.setPlace ?_ fun inside => absurd rfl inside
    exact inv.add (by push_cast; omega) (by omega) (by omega)

theorem mode_inv (here : s.kernel.procs[i]? = some p)
    (outside : s.place i = .outside) (awake : ¬ Asleep p) {state : RunState}
    (runs : state = .runnable ∨ state = .syscall) :
    SemaInv id (s.setKernel (s.kernel.modifyProc i fun p => { p with state := state }), tally) := by
  have free := mt (inv.asleep p (List.mem_of_getElem? here)).mpr awake
  have awake' : Asleep { p with state := state } ↔ p.semaBlocked ≠ none := by
    rcases runs with rfl | rfl <;> simpa [Asleep] using free
  have moved : SemaInv id (s.setKernel (s.kernel.modifyProc i fun p => { p with state := state }),
      { tally with origin := update tally.origin i (tally.origin i) }) :=
    inv.modify here awake' fun inside => absurd outside inside
  rwa [update_eq_self] at moved

end

theorem step_semaInv (inv : SemaInv id w)
    (below : Below id w action) (watched : tallyStep id w action = some w') : SemaInv id w' := by
  obtain ⟨s, tally⟩ := w
  obtain ⟨s', tally'⟩ := w'
  obtain ⟨taken, noted⟩ := watch_eq_some watched
  dsimp only at taken noted
  subst noted
  have goes : s.halted.isSome = false := by rw [inv.asserts]; rfl
  have nonneg : 0 ≤ s.kernel.semas id := inv.nonneg
  have count : s.kernel.semas id = tally.ups - tally.downs := inv.count
  unfold semaStep at taken
  rw [goes, if_neg (by simp)] at taken
  cases action with
  | up =>
    obtain rfl := Option.some.inj taken
    exact inv.add (by push_cast; omega) (by omega) (by simp only [Below] at below; omega)
  | others semas =>
    obtain rfl := Option.some.inj taken
    have same : (update semas id (s.kernel.semas id)) id = s.kernel.semas id := update_self ..
    exact ⟨inv.asserts, same.trans count, le_of_le_of_eq nonneg same.symm, lt_of_eq_of_lt same inv.small,
      inv.asleep, inv.kind⟩
  | interrupt fuel =>
    have ticked : SemaInv id (s.setKernel { s.kernel with sysTicks := s.kernel.sysTicks + 1 }, tally) :=
      ⟨inv.asserts, count, nonneg, inv.small, inv.asleep, inv.kind⟩
    exact ticked.pickNext taken
  | down =>
    obtain ⟨i, running, rest⟩ := Option.bind_eq_some_iff.mp taken
    obtain ⟨p, here, acted⟩ := Option.bind_eq_some_iff.mp rest
    obtain ⟨⟨outside, runs⟩, equal⟩ := Option.ite_none_right_eq_some.mp acted
    obtain rfl := Option.some.inj equal
    exact semaphoreDown_inv inv running here outside runs
  | yield fuel =>
    obtain ⟨i, running, rest⟩ := Option.bind_eq_some_iff.mp taken
    obtain ⟨p, here, acted⟩ := Option.bind_eq_some_iff.mp rest
    obtain ⟨before, picked⟩ := Option.ite_none_right_eq_some.mp acted
    have moved : SemaInv id (s.setPlace i .afterYield, tally) :=
      inv.setPlace fun _ q there => inv.kind i q there (by simp [before])
    exact moved.pickNext picked
  | recheck =>
    obtain ⟨i, running, rest⟩ := Option.bind_eq_some_iff.mp taken
    obtain ⟨p, here, acted⟩ := Option.bind_eq_some_iff.mp rest
    obtain ⟨after, equal⟩ := Option.ite_none_right_eq_some.mp acted
    obtain rfl := Option.some.inj equal
    exact semaphoreRecheck_inv inv after
  | mode =>
    obtain ⟨i, running, rest⟩ := Option.bind_eq_some_iff.mp taken
    obtain ⟨p, here, acted⟩ := Option.bind_eq_some_iff.mp rest
    simp only [SemaState.act] at acted
    split at acted
    · rename_i runs
      obtain rfl := Option.some.inj acted
      exact mode_inv inv here runs.1 (by simp [Asleep, runs.2]) (Or.inr rfl)
    · obtain ⟨runs, equal⟩ := Option.ite_none_right_eq_some.mp acted
      obtain rfl := Option.some.inj equal
      exact mode_inv inv here runs.1 (by simp [Asleep, runs.2]) (Or.inl rfl)

theorem overflow_negative (inv : SemaInv id w)
    (full : ¬ Below id w action) (watched : tallyStep id w action = some w') : w'.1.kernel.semas id < 0 := by
  obtain ⟨taken, -⟩ := watch_eq_some watched
  cases action with
  | up =>
    have goes : w.1.halted.isSome = false := by rw [inv.asserts]; rfl
    have largest : w.1.kernel.semas id = 2 ^ 15 - 1 := by
      have small := inv.small
      simp only [Below, not_lt] at full
      omega
    simp only [semaStep, goes, Bool.false_eq_true, if_false] at taken
    rw [← Option.some.inj taken]
    simp only [SemaState.setKernel, KernelState.atomicAddInt, update_self, largest]
    decide
  | _ => exact absurd trivial full

end

theorem start_semaInv {k : KernelState} (zero : k.semas id = 0)
    (asleep : ∀ p ∈ k.procs, Asleep p ↔ p.semaBlocked ≠ none) : SemaInv id (semaStart k, Tally.zero) := by
  refine ⟨rfl, ?_, ?_, ?_, asleep, fun i p here inside => absurd rfl inside⟩
  · simpa [semaStart, Tally.zero] using zero
  · exact le_of_eq zero.symm
  · exact lt_of_eq_of_lt zero (by decide)

theorem semaphore_safe_iff_below (id : Nat) (k : KernelState) (zero : k.semas id = 0)
    (asleep : ∀ p ∈ k.procs, Asleep p ↔ p.semaBlocked ≠ none) (actions : List SemaAction) :
    Throughout (tallyStep id) (SemaSafe id) (semaStart k, Tally.zero) actions ↔
      Guarded (tallyStep id) (Below id) (semaStart k, Tally.zero) actions := by
  apply throughout_iff_guarded (I := SemaInv id)
  · exact fun w inv => inv.safe
  · exact fun w action w' inv below watched => step_semaInv inv below watched
  · exact fun w action w' inv full watched safe =>
      absurd safe.nonneg (Int.not_le.mpr (overflow_negative inv full watched))
  · exact start_semaInv zero asleep

def threads : KernelState := runningFirst [kernelThread 1 0x211, userProc 2 0 0x213]

def sleepAndWake : List SemaAction :=
  [.down, .yield 4, .mode, .up, .interrupt 4, .recheck]

theorem semaphore_safe_iff_below_woken :
    (run (tallyStep 0) (semaStart threads, Tally.zero) sleepAndWake).map
        (fun w => (w.1.kernel.semas 0, w.2.ups, w.2.downs, w.1.kernel.procs.map Proc.state)) =
          some (0, 1, 1, [.runnable, .syscall]) ∧
      Throughout (tallyStep 0) (SemaSafe 0) (semaStart threads, Tally.zero) sleepAndWake := by
  refine ⟨by decide +kernel, (semaphore_safe_iff_below 0 threads rfl (by decide) sleepAndWake).mpr ?_⟩
  decide +kernel

theorem run_ups (id n : Nat) {s : SemaState} (goes : s.halted = none) (int : s.kernel.semas id < 2 ^ 15)
    (tally : Tally) : ∃ s', run (tallyStep id) (s, tally) (List.replicate n .up) =
        some (s', { tally with ups := tally.ups + n }) ∧ s'.kernel.semas id < 2 ^ 15 := by
  induction n generalizing s tally with
  | zero => exact ⟨s, rfl, int⟩
  | succ n ih =>
    have wrapped : (s.kernel.atomicAddInt id 1).semas id < 2 ^ 15 := by
      simp only [KernelState.atomicAddInt, update_self, intWrap]
      exact Int.bmod_lt (by decide)
    obtain ⟨s', reached, int'⟩ := ih (s := s.setKernel (s.kernel.atomicAddInt id 1)) goes wrapped
      { tally with ups := tally.ups + 1 }
    refine ⟨s', ?_, int'⟩
    have first : tallyStep id (s, tally) .up =
        some (s.setKernel (s.kernel.atomicAddInt id 1), { tally with ups := tally.ups + 1 }) := by
      simp [tallyStep, watch, semaStep, goes, noteSema]
    rw [List.replicate_succ, run_cons, first]
    refine Eq.trans reached ?_
    rw [Nat.add_assoc, Nat.add_comm 1 n]

theorem semaphore_count_overflows :
    threads.semas 0 = 0 ∧ (∀ p ∈ threads.procs, Asleep p ↔ p.semaBlocked ≠ none) ∧
      ¬ Throughout (tallyStep 0) (SemaSafe 0) (semaStart threads, Tally.zero) (List.replicate (2 ^ 15) .up) := by
  refine ⟨rfl, by decide, fun safe => ?_⟩
  obtain ⟨s, reached, int⟩ := run_ups 0 (2 ^ 15) (s := semaStart threads) rfl (by decide) Tally.zero
  have count := (throughout_iff.mp safe _ (List.prefix_refl _) _ reached).count
  simp only [Tally.zero] at count
  omega

end PiOS.Proof.Semaphore
