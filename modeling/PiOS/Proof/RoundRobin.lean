import PiOS.Proof.Switch

namespace PiOS.Proof.RoundRobin
open Kernel Transition Sched

def distance (k : KernelState) (j : Nat) : Nat := movesTo k.procs.length k.lastElement j

def EligibleAt (k : KernelState) (j : Nat) : Prop := ∃ p, k.procs[j]? = some p ∧ Eligible k p

structure FirstEligible (k : KernelState) (j : Nat) : Prop where
  eligible : EligibleAt k j
  first : ∀ i, EligibleAt k i → distance k j ≤ distance k i

structure Picks (k k' : KernelState) (j : Nat) : Prop where
  current : k'.currentProc = some j
  last : k'.lastElement = some j
  lives : ∀ p, k.procs[j]? = some p → p.state ≠ .dead ∧ p.state ≠ .unloaded
  others : ∀ i, i ≠ j → (k'.procs[i]?).map Proc.state = (k.procs[i]?).map Proc.state
  length : k'.procs.length = k.procs.length

variable {k k' : KernelState} {first : Option Nat} {j fuel : Nat}

theorem exists_firstEligible (someone : SomeEligible k) : ∃ j, FirstEligible k j := by
  obtain ⟨p, listed, eligible⟩ := someone
  obtain ⟨i, here⟩ := List.getElem?_of_mem listed
  classical
  have nonempty : ∃ d, ∃ i, EligibleAt k i ∧ distance k i = d := ⟨_, i, ⟨p, here, eligible⟩, rfl⟩
  obtain ⟨j, chosen, least⟩ := Nat.find_spec nonempty
  refine ⟨j, chosen, fun l other => ?_⟩
  rw [least]
  exact Nat.find_min' nonempty ⟨l, other, rfl⟩

theorem scanned_state (scanned : Scanned k k') (i : Nat) :
    (k'.procs[i]?).map Proc.state = (k.procs[i]?).map Proc.state := by
  have same := congrArg (fun procs : List Proc => (procs[i]?).map Proc.state) scanned.procs
  simpa only [List.getElem?_map, Option.map_map, Function.comp_def, alarmed_state] using same

theorem eligibleAt_scanned (scanned : Scanned k k') (i : Nat) : EligibleAt k' i ↔ EligibleAt k i := by
  constructor
  · rintro ⟨q, there, eligible⟩
    obtain ⟨p, here, -, same⟩ := scanned.symm.at there
    exact ⟨p, here, same.mpr eligible⟩
  · rintro ⟨p, here, eligible⟩
    obtain ⟨q, there, -, same⟩ := scanned.at here
    exact ⟨q, there, same.mpr eligible⟩

theorem distance_again (valid : Valid k) (turn : schedTurn first k = .ok (.again k')) {i : Nat} (small : i < k.procs.length)
    (other : nextElement k.procs k.lastElement ≠ i) : distance k i = distance k' i + 1 := by
  obtain ⟨scanned, last⟩ := schedTurn_again valid turn
  unfold distance
  rw [scanned.length, last, nextElement_eq]
  rw [nextElement_eq] at other
  exact movesTo_next small valid.inside other

theorem EligibleAt.lt {i : Nat} (eligible : EligibleAt k i) : i < k.procs.length := by
  obtain ⟨p, here, -⟩ := eligible
  exact (List.getElem?_eq_some_iff.mp here).1

theorem EligibleAt.lives {i : Nat} {p : Proc} (eligible : EligibleAt k i) (here : k.procs[i]? = some p) :
    p.state ≠ .dead ∧ p.state ≠ .unloaded := by
  obtain ⟨q, there, eligible⟩ := eligible
  obtain rfl := Option.some.inj (here.symm.trans there)
  refine ⟨eligible_not_dead eligible, fun unloaded => ?_⟩
  simp [Eligible, unloaded] at eligible

theorem FirstEligible.near (valid : Valid k) (chosen : FirstEligible k j) (near : distance k j ≤ 1) :
    nextElement k.procs k.lastElement = j := by
  by_contra elsewhere
  have next := (List.getElem?_eq_some_iff.mp valid.here.choose_spec).1
  rw [nextElement_eq] at elsewhere next
  have way := movesTo_next chosen.eligible.lt valid.inside elsewhere
  have left : 0 < movesTo k.procs.length (some (cycleNext k.procs.length k.lastElement)) j :=
    movesTo_pos fun i at_i => Option.some.inj at_i ▸ next
  unfold distance at near
  omega

theorem Picks.after {k'' : KernelState} (scanned : Scanned k k') (picks : Picks k' k'' j) :
    Picks k k'' j where
  current := picks.current
  last := picks.last
  lives := by
    intro p here
    obtain ⟨q, there, state, -⟩ := scanned.at here
    rw [← state]
    exact picks.lives q there
  others i other := (picks.others i other).trans (scanned_state scanned i)
  length := picks.length.trans scanned.length

/-- The scan comes to the first eligible process no later than back to its start. -/
structure Heading (first : Option Nat) (j : Nat) (k : KernelState) : Prop where
  valid : Valid k
  chosen : FirstEligible k j
  far : ∀ i, first = some i → i < k.procs.length ∧ distance k j ≤ distance k i

theorem Heading.next (heading : Heading first j k) (near : EligibleAt k (nextElement k.procs k.lastElement) ∨
    first = some (nextElement k.procs k.lastElement)) : nextElement k.procs k.lastElement = j := by
  have next : distance k (nextElement k.procs k.lastElement) = 1 := by
    rw [nextElement_eq]
    exact movesTo_cycleNext heading.valid.inside
  refine heading.chosen.near heading.valid (next ▸ ?_)
  exact near.elim (heading.chosen.first _) fun start => (heading.far _ start).2

theorem Heading.again (heading : Heading first j k) (turn : schedTurn first k = .ok (.again k')) :
    Heading first j k' := by
  obtain ⟨q, there⟩ := heading.valid.here
  have waits : ¬ EligibleAt k (nextElement k.procs k.lastElement) := by
    rintro ⟨p, here, eligible⟩
    obtain rfl := Option.some.inj (here.symm.trans there)
    have turns := schedTurn_turns first there
    rw [turn] at turns
    cases turns with
    | dead dead => exact eligible_not_dead eligible dead
    | pass _ waits => exact waits eligible
  have passes {i : Nat} (eligible : EligibleAt k i) : nextElement k.procs k.lastElement ≠ i := by
    rintro rfl
    exact waits eligible
  obtain ⟨scanned, -⟩ := schedTurn_again heading.valid turn
  have closer {i : Nat} (small : i < k.procs.length) := distance_again heading.valid turn (i := i) small
  have own := closer heading.chosen.eligible.lt (passes heading.chosen.eligible)
  refine ⟨heading.valid.again turn, ⟨(eligibleAt_scanned scanned j).mpr heading.chosen.eligible, fun i eligible => ?_⟩,
    fun i start => ?_⟩
  · have before := (eligibleAt_scanned scanned i).mp eligible
    have nearer := closer before.lt (passes before)
    have least := heading.chosen.first i before
    omega
  · obtain ⟨small, later⟩ := heading.far i start
    have nearer := closer small fun same => passes heading.chosen.eligible (heading.next (Or.inr (same ▸ start)))
    exact ⟨by rw [scanned.length]; exact small, by omega⟩

theorem Heading.leave (heading : Heading first j k) (turn : schedTurn first k = .ok (.leave k')) : Picks k k' j := by
  obtain ⟨q, there⟩ := heading.valid.here
  have turns := schedTurn_turns first there
  rw [turn] at turns
  cases turns with
  | pick eligible =>
    have arrived := heading.next (Or.inl ⟨q, there, eligible⟩)
    refine ⟨congrArg some arrived, congrArg some arrived, fun p here => heading.chosen.eligible.lives here,
      fun i other => ?_, by simp⟩
    rw [← arrived] at other
    simp [List.getElem?_set_ne (Ne.symm other)]
  | idle _ waits _ start =>
    obtain ⟨p, here, eligible⟩ := heading.chosen.eligible
    rw [← heading.next (Or.inr start)] at here
    exact absurd (Option.some.inj (here.symm.trans there) ▸ eligible) waits

theorem schedPickNext_picks (valid : Valid k) (chosen : FirstEligible k j)
    (ended : schedPickNext fuel k = some (.ok k')) : Picks k k' j := by
  have heading : Heading k.lastElement j k := by
    refine ⟨valid, chosen, fun i start => ⟨valid.inside i start, ?_⟩⟩
    refine (movesTo_le chosen.eligible.lt _).trans ?_
    simp [distance, start, movesTo]
  rw [schedPickNext_eq valid] at ended
  obtain ⟨k₁, ⟨heading₁, scanned⟩, turn⟩ := schedScan_ends
    (I := fun k₁ => Heading k.lastElement j k₁ ∧ Scanned k k₁)
    (fun _ _ inv turn => ⟨inv.1.again turn, inv.2.trans (schedTurn_again inv.1.valid turn).1⟩)
    ⟨heading, rfl, rfl, rfl⟩ ended
  exact (heading₁.leave turn).after scanned

theorem schedPickNext_returns (valid : Valid k) (chosen : FirstEligible k j) (fits : AlarmsFit k) :
    ∃ fuel k', schedPickNext fuel k = some (.ok k') := by
  obtain ⟨p, here, eligible⟩ := chosen.eligible
  obtain ⟨k', ended⟩ := schedScan_leaves k.lastElement j k valid fits p here (eligible_not_dead eligible)
    (Or.inl eligible)
  exact ⟨_, k', (schedPickNext_eq valid _).trans ended⟩

structure CallsInARow (n j : Nat) (before after : Nat → KernelState) : Prop where
  list : ∀ t, Valid (before t) ∧ (before t).procs.length = n
  call : ∀ t < n, ∃ fuel, schedPickNext fuel (before t) = some (.ok (after t))
  last : ∀ t < n, (before (t + 1)).lastElement = (after t).lastElement
  eligible : ∀ t < n, EligibleAt (before t) j

theorem CallsInARow.picked {n : Nat} {before after : Nat → KernelState}
    (calls : CallsInARow n j before after) : ∃ t < n, (after t).currentProc = some j := by
  have nonempty := List.length_pos_iff.mpr (calls.list 0).1.nonempty
  rw [(calls.list 0).2] at nonempty
  have small : j < n := by
    rw [← (calls.list 0).2]
    exact (calls.eligible 0 nonempty).lt
  -- who is picked by the call at `t`
  have picks : ∀ t < n, ∃ i, FirstEligible (before t) i ∧ Picks (before t) (after t) i := by
    intro t early
    obtain ⟨p, here, eligible⟩ := calls.eligible t early
    obtain ⟨i, chosen⟩ := exists_firstEligible ⟨p, List.mem_of_getElem? here, eligible⟩
    obtain ⟨fuel, called⟩ := calls.call t early
    exact ⟨i, chosen, schedPickNext_picks (calls.list t).1 chosen called⟩
  choose! pick chosen picked using picks
  obtain ⟨t, early, arrived⟩ := arrives_within small (fun t => (before t).lastElement) pick
    (fun t i at_i => by rw [← (calls.list t).2]; exact (calls.list t).1.inside i at_i)
    (fun t early => (calls.last t early).trans (picked t early).last)
    (fun t early => by
      have least := (chosen t early).first j (calls.eligible t early)
      unfold distance at least
      rwa [(calls.list t).2] at least)
  exact ⟨t, early, by rw [(picked t early).current, arrived]⟩

def turnBefore (t : Nat) : KernelState := { threadAndUser with lastElement := some (t % 2) }

def turnAfter (t : Nat) : KernelState :=
  { threadAndUser with lastElement := some ((t + 1) % 2), currentProc := some ((t + 1) % 2) }

/-- The alarm of the first process is due. The heap holds the processes with their list nodes, and one block that
takes the rest. -/
def alarmWithoutRoom : KernelState :=
  { runningFirst [{ userProc 1 0 0x211 with alarmTicks := 1 }, userProc 2 0 0x213] with
    sysTicks := 1
    lastElement := some 1
    heap := fun chunk => ([(0, 43), (43, 1), (44, 43), (87, 1), (88, 2087)].lookup chunk).getD 0 }

end PiOS.Proof.RoundRobin
