import Mathlib.Data.Fintype.Basic
import PiOS.Kernel.Libk.Blockq
import PiOS.Proof.Ringbuff
import PiOS.Queue.Bounded
import PiOS.Transition.Outcome
import PiOS.Transition.Population
import PiOS.Transition.Run

namespace PiOS.Proof.BlockingQueue
open Kernel Queue Transition Function

def toWrite : BlockqPlace → Bool
  | .pushLock _ | .pushOwner _ | .pushWrite _ _ => true
  | _ => false

def toRaise : BlockqPlace → Bool
  | .pushCheck _ | .pushSize | .pushCheckSize | .pushUp => true
  | _ => false

def toRead : BlockqPlace → Bool
  | .popLock | .popOwner | .popCheckSize | .popRead _ => true
  | _ => false

def toFree : BlockqPlace → Bool
  | .popCheck _ | .popSize | .popUp => true
  | _ => false

def owns : BlockqPlace → Bool
  | .pushWrite _ _ | .pushCheck _ | .pushSize | .pushCheckSize | .pushUp | .pushUnlock => true
  | .popCheckSize | .popRead _ | .popCheck _ | .popSize | .popUp | .popUnlock => true
  | _ => false

def holdsLock : BlockqPlace → Bool
  | .pushOwner _ | .popOwner => true
  | place => owns place

def pushes : BlockqPlace → Option (List Byte)
  | .pushDown elem | .pushLock elem | .pushOwner elem | .pushWrite elem _ => some elem
  | _ => none

def Data (q : Blockq) (stored : List (List Byte)) : BlockqPlace → Prop
  | .pushWrite elem wlen =>
    wlen ≤ q.baseSize ∧ (ring q.rbuff).Holds (stored.flatten ++ elem.take wlen) ∧ q.size = stored.length
  | .pushCheck wb => wb = q.baseSize ∧ (ring q.rbuff).Holds stored.flatten ∧ q.size + 1 = stored.length
  | .pushSize => (ring q.rbuff).Holds stored.flatten ∧ q.size + 1 = stored.length
  | .popRead buff => ∃ elem rest, stored = elem :: rest ∧ buff = elem.take buff.length ∧
      (ring q.rbuff).Holds (elem.drop buff.length ++ rest.flatten) ∧ q.size = stored.length
  | .popCheck rb => rb = q.baseSize ∧ (ring q.rbuff).Holds stored.flatten ∧ q.size = stored.length + 1
  | .popSize => (ring q.rbuff).Holds stored.flatten ∧ q.size = stored.length + 1
  | _ => (ring q.rbuff).Holds stored.flatten ∧ q.size = stored.length

def seen (q : Blockq) (w r d f : Nat) (sent taken stored : List (List Byte)) (place : BlockqPlace) :
    Bounded (List Byte) where
  queue := stored
  free := q.notFull
  avail := q.notEmpty
  toWrite := w + if toWrite place then 1 else 0
  toRaise := r + if toRaise place then 1 else 0
  toRead := d + if toRead place then 1 else 0
  toFree := f + if toFree place then 1 else 0
  sent := sent
  taken := taken

structure Made (max base : Nat) (q : Blockq) : Prop where
  maxSize : q.maxSize = max
  baseSize : q.baseSize = base
  rbuff : q.rbuff.size = max * base + 1

def Whole (base : Nat) (elems : List (List Byte)) : Prop := ∀ elem ∈ elems, elem.length = base

def lockUnit (q : Blockq) : Nat := if q.queueLock.locked then 1 else 0

structure Advance (max base : Nat) (pid : Word) (q : Blockq) (stored : List (List Byte)) (place : BlockqPlace)
    (q' : Blockq) (stored' : List (List Byte)) (place' : BlockqPlace) : Prop where
  made : Made max base q'
  step : ∀ w r d f sent taken, Bounded.Step (seen q w r d f sent taken stored place)
    (seen q' w r d f (sent ++ writtenBy q place) (taken ++ poppedBy q place) stored' place')
  lock : lockUnit q' + (if holdsLock place then 1 else 0) = lockUnit q + if holdsLock place' then 1 else 0
  owner : owns place' = true → q'.queueLock.owner = pid
  data : holdsLock place = true ∨ holdsLock place' = true →
    Data q' stored' (if holdsLock place' then place' else .returned)
  alone : holdsLock place = false → q'.rbuff = q.rbuff ∧ q'.size = q.size ∧
    q'.queueLock.owner = q.queueLock.owner ∧ stored' = stored
  whole : Whole base stored' ∧ ∀ elem ∈ pushes place', elem.length = base

variable {q : Blockq}

theorem lockUnit_unlocked (unlocked : q.queueLock.locked = false) : lockUnit q = 0 := by
  simp [lockUnit, unlocked]

theorem lockUnit_eq_zero (zero : lockUnit q = 0) : q.queueLock.locked = false := by
  simpa [lockUnit] using zero

theorem flatten_length {base : Nat} {elems : List (List Byte)} (whole : Whole base elems) :
    elems.flatten.length = elems.length * base := by
  induction elems with
  | nil => simp
  | cons elem elems ih =>
    have first := whole elem (by simp)
    have rest := ih fun e listed => whole e (by simp [listed])
    rw [List.flatten_cons, List.length_append, first, rest, List.length_cons, Nat.succ_mul, Nat.add_comm]

section

variable {max base : Nat} {pid : Word} {q : Blockq} {stored : List (List Byte)} {place : BlockqPlace}

structure Sees (max base : Nat) (pid : Word) (q : Blockq) (stored : List (List Byte)) (place : BlockqPlace) :
    Prop where
  small : max < 2 ^ 15
  fits : max * base < 65535
  made : Made max base q
  balanced : ∃ w r d f sent taken, (seen q w r d f sent taken stored place).Balanced max
  locked : holdsLock place = true → q.queueLock.locked = true
  owner : owns place = true → q.queueLock.owner = pid
  data : holdsLock place = true → Data q stored place
  free : q.queueLock.locked = false → Data q stored .returned
  whole : Whole base stored ∧ ∀ elem ∈ pushes place, elem.length = base

def Advances (max base : Nat) (pid : Word) (q : Blockq) (stored : List (List Byte)) (place : BlockqPlace) : Prop :=
  Ensures (blockqNext q pid place) (fun out => ∃ stored', Advance max base pid q stored place out.1 stored' out.2)
    (· = .blocked)

variable {q' : Blockq} {elem : List Byte} {place' : BlockqPlace} {target : BlockqPlace} {wlen : Nat}

theorem step_same (free : q'.notFull = q.notFull)
    (avail : q'.notEmpty = q.notEmpty) (write : toWrite place' = toWrite place)
    (raise : toRaise place' = toRaise place) (read : toRead place' = toRead place)
    (release : toFree place' = toFree place) (quiet : writtenBy q place = [] ∧ poppedBy q place = [])
    (w r d f : Nat) (sent taken : List (List Byte)) : Bounded.Step (seen q w r d f sent taken stored place)
      (seen q' w r d f (sent ++ writtenBy q place) (taken ++ poppedBy q place) stored place') := by
  have equal : seen q' w r d f (sent ++ writtenBy q place) (taken ++ poppedBy q place) stored place' =
      seen q w r d f sent taken stored place := by
    simp only [seen, free, avail, write, raise, read, release, quiet, List.append_nil]
  rw [equal]
  exact .same _

theorem pushDown_advances (sees : Sees max base pid q stored (.pushDown elem)) :
    Advances max base pid q stored (.pushDown elem) := by
  obtain ⟨w, r, d, f, sent, taken, balanced⟩ := sees.balanced
  have nonneg : 0 ≤ q.notFull := balanced.free
  simp only [Advances, blockqNext]
  cases down : semaphoreDown q.notFull with
  | error stop => exact Ensures.error (semaphoreDown_error nonneg down)
  | ok left =>
    obtain ⟨up, rfl⟩ := semaphoreDown_ok down
    refine Ensures.ok ⟨stored, ⟨sees.made.maxSize, sees.made.baseSize, sees.made.rbuff⟩, fun w r d f sent taken => ?_,
      rfl, ?_, ?_, fun _ => ⟨rfl, rfl, rfl, rfl⟩, sees.whole⟩
    · have step := Bounded.Step.reserve (seen q w r d f sent taken stored (.pushDown elem)) up
      simpa [seen, toWrite, toRaise, toRead, toFree, writtenBy, poppedBy] using step
    · simp [owns]
    · simp [holdsLock, owns]

theorem popDown_advances (sees : Sees max base pid q stored .popDown) : Advances max base pid q stored .popDown := by
  obtain ⟨w, r, d, f, sent, taken, balanced⟩ := sees.balanced
  have nonneg : 0 ≤ q.notEmpty := balanced.avail
  simp only [Advances, blockqNext]
  cases down : semaphoreDown q.notEmpty with
  | error stop => exact Ensures.error (semaphoreDown_error nonneg down)
  | ok left =>
    obtain ⟨up, rfl⟩ := semaphoreDown_ok down
    refine Ensures.ok ⟨stored, ⟨sees.made.maxSize, sees.made.baseSize, sees.made.rbuff⟩, fun w r d f sent taken => ?_,
      rfl, ?_, ?_, fun _ => ⟨rfl, rfl, rfl, rfl⟩, sees.whole⟩
    · have step := Bounded.Step.claim (seen q w r d f sent taken stored .popDown) up
      simpa [seen, toWrite, toRaise, toRead, toFree, writtenBy, poppedBy] using step
    · simp [owns]
    · simp [holdsLock, owns]

theorem lock_advances (sees : Sees max base pid q stored place) (next : blockqNext q pid place = lockQueue q target)
    (which : (∃ elem, place = .pushLock elem ∧ target = .pushOwner elem) ∨ place = .popLock ∧ target = .popOwner) :
    Advances max base pid q stored place := by
  unfold Advances
  rw [next]
  unfold lockQueue
  cases busy : q.queueLock.locked with
  | true => exact Ensures.error rfl
  | false =>
    have data := sees.free busy
    have made : Made max base { q with queueLock := { q.queueLock with locked := true } } :=
      ⟨sees.made.maxSize, sees.made.baseSize, sees.made.rbuff⟩
    rcases which with ⟨elem, rfl, rfl⟩ | ⟨rfl, rfl⟩
    · refine Ensures.ok ⟨stored, made, step_same rfl rfl rfl rfl rfl rfl ⟨rfl, rfl⟩, ?_, ?_, fun _ => data,
        fun _ => ⟨rfl, rfl, rfl, rfl⟩, sees.whole⟩
      · simp [lockUnit, busy, holdsLock, owns]
      · simp [owns]
    · refine Ensures.ok ⟨stored, made, step_same rfl rfl rfl rfl rfl rfl ⟨rfl, rfl⟩, ?_, ?_, fun _ => data,
        fun _ => ⟨rfl, rfl, rfl, rfl⟩, sees.whole⟩
      · simp [lockUnit, busy, holdsLock, owns]
      · simp [owns]

theorem pushOwner_advances (sees : Sees max base pid q stored (.pushOwner elem)) :
    Advances max base pid q stored (.pushOwner elem) := by
  obtain ⟨holds, size⟩ := sees.data rfl
  refine Ensures.ok ⟨stored, ⟨sees.made.maxSize, sees.made.baseSize, sees.made.rbuff⟩,
    step_same rfl rfl rfl rfl rfl rfl ⟨rfl, rfl⟩, rfl, fun _ => rfl, fun _ => ?_, nofun, sees.whole⟩
  exact ⟨Nat.zero_le _, by simpa using holds, size⟩

theorem popOwner_advances (sees : Sees max base pid q stored .popOwner) : Advances max base pid q stored .popOwner :=
  Ensures.ok ⟨stored, ⟨sees.made.maxSize, sees.made.baseSize, sees.made.rbuff⟩,
    step_same rfl rfl rfl rfl rfl rfl ⟨rfl, rfl⟩, rfl, fun _ => rfl, fun _ => sees.data rfl, nofun, sees.whole⟩

theorem unlock_advances (sees : Sees max base pid q stored place)
    (which : place = .pushUnlock ∨ place = .popUnlock) : Advances max base pid q stored place := by
  have made : Made max base { q with queueLock := spinlockUnlock q.queueLock pid } :=
    ⟨sees.made.maxSize, sees.made.baseSize, sees.made.rbuff⟩
  have holds : holdsLock place = true := by
    rcases which with rfl | rfl <;> rfl
  have owner : owns place = true := by
    rcases which with rfl | rfl <;> rfl
  have unlocked : spinlockUnlock q.queueLock pid = { q.queueLock with locked := false } := by
    simp [spinlockUnlock, sees.owner owner, sees.locked holds]
  have lock : lockUnit { q with queueLock := spinlockUnlock q.queueLock pid } + 1 = lockUnit q := by
    simp [lockUnit, unlocked, sees.locked holds]
  rcases which with rfl | rfl
  · exact Ensures.ok ⟨stored, made, step_same rfl rfl rfl rfl rfl rfl ⟨rfl, rfl⟩, lock, nofun,
      fun _ => sees.data rfl, nofun, sees.whole⟩
  · exact Ensures.ok ⟨stored, made, step_same rfl rfl rfl rfl rfl rfl ⟨rfl, rfl⟩, lock, nofun,
      fun _ => sees.data rfl, nofun, sees.whole⟩

theorem check_advances {condition : Bool} {text : String} (sees : Sees max base pid q stored place)
    (next : blockqNext q pid place = checkThat q condition text target) (passes : condition = true)
    (inside : owns place = true ∧ owns target = true) (holds : holdsLock place = true ∧ holdsLock target = true)
    (data : Data q stored target)
    (same : toWrite target = toWrite place ∧ toRaise target = toRaise place ∧ toRead target = toRead place ∧
      toFree target = toFree place)
    (quiet : writtenBy q place = [] ∧ poppedBy q place = []) (done : pushes target = none) :
    Advances max base pid q stored place := by
  unfold Advances
  rw [next, checkThat, if_pos passes]
  refine Ensures.ok ⟨stored, sees.made, step_same rfl rfl same.1 same.2.1 same.2.2.1 same.2.2.2 quiet, ?_,
    fun _ => sees.owner inside.1, fun _ => ?_, ?_, sees.whole.1, ?_⟩
  · simp [holds]
  · simpa [holds] using data
  · simp [holds]
  · simp [done]

theorem not_full (sees : Sees max base pid q stored (.pushWrite elem wlen))
    (more : wlen < q.baseSize) (holds : (ring q.rbuff).Holds (stored.flatten ++ elem.take wlen)) :
    (stored.flatten ++ elem.take wlen).length + 1 < q.rbuff.size ∧ ringbuffFull q.rbuff = false := by
  obtain ⟨w, r, d, f, sent, taken, balanced⟩ := sees.balanced
  have room : stored.length < max := balanced.room (Nat.succ_pos _)
  have length : (stored.flatten ++ elem.take wlen).length ≤ stored.length * base + wlen := by
    rw [List.length_append, flatten_length sees.whole.1]
    exact Nat.add_le_add_left (List.length_take_le _ _) _
  have below : (stored.length + 1) * base ≤ max * base := Nat.mul_le_mul_right base room
  have size := sees.made.rbuff
  have bytes := sees.made.baseSize
  have fits := sees.fits
  rw [Nat.succ_mul] at below
  have free : (stored.flatten ++ elem.take wlen).length + 1 < q.rbuff.size := by omega
  refine ⟨free, ?_⟩
  have iff := ringbuffFull_iff holds (by omega)
  rw [Bool.eq_false_iff]
  intro full
  have last := iff.1 full
  omega

theorem pushWrite_advances (sees : Sees max base pid q stored (.pushWrite elem wlen)) :
    Advances max base pid q stored (.pushWrite elem wlen) := by
  obtain ⟨done, holds, size⟩ := sees.data rfl
  have length : elem.length = base := sees.whole.2 elem rfl
  have bytes := sees.made.baseSize
  rcases Nat.lt_or_ge wlen q.baseSize with more | all
  · obtain ⟨room, free⟩ := not_full sees more holds
    have goes : writeEnds q wlen = false := by
      simp [writeEnds, more, free]
    have put : ring (ringbuffPut q.rbuff (elem.getD wlen 0)) = (ring q.rbuff).put (elem.getD wlen 0) := by
      have fits := sees.fits
      have made := sees.made.rbuff
      exact ring_put holds.head_lt (by omega)
    have next : elem.take (wlen + 1) = elem.take wlen ++ [elem.getD wlen 0] := by
      have inside : wlen < elem.length := by omega
      rw [List.take_add_one, List.getD_eq_getElem?_getD, List.getElem?_eq_getElem inside]
      rfl
    simp only [Advances, blockqNext, goes, Bool.false_eq_true, if_false]
    refine Ensures.ok ⟨stored, ⟨sees.made.maxSize, bytes, sees.made.rbuff⟩,
      step_same rfl rfl rfl rfl rfl rfl ⟨by simp [writtenBy, goes], rfl⟩, rfl, fun _ => sees.owner rfl,
      fun _ => ⟨more, ?_, size⟩, nofun, sees.whole⟩
    change (ring (ringbuffPut q.rbuff (elem.getD wlen 0))).Holds _
    rw [put, next, ← List.append_assoc]
    exact holds.put room _
  · have ends : writeEnds q wlen = true := by
      simp [writeEnds, all]
    have whole : elem.take wlen = elem := List.take_of_length_le (by omega)
    simp only [Advances, blockqNext, ends, if_true]
    refine Ensures.ok ⟨stored ++ [elem], sees.made, fun w r d f sent taken => ?_, rfl, fun _ => sees.owner rfl,
      fun _ => ⟨Nat.le_antisymm done all, ?_, ?_⟩, nofun, ?_, nofun⟩
    · have step := Bounded.Step.write (seen q w r d f sent taken stored (.pushWrite elem wlen)) w rfl elem
      simpa [seen, toWrite, toRaise, toRead, toFree, writtenBy, poppedBy, ends] using step
    · rw [List.flatten_append, List.flatten_singleton]
      rwa [whole] at holds
    · rw [List.length_append, size]
      rfl
    · intro e listed
      rcases List.mem_append.1 listed with old | new
      · exact sees.whole.1 e old
      · rw [List.mem_singleton.1 new, length]

theorem popRead_advances {buff : List Byte} (sees : Sees max base pid q stored (.popRead buff)) :
    Advances max base pid q stored (.popRead buff) := by
  obtain ⟨elem, rest, rfl, sofar, holds, size⟩ := sees.data rfl
  have length : elem.length = base := sees.whole.1 elem (by simp)
  have bytes := sees.made.baseSize
  have done : buff.length ≤ elem.length := by
    rw [sofar]
    exact List.length_take_le' _ _
  rcases Nat.lt_or_ge buff.length q.baseSize with more | all
  · have inside : buff.length < elem.length := by omega
    have split : elem.drop buff.length = elem[buff.length] :: elem.drop (buff.length + 1) :=
      List.drop_eq_getElem_cons inside
    rw [split, List.cons_append] at holds
    have goes : readEnds q buff.length = false := by
      have empty : ¬ringbuffEmpty q.rbuff = true := by
        rw [ringbuffEmpty_iff holds]
        exact List.cons_ne_nil _ _
      simp [readEnds, more, empty]
    have get : ring (ringbuffGet q.rbuff).2 = (ring q.rbuff).drop := by
      have fits := sees.fits
      have made := sees.made.rbuff
      exact ring_get holds.inside (by omega)
    have byte : (ringbuffGet q.rbuff).1 = elem[buff.length] := holds.first
    simp only [Advances, blockqNext, goes, Bool.false_eq_true, if_false]
    refine Ensures.ok ⟨elem :: rest, ⟨sees.made.maxSize, bytes, sees.made.rbuff⟩,
      step_same rfl rfl rfl rfl rfl rfl ⟨rfl, by simp [poppedBy, goes]⟩, rfl, fun _ => sees.owner rfl,
      fun _ => ⟨elem, rest, rfl, ?_, ?_, size⟩, nofun, sees.whole.1, nofun⟩
    · rw [List.length_append, List.length_singleton, List.take_add_one, List.getElem?_eq_getElem inside, byte,
        ← sofar]
      rfl
    · change (ring (ringbuffGet q.rbuff).2).Holds _
      rw [get, List.length_append, List.length_singleton]
      exact holds.drop
  · have ends : readEnds q buff.length = true := by
      simp [readEnds, all]
    have whole : buff = elem := by
      rw [sofar]
      exact List.take_of_length_le (by omega)
    subst whole
    simp only [Advances, blockqNext, ends, if_true]
    refine Ensures.ok ⟨rest, sees.made, fun w r d f sent taken => ?_, rfl, fun _ => sees.owner rfl,
      fun _ => ⟨length.trans bytes.symm, ?_, size⟩, nofun, fun e listed => sees.whole.1 e (by simp [listed]), nofun⟩
    · have step := Bounded.Step.read (seen q w r d f sent taken (buff :: rest) (.popRead buff)) d rfl buff rest rfl
      simpa [seen, toWrite, toRaise, toRead, toFree, writtenBy, poppedBy, ends] using step
    · simpa using holds

theorem stored_small (sees : Sees max base pid q stored place) : stored.length ≤ max := by
  obtain ⟨w, r, d, f, sent, taken, balanced⟩ := sees.balanced
  exact balanced.length_le

theorem pushSize_advances (sees : Sees max base pid q stored .pushSize) : Advances max base pid q stored .pushSize := by
  obtain ⟨holds, size⟩ := sees.data rfl
  have few := stored_small sees
  have small := sees.small
  refine Ensures.ok ⟨stored, ⟨sees.made.maxSize, sees.made.baseSize, sees.made.rbuff⟩,
    step_same rfl rfl rfl rfl rfl rfl ⟨rfl, rfl⟩, rfl, fun _ => sees.owner rfl, fun _ => ⟨holds, ?_⟩, nofun,
    sees.whole⟩
  exact (sizeWrap_eq (by omega)).trans size

theorem popSize_advances (sees : Sees max base pid q stored .popSize) : Advances max base pid q stored .popSize := by
  obtain ⟨holds, size⟩ := sees.data rfl
  have few := stored_small sees
  have small := sees.small
  have counted : sizeWrap (q.size + 2 ^ 16 - 1) = stored.length := by
    unfold sizeWrap
    omega
  simp only [Advances, blockqNext, counted]
  exact Ensures.ok ⟨stored, ⟨sees.made.maxSize, sees.made.baseSize, sees.made.rbuff⟩,
    step_same rfl rfl rfl rfl rfl rfl ⟨rfl, rfl⟩, rfl, fun _ => sees.owner rfl, fun _ => ⟨holds, rfl⟩, nofun,
    sees.whole⟩

theorem pushUp_advances (sees : Sees max base pid q stored .pushUp) : Advances max base pid q stored .pushUp := by
  obtain ⟨w, r, d, f, sent, taken, balanced⟩ := sees.balanced
  have small := sees.small
  have avail : 0 ≤ q.notEmpty := balanced.avail
  have raised := balanced.step (.raise _ r rfl)
  have above : q.notEmpty + 1 ≤ max := raised.avail_le
  have exact : intWrap (q.notEmpty + 1) = q.notEmpty + 1 := intWrap_eq (by omega) (by omega)
  refine Ensures.ok ⟨stored, ⟨sees.made.maxSize, sees.made.baseSize, sees.made.rbuff⟩,
    fun w r d f sent taken => ?_, rfl, fun _ => sees.owner rfl, fun _ => sees.data rfl, nofun, sees.whole⟩
  have step := Bounded.Step.raise (seen q w r d f sent taken stored .pushUp) r rfl
  simpa [seen, toWrite, toRaise, toRead, toFree, writtenBy, poppedBy, exact] using step

theorem popUp_advances (sees : Sees max base pid q stored .popUp) : Advances max base pid q stored .popUp := by
  obtain ⟨w, r, d, f, sent, taken, balanced⟩ := sees.balanced
  have small := sees.small
  have free : 0 ≤ q.notFull := balanced.free
  have released := balanced.step (.release _ f rfl)
  have above : q.notFull + 1 ≤ max := released.free_le
  have exact : intWrap (q.notFull + 1) = q.notFull + 1 := intWrap_eq (by omega) (by omega)
  refine Ensures.ok ⟨stored, ⟨sees.made.maxSize, sees.made.baseSize, sees.made.rbuff⟩,
    fun w r d f sent taken => ?_, rfl, fun _ => sees.owner rfl, fun _ => sees.data rfl, nofun, sees.whole⟩
  have step := Bounded.Step.release (seen q w r d f sent taken stored .popUp) f rfl
  simpa [seen, toWrite, toRaise, toRead, toFree, writtenBy, poppedBy, exact] using step

theorem blockqNext_advances (sees : Sees max base pid q stored place) : Advances max base pid q stored place := by
  cases place with
  | returned => exact Ensures.error rfl
  | pushDown elem => exact pushDown_advances sees
  | pushLock elem => exact lock_advances sees rfl (.inl ⟨elem, rfl, rfl⟩)
  | pushOwner elem => exact pushOwner_advances sees
  | pushWrite elem wlen => exact pushWrite_advances sees
  | pushCheck | popCheck =>
    obtain ⟨all, data⟩ := sees.data rfl
    exact check_advances sees rfl (decide_eq_true all) ⟨rfl, rfl⟩ ⟨rfl, rfl⟩ data ⟨rfl, rfl, rfl, rfl⟩ ⟨rfl, rfl⟩ rfl
  | pushSize => exact pushSize_advances sees
  | pushCheckSize =>
    obtain ⟨holds, size⟩ := sees.data rfl
    have few : q.size ≤ q.maxSize := by
      rw [size, sees.made.maxSize]
      exact stored_small sees
    exact check_advances sees rfl (decide_eq_true few) ⟨rfl, rfl⟩ ⟨rfl, rfl⟩ ⟨holds, size⟩ ⟨rfl, rfl, rfl, rfl⟩
      ⟨rfl, rfl⟩ rfl
  | pushUp => exact pushUp_advances sees
  | pushUnlock => exact unlock_advances sees (.inl rfl)
  | popDown => exact popDown_advances sees
  | popLock => exact lock_advances sees rfl (.inr ⟨rfl, rfl⟩)
  | popOwner => exact popOwner_advances sees
  | popCheckSize =>
    obtain ⟨holds, size⟩ := sees.data rfl
    obtain ⟨w, r, d, f, sent, taken, balanced⟩ := sees.balanced
    have some : stored ≠ [] := balanced.nonempty (Nat.succ_pos _)
    obtain ⟨elem, rest, rfl⟩ := List.exists_cons_of_ne_nil some
    have positive : 0 < q.size := by
      rw [size]
      exact Nat.succ_pos _
    exact check_advances sees rfl (decide_eq_true positive) ⟨rfl, rfl⟩ ⟨rfl, rfl⟩
      ⟨elem, rest, rfl, rfl, by simpa using holds, size⟩ ⟨rfl, rfl, rfl, rfl⟩ ⟨rfl, rfl⟩ rfl
  | popRead buff => exact popRead_advances sees
  | popSize => exact popSize_advances sees
  | popUp => exact popUp_advances sees
  | popUnlock => exact unlock_advances sees (.inr rfl)

theorem Data.congr (data : Data q stored place) (rbuff : q'.rbuff = q.rbuff) (size : q'.size = q.size)
    (bytes : q'.baseSize = q.baseSize) : Data q' stored place := by
  cases place <;> simpa only [Data, rbuff, size, bytes] using data

theorem Data.size_le (data : Data q stored place) : q.size ≤ stored.length + if toFree place then 1 else 0 := by
  cases place with
  | popRead buff =>
    obtain ⟨elem, rest, -, -, -, size⟩ := data
    exact size.le
  | pushWrite elem wlen | popCheck rb => exact data.2.2.le
  | pushCheck wb => exact (Nat.le_succ _).trans data.2.2.le
  | pushSize => exact (Nat.le_succ _).trans data.2.le
  | popUp => exact data.2.le.trans (Nat.le_succ _)
  | _ => exact data.2.le

theorem blockqNext_pushes (next : blockqNext q pid place = .ok (q', place')) :
    (pushes place').toList ++ writtenBy q place = (pushes place).toList := by
  have checked {condition : Bool} {text : String} {target : BlockqPlace}
      (done : checkThat q condition text target = .ok (q', place')) : place' = target := by
    unfold checkThat at done
    split at done
    · cases done; rfl
    · cases done
  cases place with
  | pushDown elem | popDown =>
    obtain ⟨count, -, same⟩ := map_eq_ok.1 next
    cases same; rfl
  | pushLock elem | popLock =>
    simp only [blockqNext, lockQueue] at next
    split at next
    · cases next
    · cases next; rfl
  | pushWrite elem wlen =>
    simp only [blockqNext] at next
    split at next
    · rename_i ends
      cases next
      simp [pushes, writtenBy, ends]
    · rename_i goes
      cases next
      simp [pushes, writtenBy, goes]
  | pushCheck wb | pushCheckSize | popCheckSize | popCheck rb => rw [checked next]; rfl
  | popRead buff =>
    simp only [blockqNext] at next
    split at next
    · cases next; rfl
    · cases next; rfl
  | returned => cases next
  | _ => cases next; rfl

end

section

variable {ι : Type} [DecidableEq ι] [Fintype ι] {max base : Nat} {pid : ι → Word} {stored : List (List Byte)}
  {s s' : BlockqState ι} {i : ι} {pushed : List (List Byte)}

def standing (s : BlockqState ι) (kind : BlockqPlace → Bool) : Nat :=
  population Finset.univ s.place fun place => kind place = true

def pending (s : BlockqState ι) (elem : List Byte) : Nat :=
  population Finset.univ s.place fun place => pushes place = some elem

def notePush (pushed : List (List Byte)) (_ : BlockqState ι) : BlockqAction ι → BlockqState ι → List (List Byte)
  | .push _ elem, _ => pushed ++ [elem]
  | _, _ => pushed

def pushStep (pid : ι → Word) :
    BlockqState ι × List (List Byte) → BlockqAction ι → Option (BlockqState ι × List (List Byte)) :=
  watch (blockqStep pid) notePush

structure BlockqSafe (w : BlockqState ι × List (List Byte)) : Prop where
  running : w.1.halted = none
  size : w.1.q.size ≤ w.1.q.maxSize
  pushed : ∀ elem, w.2.count elem = w.1.written.count elem + pending w.1 elem
  popped : w.1.popped <+: w.1.written
  stored : w.1.q.queueLock.locked = false →
    (ring w.1.q.rbuff).Holds (w.1.written.drop w.1.popped.length).flatten ∧
      w.1.q.size + w.1.popped.length = w.1.written.length

def counted (s : BlockqState ι) (stored : List (List Byte)) : Bounded (List Byte) where
  queue := stored
  free := s.q.notFull
  avail := s.q.notEmpty
  toWrite := standing s toWrite
  toRaise := standing s toRaise
  toRead := standing s toRead
  toFree := standing s toFree
  sent := s.written
  taken := s.popped

structure BlockInv (max base : Nat) (pid : ι → Word) (stored : List (List Byte)) (s : BlockqState ι) : Prop where
  running : s.halted = none
  made : Made max base s.q
  balanced : (counted s stored).Balanced max
  locked : standing s holdsLock = lockUnit s.q
  owner : ∀ i, owns (s.place i) = true → s.q.queueLock.owner = pid i
  data : ∀ i, holdsLock (s.place i) = true → Data s.q stored (s.place i)
  free : s.q.queueLock.locked = false → Data s.q stored .returned
  whole : Whole base stored
  pushing : ∀ i, ∀ elem ∈ pushes (s.place i), elem.length = base

def others (s : BlockqState ι) (i : ι) (kind : BlockqPlace → Bool) : Nat :=
  population (Finset.univ.erase i) s.place fun place => kind place = true

theorem counted_eq_seen (s : BlockqState ι) (i : ι) (stored : List (List Byte)) :
    counted s stored = seen s.q (others s i toWrite) (others s i toRaise) (others s i toRead) (others s i toFree)
      s.written s.popped stored (s.place i) := by
  have split (kind : BlockqPlace → Bool) :
      standing s kind = others s i kind + if kind (s.place i) then 1 else 0 := population_split (Finset.mem_univ i)
  simp only [counted, seen, split]

omit [DecidableEq ι] in
theorem BlockInv.locked_of_holds (inv : BlockInv max base pid stored s) (holds : holdsLock (s.place i) = true) :
    s.q.queueLock.locked = true := by
  have one : 0 < standing s holdsLock := population_pos (Finset.mem_univ i) holds
  rw [inv.locked, lockUnit] at one
  by_contra free
  simp [free] at one

theorem BlockInv.exclusive (inv : BlockInv max base pid stored s) {j : ι} (holds : holdsLock (s.place i) = true)
    (other : holdsLock (s.place j) = true) : j = i := by
  by_contra different
  have split : standing s holdsLock = others s i holdsLock + if holdsLock (s.place i) then 1 else 0 :=
    population_split (Finset.mem_univ i)
  have two : 0 < others s i holdsLock :=
    population_pos (Finset.mem_erase.2 ⟨different, Finset.mem_univ j⟩) other
  rw [if_pos holds, inv.locked, lockUnit, if_pos (inv.locked_of_holds holds)] at split
  omega

theorem BlockInv.sees (inv : BlockInv max base pid stored s) (small : max < 2 ^ 15) (fits : max * base < 65535)
    (i : ι) : Sees max base (pid i) s.q stored (s.place i) where
  small := small
  fits := fits
  made := inv.made
  balanced := ⟨_, _, _, _, _, _, counted_eq_seen s i stored ▸ inv.balanced⟩
  locked := inv.locked_of_holds
  owner := inv.owner i
  data := inv.data i
  free := inv.free
  whole := ⟨inv.whole, inv.pushing i⟩

variable {place : BlockqPlace}

theorem owns_holds (owner : owns place = true) : holdsLock place = true := by
  cases place <;> first | exact owner | rfl

theorem BlockInv.next (inv : BlockInv max base pid stored s) {q : Blockq}
    {stored' : List (List Byte)} (advance : Advance max base (pid i) s.q stored (s.place i) q stored' place) :
    BlockInv max base pid stored' { s.move i place with
      q := q
      written := s.written ++ writtenBy s.q (s.place i)
      popped := s.popped ++ poppedBy s.q (s.place i) } := by
  have bytes : q.baseSize = s.q.baseSize := advance.made.baseSize.trans inv.made.baseSize.symm
  have moved (kind : BlockqPlace → Bool) :
      population Finset.univ (update s.place i place) (kind · = true) +
        (if kind (s.place i) then 1 else 0) = standing s kind + if kind place then 1 else 0 :=
    population_update (Finset.mem_univ i) place
  refine ⟨inv.running, advance.made, ?_, ?_, fun j owner => ?_, fun j holds => ?_, fun unlocked => ?_,
    advance.whole.1, fun j elem => ?_⟩
  · have before := counted_eq_seen s i stored ▸ inv.balanced
    have after := before.step (advance.step _ _ _ _ _ _)
    rw [counted_eq_seen _ i]
    simpa only [others, BlockqState.move, population_others, update_self] using after
  · have held := moved holdsLock
    have lock := advance.lock
    have locked := inv.locked
    change population Finset.univ (update s.place i place) (holdsLock · = true) = lockUnit q
    omega
  · by_cases self : j = i
    · subst self
      refine advance.owner ?_
      simpa [BlockqState.move] using owner
    · rw [show (s.move i place).place j = s.place j from update_of_ne self _ _] at owner
      cases holds : holdsLock (s.place i) with
      | true => exact absurd (inv.exclusive holds (owns_holds owner)) self
      | false => exact (advance.alone holds).2.2.1.trans (inv.owner j owner)
  · by_cases self : j = i
    · subst self
      have target : holdsLock place = true := by simpa [BlockqState.move] using holds
      have data := advance.data (Or.inr target)
      rw [if_pos target] at data
      simpa [BlockqState.move] using data
    · rw [show (s.move i place).place j = s.place j from update_of_ne self _ _] at holds ⊢
      cases mine : holdsLock (s.place i) with
      | true => exact absurd (inv.exclusive mine holds) self
      | false =>
        obtain ⟨rbuff, size, -, rfl⟩ := advance.alone mine
        exact (inv.data j holds).congr rbuff size bytes
  · have lock := advance.lock
    rw [lockUnit_unlocked unlocked, Nat.zero_add] at lock
    cases mine : holdsLock (s.place i) with
    | true =>
      rw [mine, if_pos rfl, lockUnit, if_pos (inv.locked_of_holds mine)] at lock
      have left : holdsLock place = false := by
        by_contra holds
        simp [holds] at lock
      have data := advance.data (Or.inl mine)
      rwa [left] at data
    | false =>
      have before : lockUnit s.q = 0 := by
        rw [mine] at lock
        exact Nat.eq_zero_of_add_eq_zero_right lock.symm
      obtain ⟨rbuff, size, -, rfl⟩ := advance.alone mine
      exact (inv.free (lockUnit_eq_zero before)).congr rbuff size bytes
  · by_cases self : j = i
    · subst self
      simpa [BlockqState.move] using advance.whole.2 elem
    · rw [show (s.move i place).place j = s.place j from update_of_ne self _ _]
      exact inv.pushing j elem

theorem BlockInv.call (inv : BlockInv max base pid stored s)
    (outside : s.place i = .returned) (which : (∃ elem, place = .pushDown elem ∧ elem.length = base) ∨
      place = .popDown) : BlockInv max base pid stored (s.move i place) := by
  have advance : Advance max base (pid i) s.q stored (s.place i) s.q stored place := by
    rw [outside]
    rcases which with ⟨elem, rfl, length⟩ | rfl
    · refine ⟨inv.made, step_same rfl rfl rfl rfl rfl rfl ⟨rfl, rfl⟩, rfl, nofun, nofun,
        fun _ => ⟨rfl, rfl, rfl, rfl⟩, inv.whole, ?_⟩
      rintro e ⟨⟩
      exact length
    · exact ⟨inv.made, step_same rfl rfl rfl rfl rfl rfl ⟨rfl, rfl⟩, rfl, nofun, nofun,
        fun _ => ⟨rfl, rfl, rfl, rfl⟩, inv.whole, nofun⟩
  have next := inv.next advance
  rw [outside] at next
  simpa [writtenBy, poppedBy, BlockqState.move] using next

theorem BlockInv.size_le (inv : BlockInv max base pid stored s) : s.q.size ≤ max := by
  have few := inv.balanced.length_le
  cases locked : s.q.queueLock.locked with
  | false =>
    obtain ⟨-, size⟩ := inv.free locked
    exact size.trans_le few
  | true =>
    have one : 0 < standing s holdsLock := by
      rw [inv.locked, lockUnit, if_pos locked]
      exact Nat.one_pos
    obtain ⟨i, member⟩ := Finset.card_pos.1 one
    have holds : holdsLock (s.place i) = true := (Finset.mem_filter.1 member).2
    have balanced := counted_eq_seen s i stored ▸ inv.balanced
    have places : stored.length + (others s i toFree + if toFree (s.place i) then 1 else 0) ≤ max :=
      balanced.length_toFree_le
    have size := (inv.data i holds).size_le
    omega

def PushInv (max base : Nat) (pid : ι → Word) (w : BlockqState ι × List (List Byte)) : Prop :=
  (∃ stored, BlockInv max base pid stored w.1) ∧
    ∀ elem, w.2.count elem = w.1.written.count elem + pending w.1 elem

theorem BlockInv.safe (inv : BlockInv max base pid stored s)
    (all : ∀ elem, pushed.count elem = s.written.count elem + pending s elem) : BlockqSafe (s, pushed) := by
  have ordered : s.written = s.popped ++ stored := inv.balanced.ordered
  refine ⟨inv.running, inv.size_le.trans_eq inv.made.maxSize.symm, all, ⟨stored, ordered.symm⟩, fun unlocked => ?_⟩
  obtain ⟨holds, size⟩ := inv.free unlocked
  refine ⟨?_, ?_⟩
  · rwa [ordered, List.drop_left]
  · rw [ordered, List.length_append, size, Nat.add_comm]

theorem pending_move (s : BlockqState ι) (i : ι) (place : BlockqPlace) (elem : List Byte) :
    pending (s.move i place) elem + (if pushes (s.place i) = some elem then 1 else 0) =
      pending s elem + if pushes place = some elem then 1 else 0 :=
  population_update (Finset.mem_univ i) place

theorem count_pushes (place : BlockqPlace) (elem : List Byte) :
    (pushes place).toList.count elem = if pushes place = some elem then 1 else 0 := by
  cases pushes place with
  | none => rfl
  | some e => simp [List.count_singleton]

theorem pushInv_step (small : max < 2 ^ 15) (fits : max * base < 65535) (w : BlockqState ι × List (List Byte))
    (a : BlockqAction ι) (w' : BlockqState ι × List (List Byte)) (inv : PushInv max base pid w)
    (taken : pushStep pid w a = some w') : PushInv max base pid w' := by
  obtain ⟨s, pushed⟩ := w
  obtain ⟨s', pushed'⟩ := w'
  obtain ⟨step, noted⟩ := watch_eq_some taken
  obtain ⟨⟨stored, inv⟩, all⟩ := inv
  simp only at step noted inv all
  subst noted
  simp only [blockqStep, inv.running, Option.isSome_none, Bool.false_eq_true, if_false] at step
  cases a with
  | push i elem =>
    simp only at step
    split at step
    · rename_i ready
      obtain rfl := Option.some.inj step
      have length : elem.length = base := ready.2.trans inv.made.baseSize
      refine ⟨⟨stored, inv.call ready.1 (.inl ⟨elem, rfl, length⟩)⟩, fun e => ?_⟩
      have moved := pending_move s i (.pushDown elem) e
      have before := all e
      rw [ready.1] at moved
      simp only [notePush, List.count_append, List.count_singleton, BlockqState.move, pushes, Option.some.injEq,
        beq_iff_eq] at moved before ⊢
      simp only [reduceCtorEq, if_false] at moved
      omega
    · cases step
  | pop i =>
    simp only at step
    split at step
    · rename_i outside
      obtain rfl := Option.some.inj step
      refine ⟨⟨stored, inv.call outside (.inr rfl)⟩, fun e => ?_⟩
      have moved := pending_move s i .popDown e
      rw [outside] at moved
      exact (all e).trans (congrArg _ moved.symm)
    · cases step
  | next i =>
    have advances := blockqNext_advances (inv.sees small fits i)
    unfold Advances at advances
    simp only at step
    cases next : blockqNext s.q (pid i) (s.place i) with
    | error stop =>
      rw [next] at step
      obtain rfl := advances.failed next
      cases step
    | ok out =>
      obtain ⟨q, place⟩ := out
      rw [next] at step
      obtain rfl := Option.some.inj step
      obtain ⟨stored', advance⟩ := advances.returned next
      refine ⟨⟨stored', inv.next advance⟩, fun e => ?_⟩
      have moved := pending_move s i place e
      have once := congrArg (List.count e) (blockqNext_pushes next)
      have before := all e
      rw [List.count_append, count_pushes, count_pushes] at once
      simp only [notePush, List.count_append]
      change _ = _ + _ + pending (s.move i place) e
      omega

omit [DecidableEq ι] in
theorem pushInv_start {maxSize baseSize : Word} (fits : maxSize.toNat * baseSize.toNat < 65535)
    (small : maxSize.toNat < 2 ^ 15) (buff : Nat → Byte) (pid : ι → Word) :
    PushInv maxSize.toNat baseSize.toNat pid (blockqStart ι (blockqInit maxSize baseSize buff), []) := by
  have outside (kind : BlockqPlace → Bool) (never : kind .returned = false) :
      standing (blockqStart ι (blockqInit maxSize baseSize buff)) kind = 0 := by
    simp [standing, population, blockqStart, never]
  have size : sizeWrap (sizeWrap (maxSize.toNat * baseSize.toNat) + 1) = maxSize.toNat * baseSize.toNat + 1 := by
    rw [sizeWrap_eq (show maxSize.toNat * baseSize.toNat < 2 ^ 16 by omega), sizeWrap_eq (by omega)]
  have made : Made maxSize.toNat baseSize.toNat (blockqInit maxSize baseSize buff) := ⟨rfl, rfl, size⟩
  have data : Data (blockqInit maxSize baseSize buff) [] .returned := by
    have positive : 0 < sizeWrap (sizeWrap (maxSize.toNat * baseSize.toNat) + 1) := by
      rw [size]
      exact Nat.succ_pos _
    exact ⟨RingBuffer.holds_nil positive, rfl⟩
  refine ⟨⟨[], rfl, made, ?_, outside _ rfl, ?_, ?_, fun _ => data, ?_, ?_⟩, fun elem => ?_⟩
  · have empty : counted (blockqStart ι (blockqInit maxSize baseSize buff)) [] =
        ⟨[], maxSize.toNat, 0, 0, 0, 0, 0, [], []⟩ := by
      have free : maxSize.toInt = maxSize.toNat := BitVec.toInt_eq_toNat_of_lt (by omega)
      simp only [counted, outside toWrite rfl, outside toRaise rfl, outside toRead rfl, outside toFree rfl]
      simp only [blockqStart, blockqInit, free]
    exact empty ▸ Bounded.balanced_empty _
  · intro i held
    cases held
  · intro i held
    cases held
  · intro elem listed
    cases listed
  · intro i elem listed
    cases listed
  · simp [pending, population, blockqStart, pushes]

theorem push_fails {maxSize : Word} (large : 2 ^ 15 ≤ maxSize.toNat) :
    ∃ text, semaphoreDown maxSize.toInt = .error (.assertion text) := by
  have negative : maxSize.toInt < 0 := by
    rw [BitVec.toInt_eq_toNat_cond, if_neg (by omega)]
    omega
  exact ⟨_, if_pos negative⟩

theorem blockq_safe_iff [Nonempty ι] (maxSize baseSize : Word) (buff : Nat → Byte) (pid : ι → Word)
    (fits : maxSize.toNat * baseSize.toNat < 65535) :
    (∀ schedule, Throughout (pushStep pid) BlockqSafe (blockqStart ι (blockqInit maxSize baseSize buff), [])
      schedule) ↔ maxSize.toNat < 2 ^ 15 := by
  constructor
  · intro safe
    by_contra large
    obtain ⟨text, fails⟩ := push_fails (Nat.le_of_not_lt large)
    obtain ⟨i⟩ := ‹Nonempty ι›
    let elem := List.replicate baseSize.toNat (0 : Byte)
    have reached := throughout_iff.1 (safe [.push i elem, .next i]) _ List.prefix_rfl
    have halts : run (pushStep pid) (blockqStart ι (blockqInit maxSize baseSize buff), []) [.push i elem, .next i] =
        some ({ (blockqStart ι (blockqInit maxSize baseSize buff)).move i (.pushDown elem) with
          halted := some (.assertion text) }, [elem]) := by
      have called : pushStep pid (blockqStart ι (blockqInit maxSize baseSize buff), []) (.push i elem) =
          some ((blockqStart ι (blockqInit maxSize baseSize buff)).move i (.pushDown elem), [elem]) := by
        simp [pushStep, watch, blockqStep, blockqStart, blockqInit, elem, notePush]
      rw [run_cons, called, Option.bind_some, run_cons]
      simp [pushStep, watch, blockqStep, blockqStart, blockqInit, notePush, BlockqState.move, blockqNext, fails,
        Except.map]
    exact absurd (reached _ halts).running (Option.some_ne_none _)
  · intro small schedule
    have start := pushInv_start fits small buff pid
    refine throughout_mono ?_ (throughout_invariant (pushInv_step small fits) start)
    rintro ⟨s, pushed⟩ ⟨⟨stored, inv⟩, all⟩
    exact inv.safe all

end

def twoBytes : Blockq := blockqInit 1 2 fun _ => 0

theorem blockq_safe_iff_pair :
    (1 : Word).toNat * (2 : Word).toNat < 65535 ∧ (1 : Word).toNat < 2 ^ 15 ∧
      Throughout (pushStep fun i : Fin 2 => if i = 0 then 1 else 2) BlockqSafe (blockqStart (Fin 2) twoBytes, [])
        [.push 0 [7, 8], .pop 1, .next 0, .next 0, .next 0, .next 0, .next 0, .next 0, .next 0, .next 0, .next 0,
          .next 0, .next 1, .next 0, .push 0 [5, 6], .next 1, .next 1, .next 1, .next 1, .next 1, .next 1, .next 1,
          .next 1, .next 1, .next 0, .next 1, .next 0] ∧
      (run (pushStep fun i : Fin 2 => if i = 0 then 1 else 2) (blockqStart (Fin 2) twoBytes, [])
        [.push 0 [7, 8], .pop 1, .next 0, .next 0, .next 0, .next 0, .next 0, .next 0, .next 0, .next 0, .next 0,
          .next 0, .next 1, .next 0, .push 0 [5, 6], .next 1, .next 1, .next 1, .next 1, .next 1, .next 1, .next 1,
          .next 1, .next 1, .next 0, .next 1, .next 0]).map
          (fun w => (w.1.written, w.1.popped, [w.1.place 0, w.1.place 1])) =
        some ([[7, 8]], [[7, 8]], [.pushOwner [5, 6], .returned]) := by
  have small : (1 : Word).toNat < 2 ^ 15 := by decide
  exact ⟨by decide, small,
    (blockq_safe_iff 1 2 (fun _ => 0) (fun i : Fin 2 => if i = 0 then 1 else 2) (by decide)).2 small _,
    by decide +kernel⟩

theorem blockq_count_negative :
    (32768 : Word).toNat * (0 : Word).toNat < 65535 ∧
      (run (pushStep fun _ : Unit => 1) (blockqStart Unit (blockqInit 32768 0 fun _ => 0), [])
        [.push () [], .next ()]).map (·.1.halted) = some (some (.assertion "count >= 0")) ∧
      ¬∀ schedule, Throughout (pushStep fun _ : Unit => 1) BlockqSafe
        (blockqStart Unit (blockqInit 32768 0 fun _ => 0), []) schedule := by
  have halts : (run (pushStep fun _ : Unit => 1) (blockqStart Unit (blockqInit 32768 0 fun _ => 0), [])
      [.push () [], .next ()]).map (·.1.halted) = some (some (.assertion "count >= 0")) := by
    decide +kernel
  refine ⟨by decide, halts, fun safe => ?_⟩
  obtain ⟨w, reached, stopped⟩ := Option.map_eq_some_iff.1 halts
  have running := (throughout_iff.1 (safe _) _ List.prefix_rfl w reached).running
  rw [stopped] at running
  cases running

end PiOS.Proof.BlockingQueue
