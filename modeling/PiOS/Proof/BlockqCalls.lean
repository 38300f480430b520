import PiOS.Kernel.Libk.BlockqCalls
import PiOS.Proof.Ringbuff
import PiOS.Transition.Outcome
import PiOS.Transition.Run

namespace PiOS.Proof.BlockqCalls
open Kernel Transition

structure SlotsKept (q : Blockq) : Prop where
  free : q.size + q.notFull = q.maxSize
  used : q.notEmpty = q.size
  bytes : q.rbuff.length = q.size * q.baseSize
  room : 0 < q.notFull → ∀ buff, buff.length = q.baseSize → (ringbuffWrite q.rbuff buff).1 = q.baseSize

def Blocking : BlockqCall → Prop
  | .pushNonblock _ => False
  | _ => True

structure Kept (max base : Nat) (q : Blockq) : Prop where
  maxSize : q.maxSize = max
  baseSize : q.baseSize = base
  unlocked : q.queueLock.locked = false
  free : q.size + q.notFull = max
  used : q.notEmpty = q.size
  most : q.size ≤ max
  stored : ∃ l, RingKeeps (max * base) q.rbuff l ∧ l.length = q.size * base

variable {max base : Nat} {q q' : Blockq} {pid : Word} {buff : List Byte}

theorem assertThat_ok {condition : Bool} {text : String} {u : Unit} (passed : assertThat condition text = .ok u) :
    condition = true := by
  unfold assertThat at passed
  split at passed
  · assumption
  · cases passed

theorem unlocked_after {sl sl' : Spinlock} (locked : spinlockLock sl pid = .ok sl') :
    (spinlockUnlock sl' pid).locked = false := by
  unfold spinlockLock at locked
  split at locked
  · cases locked
  · cases locked
    simp [spinlockUnlock]

theorem blockqPush_ok (pushed : blockqPush q pid buff = .ok q') :
    0 < q.notFull ∧ ∃ sl : Spinlock, sl.locked = false ∧ q' = { q with
      rbuff := (ringbuffWrite q.rbuff buff).2, notFull := q.notFull - 1, notEmpty := intWrap (q.notEmpty + 1)
      size := sizeWrap (q.size + 1), queueLock := sl } := by
  obtain ⟨count, down, pushed⟩ := bind_eq_ok.mp pushed
  obtain ⟨sl, lock, pushed⟩ := bind_eq_ok.mp pushed
  obtain ⟨-, -, pushed⟩ := bind_eq_ok.mp pushed
  obtain ⟨-, -, pushed⟩ := bind_eq_ok.mp pushed
  obtain ⟨positive, rfl⟩ := semaphoreDown_ok down
  cases pushed
  exact ⟨positive, _, unlocked_after lock, rfl⟩

theorem blockqPop_ok {bytes : List Byte} (popped : blockqPop q pid = .ok (bytes, q')) :
    0 < q.notEmpty ∧ ∃ sl : Spinlock, sl.locked = false ∧ q' = { q with
      rbuff := (ringbuffRead q.rbuff q.baseSize).2, notFull := intWrap (q.notFull + 1), notEmpty := q.notEmpty - 1
      size := sizeWrap (q.size + 2 ^ 16 - 1), queueLock := sl } := by
  obtain ⟨count, down, popped⟩ := bind_eq_ok.mp popped
  obtain ⟨sl, lock, popped⟩ := bind_eq_ok.mp popped
  obtain ⟨-, -, popped⟩ := bind_eq_ok.mp popped
  obtain ⟨-, -, popped⟩ := bind_eq_ok.mp popped
  obtain ⟨positive, rfl⟩ := semaphoreDown_ok down
  cases popped
  exact ⟨positive, _, unlocked_after lock, rfl⟩

theorem blockqPushNonblock_ok (pushed : blockqPushNonblock q buff = .ok q') :
    q.size < q.maxSize ∧ q' = { q with
      rbuff := (ringbuffWrite q.rbuff buff).2, size := sizeWrap (q.size + 1), notEmpty := intWrap (q.notEmpty + 1) } := by
  obtain ⟨_, below, pushed⟩ := bind_eq_ok.mp pushed
  cases pushed
  exact ⟨of_decide_eq_true (assertThat_ok below), rfl⟩

section Fits

variable (fits : max * base < 65535)
include fits

theorem Kept.write (kept : Kept max base q) (below : q.size < max) (whole : buff.length = base) :
    (ringbuffWrite q.rbuff buff).1 = base ∧
      ∃ l, RingKeeps (max * base) (ringbuffWrite q.rbuff buff).2 l ∧ l.length = (q.size + 1) * base := by
  obtain ⟨l, keeps, length⟩ := kept.stored
  obtain ⟨reply, after⟩ := ringbuffCall_answer fits keeps (.write buff)
  have next : (q.size + 1) * base ≤ max * base := Nat.mul_le_mul_right base below
  rw [Nat.succ_mul, ← length] at next ⊢
  have count : (ringbuffWrite q.rbuff buff).1 = min buff.length (max * base - l.length) := Queue.Fifo.Reply.wrote.inj reply
  refine ⟨by omega, _, after, ?_⟩
  simp only [Queue.Fifo.answer, List.length_append, List.length_take]
  omega

theorem Kept.read (kept : Kept max base q) :
    ∃ l, RingKeeps (max * base) (ringbuffRead q.rbuff base).2 l ∧ l.length = (q.size - 1) * base := by
  obtain ⟨l, keeps, length⟩ := kept.stored
  refine ⟨_, (ringbuffCall_answer fits keeps (.read base)).2, ?_⟩
  simp only [Queue.Fifo.answer, List.length_drop, length, Nat.sub_mul, Nat.one_mul]

theorem Kept.slots (kept : Kept max base q) : SlotsKept q := by
  obtain ⟨maxSize, baseSize, -, slots, used, -, l, keeps, length⟩ := id kept
  refine ⟨?_, used, ?_, fun free buff whole => ?_⟩
  · rw [maxSize]
    exact slots
  · rw [baseSize, ← length]
    exact ringbuff_length_eq keeps.holds (by rw [keeps.size]; omega)
  · rw [baseSize] at whole ⊢
    exact (kept.write fits (by omega) whole).1

variable (few : max < 2 ^ 15)
include few

theorem Kept.push (kept : Kept max base q) (pushed : blockqPush q pid buff = .ok q') (whole : buff.length = base) :
    Kept max base q' := by
  obtain ⟨free, sl, unlocked, rfl⟩ := blockqPush_ok pushed
  obtain ⟨maxSize, baseSize, -, slots, used, -, -⟩ := id kept
  have below : q.size < max := by omega
  have size : sizeWrap (q.size + 1) = q.size + 1 := sizeWrap_eq (by omega)
  have count : intWrap (q.notEmpty + 1) = q.notEmpty + 1 := intWrap_eq (by omega) (by omega)
  refine ⟨maxSize, baseSize, unlocked, ?_, ?_, ?_, ?_⟩ <;> simp only [size, count]
  · omega
  · omega
  · omega
  · exact (kept.write fits below whole).2

theorem Kept.pop {bytes : List Byte} (kept : Kept max base q) (popped : blockqPop q pid = .ok (bytes, q')) :
    Kept max base q' := by
  obtain ⟨some, sl, unlocked, rfl⟩ := blockqPop_ok popped
  obtain ⟨maxSize, baseSize, -, slots, used, most, -⟩ := id kept
  have size : sizeWrap (q.size + 2 ^ 16 - 1) = q.size - 1 := by
    unfold sizeWrap
    omega
  have count : intWrap (q.notFull + 1) = q.notFull + 1 := intWrap_eq (by omega) (by omega)
  refine ⟨maxSize, baseSize, unlocked, ?_, ?_, ?_, ?_⟩ <;> simp only [size, count]
  · omega
  · omega
  · omega
  · rw [baseSize]
    exact kept.read fits

theorem Kept.call {call : BlockqCall} (kept : Kept max base q) (blocking : Blocking call)
    (called : blockqCall q call = some q') : Kept max base q' := by
  cases call with
  | push pid buff =>
    obtain ⟨whole, pushed⟩ := Option.ite_none_right_eq_some.mp called
    exact kept.push fits few (toOption_eq_some.mp pushed) (whole.trans kept.baseSize)
  | pop pid =>
    obtain ⟨⟨bytes, left⟩, popped, rfl⟩ := Option.map_eq_some_iff.mp called
    exact kept.pop fits few (toOption_eq_some.mp popped)
  | pushNonblock buff => exact absurd blocking id

end Fits

-- the unit of `not_full` stays behind
theorem Kept.nonblock {call : BlockqCall} (few : max < 2 ^ 15) (kept : Kept max base q) (other : ¬Blocking call)
    (called : blockqCall q call = some q') : ¬SlotsKept q' := by
  cases call with
  | pushNonblock buff =>
    obtain ⟨-, pushed⟩ := Option.ite_none_right_eq_some.mp called
    obtain ⟨below, rfl⟩ := blockqPushNonblock_ok (toOption_eq_some.mp pushed)
    obtain ⟨maxSize, -, -, slots, -, -, -⟩ := kept
    intro after
    have total := after.free
    simp only [maxSize, sizeWrap_eq (show q.size + 1 < 2 ^ 16 by omega)] at total below
    omega
  | _ => exact absurd trivial other

theorem kept_init {maxSize baseSize : Word} (few : maxSize.toNat < 2 ^ 15)
    (fits : maxSize.toNat * baseSize.toNat < 65535) (memory : Nat → Byte) :
    Kept maxSize.toNat baseSize.toNat (blockqInit maxSize baseSize memory) := by
  have free : maxSize.toInt = maxSize.toNat := BitVec.toInt_eq_toNat_of_lt (by omega)
  refine ⟨rfl, rfl, rfl, ?_, rfl, Nat.zero_le _, [], ?_, ?_⟩
  · simp only [blockqInit, free]
    omega
  · simp only [blockqInit, sizeWrap_eq (show maxSize.toNat * baseSize.toNat < 2 ^ 16 by omega)]
    exact keeps_init fits memory
  · simp [blockqInit]

theorem slots_kept_iff (maxSize baseSize : Word) (few : maxSize.toNat < 2 ^ 15)
    (fits : maxSize.toNat * baseSize.toNat < 65535) (memory : Nat → Byte) (calls : List BlockqCall) :
    Throughout blockqCall SlotsKept (blockqInit maxSize baseSize memory) calls ↔
      Guarded blockqCall (fun _ call => Blocking call) (blockqInit maxSize baseSize memory) calls :=
  throughout_iff_guarded (fun _ kept => kept.slots fits)
    (fun _ _ _ kept blocking called => kept.call fits few blocking called)
    (fun _ _ _ kept other called => kept.nonblock few other called) (kept_init few fits memory)

theorem slots_kept_iff_pair :
    Throughout blockqCall SlotsKept (blockqInit 2 2 fun _ => 0) [.push 1 [7, 8], .push 2 [5, 6], .pop 1] ∧
      ((run blockqCall (blockqInit 2 2 fun _ => 0) [.push 1 [7, 8], .push 2 [5, 6], .pop 1]).map
        fun q => (q.size, q.notFull, q.notEmpty)) = some (1, 1, 1) := by
  refine ⟨(slots_kept_iff 2 2 (by decide) (by decide) (fun _ => 0) _).mpr ?_, by decide⟩
  exact fun _ _ => ⟨trivial, fun _ _ => ⟨trivial, fun _ _ => ⟨trivial, trivial⟩⟩⟩

theorem slots_lost :
    ((blockqCall (blockqInit 1 2 fun _ => 0) (.pushNonblock [7, 8])).map fun q =>
        (q.size, q.notFull, q.maxSize, (ringbuffWrite q.rbuff [5, 6]).1)) = some (1, 1, 1, 0) ∧
      ¬Throughout blockqCall SlotsKept (blockqInit 1 2 fun _ => 0) [.pushNonblock [7, 8]] := by
  refine ⟨by decide, fun kept => ?_⟩
  have called : (blockqCall (blockqInit 1 2 fun _ => 0) (.pushNonblock [7, 8])).isSome = true := by decide
  obtain ⟨q, called⟩ := Option.isSome_iff_exists.mp called
  exact (kept_init (by decide) (by decide) fun _ => 0).nonblock (by decide) id called (kept.2 q called)

end PiOS.Proof.BlockqCalls
