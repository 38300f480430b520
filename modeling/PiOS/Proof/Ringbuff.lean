import PiOS.Kernel.Libk.Ringbuff
import PiOS.Queue.Fifo
import PiOS.Queue.RingBuffer

namespace PiOS.Proof
open Kernel Queue

def ring (rb : Ringbuff) : RingBuffer Byte := ⟨rb.head, rb.tail, rb.size, rb.buff⟩

section

variable {rb : Ringbuff} {l : List Byte} {a : Byte}

theorem sizeWrap_eq {n : Nat} (small : n < 2 ^ 16) : sizeWrap n = n := Nat.mod_eq_of_lt small

theorem ring_put (inside : rb.head < rb.size) (small : rb.size < 2 ^ 16) :
    ring (ringbuffPut rb a) = (ring rb).put a := by
  simp only [ring, ringbuffPut, RingBuffer.put, RingBuffer.after, sizeWrap_eq (show rb.head + 1 < 2 ^ 16 by omega)]
  rfl

theorem ring_get (inside : rb.tail < rb.size) (small : rb.size < 2 ^ 16) :
    ring (ringbuffGet rb).2 = (ring rb).drop := by
  simp only [ring, ringbuffGet, RingBuffer.drop, RingBuffer.after, sizeWrap_eq (show rb.tail + 1 < 2 ^ 16 by omega)]
  rfl

theorem ringbuffFull_iff (holds : (ring rb).Holds l) (small : rb.size < 2 ^ 16) :
    ringbuffFull rb = true ↔ l.length + 1 = rb.size := by
  have head : rb.head < rb.size := holds.head_lt
  have tail : rb.tail < rb.size := holds.inside
  have full : rb.head + 1 = rb.tail ∨ rb.tail = 0 ∧ rb.head + 1 = rb.size ↔ l.length + 1 = rb.size := holds.full_iff
  rw [← full]
  simp only [ringbuffFull, Bool.or_eq_true, Bool.and_eq_true, decide_eq_true_eq]
  unfold sizeWrap
  omega

theorem ringbuffEmpty_iff (holds : (ring rb).Holds l) : ringbuffEmpty rb = true ↔ l = [] := by
  have empty : rb.tail = rb.head ↔ l = [] := holds.empty_iff
  rw [← empty]
  exact decide_eq_true_iff

theorem ringbuff_length_eq (holds : (ring rb).Holds l) (small : rb.size < 2 ^ 16) : rb.length = l.length := by
  have head : rb.head < rb.size := holds.head_lt
  have tail : rb.tail < rb.size := holds.inside
  have cases : rb.tail + l.length < rb.size ∧ rb.head = rb.tail + l.length ∨
      rb.size ≤ rb.tail + l.length ∧ rb.head + rb.size = rb.tail + l.length := holds.head_cases
  have room : l.length < rb.size := holds.room
  unfold Ringbuff.length sizeWrap
  split
  · omega
  · omega

theorem ringbuffGet_holds (holds : (ring rb).Holds (a :: l)) (small : rb.size < 2 ^ 16) :
    (ringbuffGet rb).1 = a ∧ (ring (ringbuffGet rb).2).Holds l := by
  refine ⟨holds.first, ?_⟩
  rw [ring_get holds.inside small]
  exact holds.drop

theorem room_of_free (holds : (ring rb).Holds l) (small : rb.size < 2 ^ 16) (free : ¬ ringbuffFull rb = true) :
    l.length + 1 < rb.size := by
  have other := mt (ringbuffFull_iff holds small).2 free
  have inside : l.length < rb.size := holds.room
  omega

theorem ringbuffPut_holds (holds : (ring rb).Holds l) (small : rb.size < 2 ^ 16) (free : ¬ ringbuffFull rb = true)
    (byte : Byte) : (ring (ringbuffPut rb byte)).Holds (l ++ [byte]) := by
  rw [ring_put holds.head_lt small]
  exact holds.put (room_of_free holds small free) byte

theorem ringbuffWrite_size (bytes : List Byte) : (ringbuffWrite rb bytes).2.size = rb.size := by
  induction bytes generalizing rb with
  | nil => rfl
  | cons byte bytes ih =>
    unfold ringbuffWrite
    split
    · rfl
    · exact ih

theorem ringbuffWrite_tail (bytes : List Byte) : (ringbuffWrite rb bytes).2.tail = rb.tail := by
  induction bytes generalizing rb with
  | nil => rfl
  | cons byte bytes ih =>
    unfold ringbuffWrite
    split
    · rfl
    · exact ih

section

variable (holds : (ring rb).Holds l) (small : rb.size < 2 ^ 16)
include holds small

theorem ringbuffWrite_holds (bytes : List Byte) :
    (ring (ringbuffWrite rb bytes).2).Holds (l ++ bytes.take (ringbuffWrite rb bytes).1) := by
  induction bytes generalizing rb l with
  | nil =>
    rw [List.take_nil, List.append_nil]
    exact holds
  | cons byte bytes ih =>
    unfold ringbuffWrite
    split
    · rw [List.take_zero, List.append_nil]
      exact holds
    · rename_i free
      have written := ih (ringbuffPut_holds holds small free byte) small
      rwa [List.append_assoc, List.singleton_append, ← List.take_succ_cons] at written

theorem ringbuffWrite_count (bytes : List Byte) :
    (ringbuffWrite rb bytes).1 = min bytes.length (rb.size - 1 - l.length) := by
  induction bytes generalizing rb l with
  | nil => exact (Nat.zero_min _).symm
  | cons byte bytes ih =>
    unfold ringbuffWrite
    split
    · rename_i full
      have last := (ringbuffFull_iff holds small).1 full
      rw [show rb.size - 1 - l.length = 0 by omega, Nat.min_zero]
    · rename_i free
      have room := room_of_free holds small free
      have counted := ih (ringbuffPut_holds holds small free byte) small
      rw [List.length_append, List.length_singleton] at counted
      change (ringbuffWrite (ringbuffPut rb byte) bytes).1 + 1 = _
      rw [counted, List.length_cons]
      change min bytes.length (rb.size - 1 - (l.length + 1)) + 1 = _
      omega

theorem ringbuffRead_holds (n : Nat) :
    (ringbuffRead rb n).1 = l.take n ∧ (ring (ringbuffRead rb n).2).Holds (l.drop n) ∧
      (ringbuffRead rb n).2.size = rb.size := by
  induction n generalizing rb l with
  | zero => exact ⟨rfl, holds, rfl⟩
  | succ n ih =>
    unfold ringbuffRead
    split
    · rename_i empty
      obtain rfl := (ringbuffEmpty_iff holds).1 empty
      exact ⟨rfl, holds, rfl⟩
    · rename_i some
      cases l with
      | nil => exact absurd ((ringbuffEmpty_iff holds).2 rfl) some
      | cons a l =>
        obtain ⟨first, rest⟩ := ringbuffGet_holds holds small
        obtain ⟨bytes, left, size⟩ := ih rest small
        refine ⟨?_, left, size⟩
        change (ringbuffGet rb).1 :: (ringbuffRead (ringbuffGet rb).2 n).1 = _
        rw [first, bytes, List.take_succ_cons]

end

end

section Fifo

open Fifo

def ringbuffCall (rb : Ringbuff) : Call Byte → Reply Byte × Ringbuff
  | .write buff =>
    let (wlen, rb) := ringbuffWrite rb buff
    (.wrote wlen, rb)
  | .read n =>
    let (buff, rb) := ringbuffRead rb n
    (.got buff, rb)

structure RingKeeps (n : Nat) (rb : Ringbuff) (l : List Byte) : Prop where
  holds : (ring rb).Holds l
  size : rb.size = n + 1

variable {n : Nat} {rb : Ringbuff} {l : List Byte}

theorem keeps_init (small : n < 0xffff) (buff : Nat → Byte) : RingKeeps n (ringbuffInit n buff) [] := by
  have size : sizeWrap (n + 1) = n + 1 := sizeWrap_eq (by omega)
  refine ⟨?_, size⟩
  rw [ringbuffInit, size]
  exact RingBuffer.holds_nil (Nat.succ_pos n)

theorem RingKeeps.bound (keeps : RingKeeps n rb l) : l.length ≤ n := by
  have room : l.length < rb.size := keeps.holds.room
  rw [keeps.size] at room
  omega

theorem ringbuffCall_answer (small : n < 0xffff) (keeps : RingKeeps n rb l) (call : Call Byte) :
    (ringbuffCall rb call).1 = (answer n l call).1 ∧ RingKeeps n (ringbuffCall rb call).2 (answer n l call).2 := by
  have word : rb.size < 2 ^ 16 := by
    rw [keeps.size]
    omega
  cases call with
  | write buff =>
    have count := ringbuffWrite_count keeps.holds word buff
    rw [keeps.size, Nat.add_sub_cancel] at count
    have holds := ringbuffWrite_holds keeps.holds word buff
    rw [count, Nat.min_comm, ← List.take_take, List.take_length] at holds
    exact ⟨congrArg Reply.wrote count, holds, (ringbuffWrite_size buff).trans keeps.size⟩
  | read n =>
    obtain ⟨bytes, left, size⟩ := ringbuffRead_holds keeps.holds word n
    exact ⟨congrArg Reply.got bytes, left, size.trans keeps.size⟩

theorem ringbuff_is_fifo (n : Nat) (small : n < 0xffff) (buff : Nat → Byte) (calls : List (Call Byte)) :
    let (replies, rb) := Fifo.replies ringbuffCall (ringbuffInit n buff) calls
    let (answers, queue) := Fifo.replies (answer n) [] calls
    replies = answers ∧ rb.size = n + 1 ∧ rb.head < rb.size ∧ rb.tail < rb.size ∧ rb.length = queue.length ∧
      queue.length ≤ n := by
  obtain ⟨same, keeps⟩ := replies_eq (R := RingKeeps n) (fun _ _ call keeps => ringbuffCall_answer small keeps call)
    (keeps_init small buff) calls
  refine ⟨same, keeps.size, keeps.holds.head_lt, keeps.holds.inside, ringbuff_length_eq keeps.holds ?_, keeps.bound⟩
  rw [keeps.size]
  omega

theorem ringbuff_is_fifo_three :
    (3 : Nat) < 0xffff ∧
      (replies ringbuffCall (ringbuffInit 3 fun _ => 0) [.write [1, 2, 3, 4], .read 2, .write [5, 6, 7], .read 9]).1 =
        [.wrote 3, .got [1, 2], .wrote 2, .got [3, 5, 6]] :=
  ⟨by decide, (ringbuff_is_fifo 3 (by decide) (fun _ => 0) _).1⟩

end Fifo

end PiOS.Proof
