import PiOS.Kernel.Sys.MqCalls
import PiOS.Proof.Heap

namespace PiOS.Proof.Heap
open Kernel

theorem HeapBytes.read_length (bytes : HeapBytes) (ptr count : Nat) : (bytes.read ptr count).length = count := by
  simp [HeapBytes.read]

variable {bytes : HeapBytes} {ptr a n : Nat} {data : List Byte}

theorem read_write_self (bytes : HeapBytes) (ptr : Nat) (data : List Byte) :
    (bytes.write ptr data).read ptr data.length = data := by
  apply List.ext_getElem
  · rw [HeapBytes.read_length]
  · intro j inside inData
    simp [HeapBytes.read, HeapBytes.write, List.getElem?_eq_getElem inData]

theorem write_before (bytes : HeapBytes) (data : List Byte) {x : Nat} (before : x < ptr) :
    bytes.write ptr data x = bytes x :=
  if_neg (Nat.not_le.mpr before)

theorem write_behind (bytes : HeapBytes) {x : Nat} (behind : ptr + data.length ≤ x) :
    bytes.write ptr data x = bytes x := by
  have outside : data.length ≤ x - ptr := by omega
  rw [HeapBytes.write, List.getD_eq_getElem?_getD, List.getElem?_eq_none outside, Option.getD_none, ite_self]

theorem write_at (bytes : HeapBytes) {j : Nat} (inside : j < data.length) :
    bytes.write ptr data (ptr + j) = data[j] := by
  rw [HeapBytes.write, if_pos (Nat.le_add_right ptr j), Nat.add_sub_cancel_left, List.getD_eq_getElem?_getD,
    List.getElem?_eq_getElem inside, Option.getD_some]

theorem read_write_apart (apart : a + n ≤ ptr ∨ ptr + data.length ≤ a) :
    (bytes.write ptr data).read a n = bytes.read a n := by
  apply List.map_congr_left
  intro j inside
  rw [List.mem_range] at inside
  rcases apart with before | behind
  · exact write_before bytes data (by omega)
  · exact write_behind bytes (by omega)

theorem write_append (bytes : HeapBytes) (ptr : Nat) (first second : List Byte) :
    bytes.write ptr (first ++ second) = (bytes.write ptr first).write (ptr + first.length) second := by
  funext x
  by_cases before : x < ptr + first.length
  · rw [write_before _ _ before]
    by_cases outside : x < ptr
    · rw [write_before _ _ outside, write_before _ _ outside]
    · have inside : x - ptr < first.length := by omega
      have place : x = ptr + (x - ptr) := by omega
      rw [place, write_at bytes (by rw [List.length_append]; omega), write_at bytes inside,
        List.getElem_append_left inside]
  · by_cases behind : x < ptr + first.length + second.length
    · have inside : x - (ptr + first.length) < second.length := by omega
      have whole : x = ptr + (first.length + (x - (ptr + first.length))) := by omega
      have place : x = ptr + first.length + (x - (ptr + first.length)) := by omega
      conv_lhs => rw [whole]
      conv_rhs => rw [place]
      rw [write_at bytes (by rw [List.length_append]; omega), write_at _ inside,
        List.getElem_append_right (by omega)]
      simp
    · rw [write_behind bytes (by rw [List.length_append]; omega), write_behind _ (by omega),
        write_behind bytes (by omega)]

theorem read_add (bytes : HeapBytes) (ptr n m : Nat) :
    bytes.read ptr (n + m) = bytes.read ptr n ++ bytes.read (ptr + n) m := by
  rw [HeapBytes.read, List.range_add, List.map_append, List.map_map, HeapBytes.read, HeapBytes.read]
  congr 1
  apply List.map_congr_left
  intro j _
  simp [Nat.add_assoc]

theorem read_write_front (fits : data.length ≤ n) :
    (bytes.write ptr data).read ptr n = data ++ (bytes.read ptr n).drop data.length := by
  obtain ⟨m, rfl⟩ := Nat.exists_eq_add_of_le fits
  rw [read_add, read_write_self, read_write_apart (Or.inr le_rfl), read_add, List.drop_left' (HeapBytes.read_length ..)]

theorem read_take (bytes : HeapBytes) {n m : Nat} (shorter : m ≤ n) : bytes.read ptr m = (bytes.read ptr n).take m := by
  rw [HeapBytes.read, HeapBytes.read, ← List.map_take, List.take_range, Nat.min_eq_left shorter]

end PiOS.Proof.Heap
