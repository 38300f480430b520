import PiOS.Kernel.Machine
import PiOS.Libc.Sys
import PiOS.Proof.UserCopy

namespace PiOS.Proof.ReceiveBuffer
open Kernel Libc Memory

abbrev Message : Type := Word × Word × Word × List Byte

def header (message : Message) : List Byte := [message.1, message.2.1, message.2.2.1].flatMap wordBytes

theorem header_length (message : Message) : (header message).length = 6 := rfl

def received (message : Message) (capacity : Word) : List Byte :=
  header message ++ message.2.2.2.take (wordMin message.2.2.1 capacity).toNat

def StaysInside (memPages : Fin 16 → Word) (buff size : Word) (before after : PhysMem) : Prop :=
  ∀ x, (∀ j < size.toNat, placeOf memPages (buff + BitVec.ofNat 16 j) ≠ x) → flat after x = flat before x

variable {k : KernelState} {i : Nat} {p : Proc} {answers : Answers} {regs : Fin 8 → Word}
  {mqId buff size nonblock : Word} {message : Message}

theorem sys_mqrecv (k : KernelState) (i : Nat) (p : Proc) (answers : Answers) (regs : Fin 8 → Word)
    (mqId buff size nonblock : Word) (message : Message) :
    ∃ k', sys k i p { answers with mqMsg := some message } (sysMqrecv regs mqId buff size nonblock) = .ok k' ∧
      flat k'.phys = storeAll (flat k.phys) (fun j => placeOf p.syscallState.memPages (buff + BitVec.ofNat 16 j))
        (received message (size - 6)) := by
  obtain ⟨id, type, length, data⟩ := message
  let p' : Proc := { p with syscallState := { p.syscallState with regs := sysMqrecv regs mqId buff size nonblock } }
  let copied := memcpyToUserspace (memcpyToUserspace (k.modifyProc i fun p =>
    { p with syscallState := { p.syscallState with regs := sysMqrecv regs mqId buff size nonblock } })
    p' buff (header (id, type, length, data)) 6) p' (buff + 6) data (wordMin length (size - 6))
  refine ⟨copied.setReg i 0 0, rfl, ?_⟩
  exact memcpyToUserspace_twice _ p' buff (header_length _) data (wordMin length (size - 6))

def RespectsBuffer (k : KernelState) (i : Nat) (p : Proc) (answers : Answers) (regs : Fin 8 → Word)
    (mqId buff size nonblock : Word) (message : Message) : Prop :=
  ∀ phys k', sys { k with phys := phys } i p { answers with mqMsg := some message }
    (sysMqrecv regs mqId buff size nonblock) = .ok k' →
    StaysInside p.syscallState.memPages buff size phys k'.phys

theorem received_length_le (message : Message) (fits : 6 ≤ size.toNat) :
    (received message (size - 6)).length ≤ size.toNat := by
  have capacity : (size - 6).toNat = size.toNat - 6 := word_sub_toNat fits
  rw [received, List.length_append, header_length, List.length_take, wordMin_toNat, capacity]
  omega

theorem respectsBuffer_iff (k : KernelState) (i : Nat) (p : Proc) (answers : Answers) (regs : Fin 8 → Word)
    (mqId buff size nonblock : Word) (message : Message) :
    RespectsBuffer k i p answers regs mqId buff size nonblock message ↔ 6 ≤ size.toNat := by
  constructor
  · intro respects
    by_contra small
    rw [Nat.not_le] at small
    -- the first byte of the header past the buffer; its last value does not depend on the one before
    have inHeader : size.toNat < (received message (size - 6)).length := by
      rw [received, List.length_append, header_length]
      omega
    have outside : ∀ j < size.toNat, placeOf p.syscallState.memPages (buff + BitVec.ofNat 16 j) ≠
        placeOf p.syscallState.memPages (buff + BitVec.ofNat 16 size.toNat) := by
      intro j before same
      have equal := placeOf_apart (by unfold Kernel.pageSize; omega) (by unfold Kernel.pageSize; omega) same
      omega
    have kept (b : Byte) : storeAll (flat fun _ _ => 0)
        (fun j => placeOf p.syscallState.memPages (buff + BitVec.ofNat 16 j)) (received message (size - 6))
        (placeOf p.syscallState.memPages (buff + BitVec.ofNat 16 size.toNat)) = b := by
      obtain ⟨k', served, memory⟩ := sys_mqrecv { k with phys := fun _ _ => b } i p answers regs mqId buff size
        nonblock message
      have byte := respects (fun _ _ => b) k' served _ outside
      rw [memory] at byte
      rw [storeAll_inside inHeader, byte]
      rfl
    exact absurd ((kept 0).symm.trans (kept 1)) (by decide)
  · intro fits phys k' served x outside
    obtain ⟨k'', served', memory⟩ := sys_mqrecv { k with phys := phys } i p answers regs mqId buff size nonblock
      message
    obtain rfl : k' = k'' := Except.ok.inj (served.symm.trans served')
    rw [memory]
    apply storeAll_outside
    intro j inside
    exact outside j (Nat.lt_of_lt_of_le inside (received_length_le message fits))

def receiver : Proc := enterSyscall (userProc 1 0 0x300)

theorem header_past_buffer :
    ¬RespectsBuffer (runningFirst [receiver]) 0 receiver (.refusing fun _ _ => 0) (fun _ => 0) 1 0xf000 4 0
      (1, 2, 0, []) := by
  intro respects
  have byte := respects (fun _ _ => 7) _ rfl (0x300, 4) (by decide)
  exact absurd byte (by decide)

end PiOS.Proof.ReceiveBuffer
