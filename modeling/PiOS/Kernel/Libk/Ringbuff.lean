import Mathlib.Logic.Function.Basic
import PiOS.Kernel.Basic

namespace PiOS.Kernel

def sizeWrap (n : Nat) : Nat := n % 2 ^ 16

structure Ringbuff where
  head : Nat
  tail : Nat
  size : Nat
  buff : Nat → Byte

def ringbuffInit (size : Nat) (buff : Nat → Byte) : Ringbuff := ⟨0, 0, sizeWrap (size + 1), buff⟩

def ringbuffFull (rb : Ringbuff) : Bool :=
  rb.head = sizeWrap (rb.tail + 2 ^ 16 - 1) || (rb.tail = 0 && rb.head = sizeWrap (rb.size + 2 ^ 16 - 1))

def ringbuffPut (rb : Ringbuff) (byte : Byte) : Ringbuff :=
  { rb with
    buff := Function.update rb.buff rb.head byte
    head := if sizeWrap (rb.head + 1) = rb.size then 0 else sizeWrap (rb.head + 1) }

def ringbuffEmpty (rb : Ringbuff) : Bool := rb.tail = rb.head

def ringbuffGet (rb : Ringbuff) : Byte × Ringbuff :=
  (rb.buff rb.tail, { rb with tail := if sizeWrap (rb.tail + 1) = rb.size then 0 else sizeWrap (rb.tail + 1) })

def Ringbuff.length (rb : Ringbuff) : Nat :=
  if rb.head ≥ rb.tail then rb.head - rb.tail else sizeWrap (rb.head + rb.size + 2 ^ 16 - rb.tail)

def ringbuffWrite (rb : Ringbuff) : List Byte → Nat × Ringbuff
  | [] => (0, rb)
  | byte :: buff =>
    if ringbuffFull rb then
      (0, rb)
    else
      let (wlen, rb) := ringbuffWrite (ringbuffPut rb byte) buff
      (wlen + 1, rb)

def ringbuffRead (rb : Ringbuff) : Nat → List Byte × Ringbuff
  | 0 => ([], rb)
  | n + 1 =>
    if ringbuffEmpty rb then
      ([], rb)
    else
      let (byte, rb) := ringbuffGet rb
      let (buff, rb) := ringbuffRead rb n
      (byte :: buff, rb)

def ringbuffStores (rb : Ringbuff) : List Byte → List Nat
  | [] => []
  | byte :: buff => if ringbuffFull rb then [] else rb.head :: ringbuffStores (ringbuffPut rb byte) buff

end PiOS.Kernel
