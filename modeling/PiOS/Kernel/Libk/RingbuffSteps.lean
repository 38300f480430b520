import PiOS.Kernel.Libk.Ringbuff

namespace PiOS.Kernel

def ringbuffIncrement (rb : Ringbuff) : Ringbuff := { rb with tail := sizeWrap (rb.tail + 1) }

def ringbuffReset (rb : Ringbuff) : Ringbuff := { rb with tail := if rb.tail = rb.size then 0 else rb.tail }

inductive ReadPlace
  | test
  | load
  | increment
  | reset
  deriving DecidableEq

structure ReadCall where
  n : Nat
  rlen : Nat
  place : ReadPlace

structure RingThread where
  rb : Ringbuff
  call : Option ReadCall
  accepted : List Byte
  stored : List Byte

inductive RingAction
  | read (n : Nat)
  | step
  | write (buff : List Byte)

namespace RingThread

def readStep (s : RingThread) (c : ReadCall) : RingThread :=
  match c.place with
  | .test =>
    if c.rlen < c.n ∧ ringbuffEmpty s.rb = false then
      { s with call := some { c with place := .load } }
    else
      { s with call := none }
  | .load =>
    { s with call := some { c with place := .increment }, stored := s.stored ++ [s.rb.buff s.rb.tail] }
  | .increment => { s with call := some { c with place := .reset }, rb := ringbuffIncrement s.rb }
  | .reset => { s with call := some { c with rlen := c.rlen + 1, place := .test }, rb := ringbuffReset s.rb }

def step (s : RingThread) : RingAction → Option RingThread
  | .read n =>
    match s.call with
    | none => some { s with call := some ⟨n, 0, .test⟩ }
    | some _ => none
  | .step => s.call.map s.readStep
  | .write buff =>
    let (wlen, rb) := ringbuffWrite s.rb buff
    some { s with rb := rb, accepted := s.accepted ++ buff.take wlen }

def init (n : Nat) (buff : Nat → Byte) : RingThread := ⟨ringbuffInit n buff, none, [], []⟩

end RingThread

end PiOS.Kernel
