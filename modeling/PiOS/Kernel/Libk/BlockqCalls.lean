import PiOS.Kernel.Libk.Blockq

namespace PiOS.Kernel

def spinlockLock (sl : Spinlock) (pid : Word) : Except Stop Spinlock :=
  if sl.locked then .error .blocked else .ok ⟨true, pid⟩

def assertThat (condition : Bool) (text : String) : Except Stop Unit :=
  if condition then .ok () else .error (.assertion text)

def blockqPush (q : Blockq) (pid : Word) (buff : List Byte) : Except Stop Blockq := do
  let notFull ← semaphoreDown q.notFull
  let queueLock ← spinlockLock q.queueLock pid
  let written := ringbuffWrite q.rbuff buff
  assertThat (written.1 = q.baseSize) "wb == s->base_size"
  let size := sizeWrap (q.size + 1)
  assertThat (size ≤ q.maxSize) "s->size <= s->max_size"
  pure { q with
    rbuff := written.2
    notFull := notFull
    notEmpty := intWrap (q.notEmpty + 1)
    size := size
    queueLock := spinlockUnlock queueLock pid }

def blockqPop (q : Blockq) (pid : Word) : Except Stop (List Byte × Blockq) := do
  let notEmpty ← semaphoreDown q.notEmpty
  let queueLock ← spinlockLock q.queueLock pid
  assertThat (0 < q.size) "s->size > 0"
  let read := ringbuffRead q.rbuff q.baseSize
  assertThat (read.1.length = q.baseSize) "rb == s->base_size"
  pure (read.1, { q with
    rbuff := read.2
    notFull := intWrap (q.notFull + 1)
    notEmpty := notEmpty
    size := sizeWrap (q.size + 2 ^ 16 - 1)
    queueLock := spinlockUnlock queueLock pid })

def blockqPushNonblock (q : Blockq) (buff : List Byte) : Except Stop Blockq := do
  assertThat (q.size < q.maxSize) "s->size < s->max_size"
  pure { q with
    rbuff := (ringbuffWrite q.rbuff buff).2
    size := sizeWrap (q.size + 1)
    notEmpty := intWrap (q.notEmpty + 1) }

inductive BlockqCall
  | push (pid : Word) (buff : List Byte)
  | pop (pid : Word)
  | pushNonblock (buff : List Byte)

def blockqCall (q : Blockq) : BlockqCall → Option Blockq
  | .push pid buff => if buff.length = q.baseSize then (blockqPush q pid buff).toOption else none
  | .pop pid => (blockqPop q pid).toOption.map Prod.snd
  | .pushNonblock buff => if buff.length = q.baseSize then (blockqPushNonblock q buff).toOption else none

end PiOS.Kernel
