import PiOS.Kernel.Libk.Kmalloc
import PiOS.Kernel.Libk.Math

namespace PiOS.Kernel

/-- An element of `memory`. The language gives no meaning to an access outside the array. -/
def memoryAt (memory : HeapMemory) (index : Int) : Except Stop Nat :=
  if 0 ≤ index ∧ index < heapArrSize then .ok (memory index.toNat) else .error .outOfBounds

def memorySet (memory : HeapMemory) (index : Int) (value : Nat) : Except Stop HeapMemory :=
  if 0 ≤ index ∧ index < heapArrSize then .ok (Function.update memory index.toNat value) else .error .outOfBounds

/-- `kmalloc` from its loop on, with every access to `memory`; nothing is returned as long as `fuel` is too small. -/
def kmallocLoop (memory : HeapMemory) (chunks : Nat) : Nat → Int → Int → Option (Except Stop (Nat × HeapMemory))
  | 0, _, _ => none
  | fuel + 1, freeChunks, currentChunk =>
    if currentChunk < heapArrSize then
      match memoryAt memory currentChunk with
      | .error stop => some (.error stop)
      | .ok 0 =>
        let freeChunks := intWrap (freeChunks + 1)
        if freeChunks = chunks then
          let first := currentChunk - chunks + 1
          some ((memorySet memory first chunks).map fun memory =>
            (kernelHeapStart + first.toNat * chunkSize, memory))
        else
          kmallocLoop memory chunks fuel freeChunks (intWrap (currentChunk + 1))
      | .ok length => kmallocLoop memory chunks fuel 0 (intWrap (currentChunk + length))
    else
      some (.error (.panic "kmalloc: out of memory"))

def kmallocIn (fuel : Nat) (memory : HeapMemory) (size : Word) : Option (Except Stop (Nat × HeapMemory)) :=
  kmallocLoop memory (sizeInChunks size) fuel 0 0

def memFreeLoop (memory : HeapMemory) : Nat → Word → Int → Option (Except Stop Word)
  | 0, _, _ => none
  | fuel + 1, free, currentChunk =>
    if currentChunk < heapArrSize then
      match memoryAt memory currentChunk with
      | .error stop => some (.error stop)
      | .ok 0 => memFreeLoop memory fuel (free + BitVec.ofNat 16 chunkSize) (intWrap (currentChunk + 1))
      | .ok length => memFreeLoop memory fuel free (intWrap (currentChunk + length))
    else
      some (.ok free)

def memFreeSize (fuel : Nat) (memory : HeapMemory) : Option (Except Stop Word) :=
  (memFreeLoop memory fuel 0 0).map fun free => free.map (· * 2)

end PiOS.Kernel
