import PiOS.Kernel.Basic

namespace PiOS.Kernel

def kernelHeapStart : Nat := 0xA000
def kernelHeapEnd : Nat := 0xE3FF
def chunkSize : Nat := 8
def heapArrSize : Nat := (kernelHeapEnd - kernelHeapStart) / chunkSize

/-- The array `memory`: the length in chunks at the first chunk of a block, zero elsewhere. -/
abbrev HeapMemory := Nat → Nat

def initMalloc : HeapMemory := fun _ => 0

def sizeInChunks (size : Word) : Nat := (size + BitVec.ofNat 16 chunkSize).toNat / chunkSize

/-- The loop of `kmalloc`, with the chunk at which the block found starts. A turn moves on by at
least one chunk, so `heapArrSize` turns are enough and running out of `fuel` is the end of the loop. -/
def kmallocScan (memory : HeapMemory) (chunks : Nat) : Nat → Nat → Nat → Option Nat
  | 0, _, _ => none
  | fuel + 1, freeChunks, currentChunk =>
    if currentChunk < heapArrSize then
      if memory currentChunk = 0 then
        if freeChunks + 1 = chunks then
          some (currentChunk + 1 - chunks)
        else
          kmallocScan memory chunks fuel (freeChunks + 1) (currentChunk + 1)
      else
        kmallocScan memory chunks fuel 0 (currentChunk + memory currentChunk)
    else
      none

def kmalloc (memory : HeapMemory) (size : Word) : Except Stop (Nat × HeapMemory) :=
  match kmallocScan memory (sizeInChunks size) heapArrSize 0 0 with
  | some first =>
    .ok (kernelHeapStart + first * chunkSize, Function.update memory first (sizeInChunks size))
  | none => .error (.panic "kmalloc: out of memory")

def kfree (memory : HeapMemory) (ptr : Nat) : Except Stop HeapMemory :=
  if ptr < kernelHeapStart ∨ ptr > kernelHeapEnd then
    .error (.panic "kfree: pointer out of bounds")
  else
    let chunkNumber := (ptr - kernelHeapStart) / chunkSize
    if chunkNumber < heapArrSize then
      .ok (Function.update memory chunkNumber 0)
    else
      .error .outOfBounds

end PiOS.Kernel
