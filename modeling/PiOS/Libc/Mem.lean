import PiOS.Kernel.Basic

namespace PiOS.Libc
open Kernel Function

def memoryChunk : Nat := 32
def maxHeapSize : Nat := 0xF000
def minHeapStart : Nat := 0x1D00
def allocationsSize : Nat := (maxHeapSize - minHeapStart) / memoryChunk
def pageSize : Nat := 0x1000

/-- The statics of `mem.c`, with the pages `sys_pgmap` was called for. An entry of `allocations` is a length in
chunks, so no sum of an index and an entry leaves 16 bits. -/
structure Mem where
  memPages : Word
  allocations : Nat → Nat
  pgmaps : List Nat

def mallocInit (loadBrk memPagesMapped : Word) : Mem where
  memPages := memPagesMapped
  allocations := update (fun _ => 0) 0
    ((loadBrk - BitVec.ofNat 16 minHeapStart + BitVec.ofNat 16 (memoryChunk - 1)).toNat / memoryChunk)
  pgmaps := []

def mallocChunks (size : Word) : Nat := (size + BitVec.ofNat 16 (memoryChunk - 1)).toNat / memoryChunk

def mallocScan (allocations : Nat → Nat) (sizeInChunks : Nat) : Nat → Nat → Nat → Option Nat
  | 0, _, _ => none
  | fuel + 1, freeChunks, i =>
    if i < allocationsSize then
      if allocations i ≠ 0 then
        mallocScan allocations sizeInChunks fuel 0 (i + (allocations i - 1) + 1)
      else if freeChunks + 1 = sizeInChunks then
        some (i - (sizeInChunks - 1))
      else
        mallocScan allocations sizeInChunks fuel (freeChunks + 1) (i + 1)
    else
      none

def pageBit (page : Nat) : Word := 1 <<< page

def mapPage (m : Mem) (page : Nat) : Mem :=
  if m.memPages &&& pageBit page = 0 then
    { m with memPages := m.memPages ||| pageBit page, pgmaps := m.pgmaps ++ [page] }
  else
    m

def mapPages (m : Mem) (pageBase count : Nat) : Mem := (List.range' pageBase count).foldl mapPage m

def malloc (m : Mem) (size : Word) : Word × Mem :=
  if size = 0 then
    (0, m)
  else
    match mallocScan m.allocations (mallocChunks size) allocationsSize 0 0 with
    | none => (0, m)
    | some first =>
      let base := BitVec.ofNat 16 (minHeapStart + first * memoryChunk)
      let m := { m with allocations := update m.allocations first (mallocChunks size) }
      (base, mapPages m (base >>> 12).toNat ((size + BitVec.ofNat 16 (pageSize - 1)).toNat / pageSize))

def free (m : Mem) (ptr : Word) : Except Stop Mem :=
  let chunk := (BitVec.ofNat 16 (ptr.toNat / memoryChunk) - BitVec.ofNat 16 (minHeapStart / memoryChunk)).toNat
  if chunk < allocationsSize then
    .ok { m with allocations := update m.allocations chunk 0 }
  else
    .error .outOfBounds

end PiOS.Libc
