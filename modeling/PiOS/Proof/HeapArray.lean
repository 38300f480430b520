import PiOS.Kernel.Libk.HeapArray
import PiOS.Proof.Heap

namespace PiOS.Proof.HeapArray
open Kernel Blocks Heap Transition Function

section Loops

variable {memory : HeapMemory} {fuel : Nat} {c : Nat}

theorem memoryAt_inside (inside : c < heapArrSize) : memoryAt memory c = .ok (memory c) := by
  simp [memoryAt, inside]

theorem memorySet_inside (inside : c < heapArrSize) (value : Nat) :
    memorySet memory c value = .ok (update memory c value) := by
  simp [memorySet, inside]

-- no position of a walk over blocks that fit is near the end of an `int`
theorem intWrap_position {x : Int} (position : x = c) (inside : c ≤ heapArrSize) : intWrap x = c := by
  rw [heapArrSize_eq] at inside
  rw [position]
  exact intWrap_eq (by omega) (by omega)

section

variable (tiling : Tiling heapArrSize memory)
include tiling

theorem kmallocLoop_eq {chunks fuel fuel' free cur : Nat} (counted : free ≤ cur)
    (reached : cur ≤ heapArrSize) (enough : heapArrSize < cur + fuel) (enough' : heapArrSize ≤ cur + fuel') :
    kmallocLoop memory chunks fuel free cur =
      some ((kmallocScan memory chunks fuel' free cur).elim (.error (.panic "kmalloc: out of memory")) fun first =>
        .ok (kernelHeapStart + first * chunkSize, update memory first chunks)) := by
  induction fuel generalizing fuel' free cur with
  | zero => omega
  | succ fuel ih =>
    by_cases inside : cur < heapArrSize
    · obtain ⟨fuel', rfl⟩ : ∃ more, fuel' = more + 1 := ⟨fuel' - 1, by omega⟩
      have counts : intWrap (free + 1) = (free + 1 : Nat) := intWrap_position rfl (by omega)
      by_cases zero : memory cur = 0
      · by_cases last : free + 1 = chunks
        · have first : (cur : Int) - chunks + 1 = (cur + 1 - chunks : Nat) := by omega
          simp [kmallocLoop, kmallocScan, inside, memoryAt_inside, zero, counts, last, first,
            memorySet_inside (show cur + 1 - chunks < heapArrSize by omega), Except.map]
        · have next : intWrap (cur + 1) = (cur + 1 : Nat) := intWrap_position rfl (by omega)
          have rest := @ih fuel' (free + 1) (cur + 1) (by omega) inside (by omega) (by omega)
          have more : ((free + 1 : Nat) : Int) ≠ chunks := by exact_mod_cast last
          simp only [kmallocLoop, kmallocScan, inside, Int.ofNat_lt, if_true, memoryAt_inside, zero, counts, more,
            last, if_false, next, rest]
      · have fits := tiling.fits cur inside zero
        have next : intWrap (cur + memory cur) = (cur + memory cur : Nat) := intWrap_position rfl fits
        have rest := @ih fuel' 0 (cur + memory cur) (Nat.zero_le _) fits (by omega) (by omega)
        simp only [kmallocLoop, kmallocScan, inside, Int.ofNat_lt, if_true, memoryAt_inside, zero, if_false, next]
        exact rest
    · have outside : ¬ (cur : Int) < heapArrSize := by exact_mod_cast inside
      have ended : kmallocScan memory chunks fuel' free cur = none := by
        cases fuel' <;> simp [kmallocScan, inside]
      simp [kmallocLoop, outside, ended]

theorem kmallocIn_eq (enough : heapArrSize < fuel) (size : Word) :
    kmallocIn fuel memory size = some (kmalloc memory size) := by
  have started := @kmallocLoop_eq _ tiling (sizeInChunks size) fuel heapArrSize 0 0 le_rfl (Nat.zero_le _) (by omega)
    (by omega)
  refine started.trans ?_
  unfold kmalloc
  cases kmallocScan memory (sizeInChunks size) heapArrSize 0 0 <;> rfl

theorem memFreeLoop_eq {fuel cur : Nat} (reached : cur ≤ heapArrSize)
    (enough : heapArrSize < cur + fuel) (free : Word) :
    ∃ count, memFreeLoop memory fuel free cur = some (.ok (free + BitVec.ofNat 16 (count * chunkSize))) ∧
      count + ∑ i ∈ Finset.Ico cur heapArrSize, memory i = heapArrSize - cur := by
  induction fuel generalizing cur free with
  | zero => omega
  | succ fuel ih =>
    by_cases inside : cur < heapArrSize
    · by_cases zero : memory cur = 0
      · have next : intWrap (cur + 1) = (cur + 1 : Nat) := intWrap_position rfl inside
        obtain ⟨count, ended, total⟩ := @ih (cur + 1) inside (by omega) (free + BitVec.ofNat 16 chunkSize)
        refine ⟨count + 1, ?_, ?_⟩
        · simp only [memFreeLoop, inside, Int.ofNat_lt, if_true, memoryAt_inside, zero, next, ended]
          rw [Nat.succ_mul, Nat.add_comm, BitVec.ofNat_add, BitVec.add_assoc]
        · rw [Finset.sum_eq_sum_Ico_succ_bot inside, zero]
          omega
      · have fits := tiling.fits cur inside zero
        have next : intWrap (cur + memory cur) = (cur + memory cur : Nat) := intWrap_position rfl fits
        obtain ⟨count, ended, total⟩ := ih fits (by omega) free
        refine ⟨count, ?_, ?_⟩
        · simp only [memFreeLoop, inside, Int.ofNat_lt, if_true, memoryAt_inside, next]
          exact ended
        · rw [tiling.sum_skip inside zero]
          omega
    · have outside : ¬ (cur : Int) < heapArrSize := by exact_mod_cast inside
      refine ⟨0, by simp [memFreeLoop, outside], ?_⟩
      rw [Finset.Ico_eq_empty_of_le (Nat.le_of_not_lt inside), Finset.sum_empty]
      omega

theorem memFreeSize_eq (enough : heapArrSize < fuel) :
    ∃ count, memFreeSize fuel memory = some (.ok (BitVec.ofNat 16 (count * chunkSize) * 2)) ∧
      count + ∑ i ∈ Finset.range heapArrSize, memory i = heapArrSize := by
  obtain ⟨count, ended, total⟩ := @memFreeLoop_eq _ tiling fuel 0 (Nat.zero_le _) (by omega) 0
  rw [zero_add] at ended
  refine ⟨count, ?_, ?_⟩
  · exact congrArg (Option.map fun free => free.map (· * 2)) ended
  · rwa [Finset.range_eq_Ico]

end

end Loops

section Fit

def FreeChunk (memory : HeapMemory) (chunk : Nat) : Prop :=
  ∀ i < heapArrSize, memory i ≠ 0 → chunk < i ∨ i + memory i ≤ chunk

def FreeChunks (memory : HeapMemory) (k first : Nat) : Prop :=
  first + k ≤ heapArrSize ∧ ∀ chunk, first ≤ chunk → chunk < first + k → FreeChunk memory chunk

def chunksFor (size : Word) : Nat := (size.toNat + 8) / 8

variable {memory : HeapMemory} {k first : Nat}

theorem freeChunks_iff (positive : 0 < k) :
    FreeChunks memory k first ↔ first + k ≤ heapArrSize ∧ FreeRun heapArrSize memory first (first + k) :=
  and_congr_right fun room => (freeRun_iff (Nat.lt_add_of_pos_right positive) room).symm

theorem chunksFor_pos (size : Word) : 0 < chunksFor size := by
  unfold chunksFor
  omega

theorem sizeInChunks_exact {size : Word} (fits : size.toNat + 8 < 2 ^ 16) : sizeInChunks size = chunksFor size := by
  simp only [sizeInChunks, chunksFor, chunkSize, BitVec.toNat_add, BitVec.toNat_ofNat]
  omega

-- a sum that wraps leaves no chunks to look for, where the exact one is more than the heap has
theorem kmallocScan_iff (tiling : Tiling heapArrSize memory) (size : Word) :
    kmallocScan memory (sizeInChunks size) heapArrSize 0 0 = some first ↔
      FirstFit heapArrSize memory (chunksFor size) first := by
  have small := size.isLt
  rw [kmallocScan_eq]
  by_cases fits : size.toNat + 8 < 2 ^ 16
  · rw [sizeInChunks_exact fits]
    exact scan_eq_some_iff tiling.clear (chunksFor_pos size)
  · have none : sizeInChunks size = 0 := by
      simp only [sizeInChunks, chunkSize, BitVec.toNat_add, BitVec.toNat_ofNat]
      omega
    rw [none, scan_zero]
    refine iff_of_false nofun fun fit => ?_
    have room := fit.room
    rw [heapArrSize_eq] at room
    unfold chunksFor at room
    omega

theorem kmalloc_complete (memory : HeapMemory) (formed : Tiling heapArrSize memory) (size : Word) (fuel : Nat)
    (enough : heapArrSize < fuel) :
    (∀ first, FreeChunks memory (chunksFor size) first → (∀ j < first, ¬ FreeChunks memory (chunksFor size) j) →
      kmallocIn fuel memory size =
        some (.ok (kernelHeapStart + first * chunkSize, update memory first (chunksFor size)))) ∧
    (kmallocIn fuel memory size = some (.error (.panic "kmalloc: out of memory")) ↔
      ¬ ∃ first, FreeChunks memory (chunksFor size) first) := by
  have positive := chunksFor_pos size
  have some_iff : (∃ first, FreeChunks memory (chunksFor size) first) ↔
      ∃ first, FirstFit heapArrSize memory (chunksFor size) first := by
    simp only [exists_firstFit_iff, freeChunks_iff positive]
  rw [kmallocIn_eq formed enough, some_iff]
  constructor
  · intro first free lowest
    obtain ⟨room, run⟩ := (freeChunks_iff positive).mp free
    have fit : FirstFit heapArrSize memory (chunksFor size) first := by
      refine ⟨room, run, fun j before other => ?_⟩
      exact lowest j before ((freeChunks_iff positive).mpr ⟨by omega, other⟩)
    have fits : size.toNat + 8 < 2 ^ 16 := by
      rw [heapArrSize_eq] at room
      unfold chunksFor at room
      omega
    rw [kmalloc, (kmallocScan_iff formed size).mpr fit, sizeInChunks_exact fits]
  · simp only [← kmallocScan_iff formed size]
    unfold kmalloc
    cases kmallocScan memory (sizeInChunks size) heapArrSize 0 0 with
    | none => simp
    | some first => simp

theorem kmalloc_complete_hole :
    Tiling heapArrSize (update (fun _ => 0) 1 3) ∧
      kmallocIn 2176 (update (fun _ => 0) 1 3) 16 =
        some (.ok (0xA020, update (update (fun _ => 0) 1 3) 4 3)) := by
  have formed : Tiling heapArrSize (update (fun _ => 0) 1 3) :=
    (tiling_zero _).allocate ⟨fun _ _ block => absurd rfl block, fun _ _ _ => rfl⟩ (by decide)
  have behind : ∀ c, 4 ≤ c → FreeChunk (update (fun _ => 0) 1 3) c := by
    intro c high i small block
    obtain rfl : i = 1 := by
      by_contra other
      simp [update_of_ne other] at block
    exact Or.inr high
  refine ⟨formed, (kmalloc_complete _ formed 16 2176 (by decide)).1 4 ⟨by decide, fun c low _ => behind c low⟩ ?_⟩
  intro j before free
  have taken := free.2 (max j 1) (le_max_left j 1) (by simp [chunksFor]) 1 (by decide) (by simp)
  simp at taken
  omega

end Fit

section Index

def arrayStep (memory : HeapMemory) : HeapOp → Option HeapMemory
  | .kmalloc size =>
    match kmalloc memory size with
    | .ok (_, memory) => some memory
    | .error _ => none
  | .kfree ptr =>
    match kfree memory ptr with
    | .ok memory => some memory
    | .error _ => none

variable {memory memory' : HeapMemory}

theorem kfree_clears {ptr : Nat} (freed : kfree memory ptr = .ok memory') :
    ∃ chunk, memory' = update memory chunk 0 := by
  unfold kfree at freed
  split at freed
  · cases freed
  · dsimp only at freed
    split at freed
    · exact ⟨_, (Except.ok.inj freed).symm⟩
    · cases freed

theorem arrayStep_tiling {op : HeapOp} (tiling : Tiling heapArrSize memory)
    (action : arrayStep memory op = some memory') : Tiling heapArrSize memory' := by
  cases op with
  | kmalloc size =>
    simp only [arrayStep] at action
    split at action
    · rename_i ptr memory allocated
      obtain ⟨first, -, rfl, -, room, free⟩ := kmalloc_ok allocated tiling
      rw [← Option.some.inj action]
      exact tiling.allocate free room
    · cases action
  | kfree ptr =>
    simp only [arrayStep] at action
    split at action
    · rename_i memory freed
      obtain ⟨chunk, rfl⟩ := kfree_clears freed
      rw [← Option.some.inj action]
      exact tiling.release chunk
    · cases action

structure IndexSafe (memory : HeapMemory) (size ptr : Word) : Prop where
  kmalloc : ∀ fuel > heapArrSize, kmallocIn fuel memory size ≠ some (.error .outOfBounds)
  memFreeSize : ∀ fuel > heapArrSize, memFreeSize fuel memory ≠ some (.error .outOfBounds)
  kfree : kfree memory ptr.toNat ≠ .error .outOfBounds
  refused : ptr.toNat < 0xA000 ∨ 0xE3FF < ptr.toNat →
    Kernel.kfree memory ptr.toNat = .error (.panic "kfree: pointer out of bounds")

-- the end of the heap is not a multiple of the chunk size, and is accepted
theorem kfree_outOfBounds_iff (memory : HeapMemory) (ptr : Nat) :
    kfree memory ptr = .error .outOfBounds ↔ 0xE3F8 ≤ ptr ∧ ptr ≤ 0xE3FF := by
  unfold kfree
  rw [heapArrSize_eq]
  unfold kernelHeapStart kernelHeapEnd chunkSize
  split
  · simp only [Except.error.injEq, reduceCtorEq, false_iff]
    omega
  · dsimp only
    split
    · simp only [reduceCtorEq, false_iff]
      omega
    · simp only [true_iff]
      omega

theorem index_safe_iff (ops : List HeapOp) (memory : HeapMemory) (reached : run arrayStep initMalloc ops = some memory)
    (size ptr : Word) : IndexSafe memory size ptr ↔ ¬ (0xE3F8 ≤ ptr.toNat ∧ ptr.toNat ≤ 0xE3FF) := by
  have tiling : Tiling heapArrSize memory :=
    run_invariant (fun _ _ _ => arrayStep_tiling) (tiling_zero heapArrSize) reached
  rw [← kfree_outOfBounds_iff memory]
  refine ⟨IndexSafe.kfree, fun inside => ⟨?_, ?_, inside, ?_⟩⟩
  · intro fuel enough outside
    rw [kmallocIn_eq tiling enough, Option.some.injEq] at outside
    cases kmalloc_stops outside
  · intro fuel enough outside
    obtain ⟨count, ended, -⟩ := memFreeSize_eq tiling enough
    rw [ended] at outside
    cases outside
  · intro outside
    exact if_pos outside

theorem index_safe_iff_last : ∃ memory, run arrayStep initMalloc [.kmalloc 5, .kfree 0xA003] = some memory ∧
    IndexSafe memory 0xFFFF 0xE3F7 := by
  have runs : (run arrayStep initMalloc [.kmalloc 5, .kfree 0xA003]).isSome = true := by decide
  obtain ⟨memory, reached⟩ := Option.isSome_iff_exists.mp runs
  exact ⟨memory, reached, (index_safe_iff _ memory reached 0xFFFF 0xE3F7).mpr (by decide)⟩

theorem kfree_behind_array : kfree initMalloc 0xE3F8 = .error .outOfBounds ∧ ∀ size, ¬ IndexSafe initMalloc size 0xE3F8 := by
  have outside := (kfree_outOfBounds_iff initMalloc 0xE3F8).mpr (by decide)
  exact ⟨outside, fun size safe => safe.kfree outside⟩

end Index

section Accounting

variable {s s' : HeapState} {op : HeapOp}

def Owned (s : HeapState) : Prop := ∀ i < heapArrSize, s.memory i ≠ 0 → ∃ b ∈ s.live, chunkOf b.1 = i

theorem heapStep_owned (inv : HeapInv s) (owned : Owned s) (action : heapStep s op = some s') : Owned s' := by
  rcases heapStep_cases inv action with ⟨size, first, -, -, -, -, rfl⟩ | ⟨c, -, -, rfl⟩
  · intro i small block
    by_cases new : i = first
    · rw [new]
      exact ⟨_, List.mem_cons_self, chunkOf_ptr first⟩
    · simp only [update_of_ne new] at block
      obtain ⟨b, live, place⟩ := owned i small block
      exact ⟨b, List.mem_cons_of_mem _ live, place⟩
  · intro i small block
    have other : i ≠ chunkOf c.1 := by
      rintro rfl
      simp at block
    simp only [update_of_ne other] at block
    obtain ⟨b, live, place⟩ := owned i small block
    refine ⟨b, List.mem_filter.mpr ⟨live, decide_eq_true fun same => other ?_⟩, place⟩
    rw [← place, same]

def liveBytes (s : HeapState) : Nat := (s.live.map fun b => blockBytes s.memory b.1).sum

theorem liveBytes_eq (inv : HeapInv s) (owned : Owned s) :
    liveBytes s = (∑ i ∈ Finset.range heapArrSize, s.memory i) * chunkSize := by
  have held : ∑ i ∈ (s.live.map fun b => chunkOf b.1).toFinset, s.memory i =
      ∑ i ∈ Finset.range heapArrSize, s.memory i := by
    apply Finset.sum_subset inv.chunks_subset
    intro i inside free
    by_contra block
    obtain ⟨b, live, place⟩ := owned i (Finset.mem_range.mp inside) block
    exact free (List.mem_toFinset.mpr (List.mem_map.mpr ⟨b, live, place⟩))
  rw [← held, List.sum_toFinset s.memory inv.chunks_nodup, List.map_map, ← List.sum_map_mul_right]
  rfl

def FreeSizeExact (s : HeapState) : Prop :=
  ∀ fuel > heapArrSize, ∃ free, memFreeSize fuel s.memory = some (.ok free) ∧
    free.toNat + liveBytes s = heapArrSize * chunkSize

theorem memFreeSize_live (inv : HeapInv s) (owned : Owned s) {fuel : Nat} (enough : heapArrSize < fuel) :
    ∃ free, memFreeSize fuel s.memory = some (.ok free) ∧
      free.toNat + 2 * liveBytes s = 2 * (heapArrSize * chunkSize) := by
  obtain ⟨count, ended, total⟩ := memFreeSize_eq inv.tiling enough
  refine ⟨_, ended, ?_⟩
  rw [liveBytes_eq inv owned]
  rw [heapArrSize_eq] at total ⊢
  simp only [chunkSize, BitVec.toNat_mul, BitVec.toNat_ofNat, show (2 : Word).toNat = 2 from rfl]
  omega

theorem freeSizeExact_iff (inv : HeapInv s) (owned : Owned s) :
    FreeSizeExact s ↔ liveBytes s = heapArrSize * chunkSize := by
  constructor
  · intro exact
    obtain ⟨free, ended, sum⟩ := exact (heapArrSize + 1) (Nat.lt_succ_self _)
    obtain ⟨free', ended', twice⟩ := memFreeSize_live inv owned (Nat.lt_succ_self heapArrSize)
    obtain rfl : free = free' := Except.ok.inj (Option.some.inj (ended.symm.trans ended'))
    omega
  · intro full fuel enough
    obtain ⟨free, ended, twice⟩ := memFreeSize_live inv owned enough
    exact ⟨free, ended, by omega⟩

theorem mem_free_size_iff (ops : List HeapOp) (s : HeapState) (reached : run heapStep initHeap ops = some s) :
    (∀ fuel > heapArrSize, ∃ free, memFreeSize fuel s.memory = some (.ok free) ∧
      free.toNat = 2 * (heapArrSize * chunkSize - liveBytes s)) ∧
    (FreeSizeExact s ↔ liveBytes s = heapArrSize * chunkSize) := by
  have both : HeapInv s ∧ Owned s :=
    run_invariant (I := fun s => HeapInv s ∧ Owned s)
      (fun _ _ _ both action => ⟨heapStep_inv both.1 action, heapStep_owned both.1 both.2 action⟩)
      ⟨heapInv_init, fun _ _ block => absurd rfl block⟩ reached
  refine ⟨fun fuel enough => ?_, freeSizeExact_iff both.1 both.2⟩
  obtain ⟨free, ended, twice⟩ := memFreeSize_live both.1 both.2 enough
  exact ⟨free, ended, by omega⟩

theorem mem_free_size_iff_full : ∃ s, run heapStep initHeap [.kmalloc 17399] = some s ∧ FreeSizeExact s := by
  have bytes : (run heapStep initHeap [.kmalloc 17399]).map liveBytes = some 17400 := by decide +kernel
  obtain ⟨s, reached, full⟩ := Option.map_eq_some_iff.mp bytes
  exact ⟨s, reached, (mem_free_size_iff _ s reached).2.mpr full⟩

theorem free_size_doubled : liveBytes initHeap = 0 ∧ ¬ FreeSizeExact initHeap := by
  refine ⟨rfl, fun exact => ?_⟩
  have full := (freeSizeExact_iff heapInv_init fun _ _ block => absurd rfl block).mp exact
  cases full

end Accounting

end PiOS.Proof.HeapArray
