import PiOS.Proof.Malloc

namespace PiOS.Proof.Malloc
open Libc Blocks Transition Function
open Kernel (Word)

def clientStep (s : Process) : Call → Option Process
  | .malloc size => step s (.malloc size)
  | .free ptr =>
    if ptr ∈ s.returned.map Prod.fst then
      (free s.mem ptr).toOption.map fun mem => ⟨mem, s.returned.filter fun b => b.1 ≠ ptr⟩
    else
      none

def blockEnd (b : Word × Word) : Nat := b.1.toNat + mallocChunks b.2 * memoryChunk

structure Safe (heapStart : Word) (s : Process) : Prop where
  apart : s.returned.Pairwise fun b c => blockEnd b ≤ c.1.toNat ∨ blockEnd c ≤ b.1.toNat
  aligned : ∀ b ∈ s.returned, b.1.toNat % 32 = 0
  inside : ∀ b ∈ s.returned, heapStart.toNat ≤ b.1.toNat ∧ blockEnd b ≤ 0xF000
  large : ∀ b ∈ s.returned, b.1.toNat + b.2.toNat ≤ blockEnd b

def FreeChunk (heapStart : Word) (s : Process) (chunk : Nat) : Prop :=
  heapStart.toNat ≤ chunkBase chunk ∧
    ∀ b ∈ s.returned, chunkBase chunk < b.1.toNat ∨ blockEnd b ≤ chunkBase chunk

def HasRun (heapStart : Word) (s : Process) (size : Nat) : Prop :=
  ∃ first, first + (size + 31) / 32 ≤ allocationsSize ∧
    ∀ chunk, first ≤ chunk → chunk < first + (size + 31) / 32 → FreeChunk heapStart s chunk

structure HeapServes (heapStart : Word) (s : Process) : Prop extends Safe heapStart s where
  null_iff : ∀ size : Word, size ≠ 0 → ((malloc s.mem size).1 = 0 ↔ ¬ HasRun heapStart s size.toNat)
  frees : ∀ b ∈ s.returned, ∃ s', clientStep s (.free b.1) = some s'

def programChunks (heapStart : Word) : Nat := (heapStart.toNat - minHeapStart + (memoryChunk - 1)) / memoryChunk

theorem programChunks_le_iff {heapStart : Word} {chunk : Nat} (above : minHeapStart ≤ heapStart.toNat) :
    programChunks heapStart ≤ chunk ↔ heapStart.toNat ≤ chunkBase chunk := by
  simp only [programChunks, chunkBase, minHeapStart, memoryChunk] at above ⊢
  omega

structure ClientInv (heapStart : Word) (s : Process) : Prop where
  clear : Clear allocationsSize s.mem.allocations
  program : programChunks heapStart ≠ 0 → s.mem.allocations 0 = programChunks heapStart
  held : ∀ b ∈ s.returned, ∃ i, b.1 = BitVec.ofNat 16 (chunkBase i) ∧ programChunks heapStart ≤ i ∧
    s.mem.allocations i = mallocChunks b.2 ∧ 0 < mallocChunks b.2 ∧ i + mallocChunks b.2 ≤ allocationsSize
  owned : ∀ i < allocationsSize, s.mem.allocations i ≠ 0 →
    (i = 0 ∧ s.mem.allocations 0 = programChunks heapStart) ∨
      ∃ b ∈ s.returned, b.1 = BitVec.ofNat 16 (chunkBase i)
  distinct : (s.returned.map Prod.fst).Nodup

section Chunks

variable {i : Nat}

theorem chunkBase_lt (inside : i < allocationsSize) : chunkBase i < 2 ^ 16 := by
  simp only [chunkBase, allocationsSize, minHeapStart, maxHeapSize, memoryChunk] at inside ⊢
  omega

theorem base_toNat (inside : i < allocationsSize) : (BitVec.ofNat 16 (chunkBase i)).toNat = chunkBase i := by
  rw [BitVec.toNat_ofNat]
  exact Nat.mod_eq_of_lt (chunkBase_lt inside)

variable {i j : Nat}

theorem chunkBase_inj : chunkBase i = chunkBase j ↔ i = j := by
  simp only [chunkBase, memoryChunk]
  omega

theorem base_inj (inside : i < allocationsSize) (inside' : j < allocationsSize)
    (same : BitVec.ofNat 16 (chunkBase i) = BitVec.ofNat 16 (chunkBase j)) : i = j := by
  rw [← chunkBase_inj, ← base_toNat inside, ← base_toNat inside', same]

variable {size : Word}

theorem mallocChunks_eq (positive : 0 < mallocChunks size) : mallocChunks size = (size.toNat + 31) / 32 := by
  have wide := size.isLt
  simp only [mallocChunks, memoryChunk, BitVec.toNat_add, BitVec.toNat_ofNat] at positive ⊢
  omega

theorem allocationsSize_lt (nonzero : size ≠ 0) (wrapped : mallocChunks size = 0) :
    allocationsSize < (size.toNat + 31) / 32 := by
  have wide := size.isLt
  have positive : 0 < size.toNat := Nat.pos_of_ne_zero fun zero => nonzero (BitVec.eq_of_toNat_eq zero)
  simp only [mallocChunks, memoryChunk, allocationsSize, minHeapStart, maxHeapSize, BitVec.toNat_add,
    BitVec.toNat_ofNat] at wrapped ⊢
  omega

theorem free_base {m : Mem} (inside : i < allocationsSize) :
    free m (BitVec.ofNat 16 (chunkBase i)) = .ok { m with allocations := update m.allocations i 0 } := by
  have chunk : (BitVec.ofNat 16 ((BitVec.ofNat 16 (chunkBase i)).toNat / memoryChunk) -
      BitVec.ofNat 16 (minHeapStart / memoryChunk)).toNat = i := by
    rw [base_toNat inside]
    have bound := chunkBase_lt inside
    simp only [chunkBase, memoryChunk, minHeapStart, BitVec.toNat_sub, BitVec.toNat_ofNat] at bound ⊢
    omega
  simp only [free, chunk, inside, if_true]

end Chunks

def withoutBlock (s : Process) (ptr : Word) (i : Nat) : Process :=
  ⟨{ s.mem with allocations := update s.mem.allocations i 0 }, s.returned.filter fun b => b.1 ≠ ptr⟩

theorem withoutBlock_allocations (s : Process) (ptr : Word) (i : Nat) :
    (withoutBlock s ptr i).mem.allocations = update s.mem.allocations i 0 := rfl

theorem mem_withoutBlock {s : Process} {ptr : Word} {i : Nat} {b : Word × Word} :
    b ∈ (withoutBlock s ptr i).returned ↔ b ∈ s.returned ∧ b.1 ≠ ptr := by
  simp [withoutBlock]

section Invariant

variable {heapStart : Word} {s : Process} {b : Word × Word} {size : Word}

section

variable (inv : ClientInv heapStart s)
include inv

theorem ClientInv.extent (member : b ∈ s.returned) :
    ∃ i, b.1 = BitVec.ofNat 16 (chunkBase i) ∧ i < allocationsSize ∧ programChunks heapStart ≤ i ∧
      s.mem.allocations i = mallocChunks b.2 ∧ 0 < mallocChunks b.2 ∧
      b.1.toNat = chunkBase i ∧ blockEnd b = chunkBase (i + mallocChunks b.2) ∧
      i + mallocChunks b.2 ≤ allocationsSize := by
  obtain ⟨i, base, above, header, positive, room⟩ := inv.held b member
  have inside : i < allocationsSize := by omega
  have value : b.1.toNat = chunkBase i := by rw [base, base_toNat inside]
  refine ⟨i, base, inside, above, header, positive, value, ?_, room⟩
  rw [blockEnd, value]
  unfold chunkBase
  rw [Nat.add_mul, Nat.add_assoc]

theorem ClientInv.safe (above : minHeapStart ≤ heapStart.toNat) : Safe heapStart s where
  apart := by
    refine List.Pairwise.imp_of_mem ?_ (List.pairwise_map.mp inv.distinct)
    intro b c memberB memberC different
    obtain ⟨i, baseB, insideI, -, headerB, positiveB, startB, endB, -⟩ := inv.extent memberB
    obtain ⟨j, baseC, insideJ, -, headerC, positiveC, startC, endC, -⟩ := inv.extent memberC
    have other : i ≠ j := by
      rintro rfl
      exact different (baseB.trans baseC.symm)
    rw [startB, startC, endB, endC]
    unfold chunkBase memoryChunk
    rcases Nat.lt_or_gt_of_ne other with before | behind
    · left
      by_contra overlap
      have zero := inv.clear i insideI (by omega) j before (by omega)
      omega
    · right
      by_contra overlap
      have zero := inv.clear j insideJ (by omega) i behind (by omega)
      omega
  aligned b member := by
    obtain ⟨i, -, -, -, -, -, start, -, -⟩ := inv.extent member
    rw [start]
    unfold chunkBase minHeapStart memoryChunk
    omega
  inside b member := by
    obtain ⟨i, -, -, low, -, -, start, stop, room⟩ := inv.extent member
    rw [start, stop]
    refine ⟨(programChunks_le_iff above).mp low, ?_⟩
    simp only [chunkBase, allocationsSize, minHeapStart, maxHeapSize, memoryChunk] at room ⊢
    omega
  large b member := by
    obtain ⟨i, -, -, -, -, positive, -, -, -⟩ := inv.extent member
    have chunks := mallocChunks_eq positive
    unfold blockEnd memoryChunk
    omega

theorem ClientInv.freeChunk_iff (above : minHeapStart ≤ heapStart.toNat) (chunk : Nat) :
    (∀ i < allocationsSize, s.mem.allocations i ≠ 0 → chunk < i ∨ i + s.mem.allocations i ≤ chunk) ↔
      FreeChunk heapStart s chunk := by
  constructor
  · intro outside
    constructor
    · apply (programChunks_le_iff above).mp
      by_cases none : programChunks heapStart = 0
      · omega
      · have header := inv.program none
        rcases outside 0 (by decide) (by omega) with behind | before
        · omega
        · omega
    · intro b member
      obtain ⟨i, -, small, -, header, positive, start, stop, -⟩ := inv.extent member
      rw [start, stop]
      unfold chunkBase memoryChunk
      rcases outside i small (by omega) with behind | before
      · omega
      · omega
  · rintro ⟨programBelow, others⟩ i small block
    rcases inv.owned i small block with ⟨rfl, header⟩ | ⟨b, member, base⟩
    · have := (programChunks_le_iff above).mpr programBelow
      omega
    · obtain ⟨j, base', small', -, header, -, start, stop, -⟩ := inv.extent member
      obtain rfl := base_inj small small' (base.symm.trans base')
      have clear := others b member
      rw [start, stop] at clear
      unfold chunkBase memoryChunk at clear
      omega

theorem ClientInv.freeRun_iff (above : minHeapStart ≤ heapStart.toNat) {first count : Nat}
    (some : 0 < count) (room : first + count ≤ allocationsSize) :
    FreeRun allocationsSize s.mem.allocations first (first + count) ↔
      ∀ chunk, first ≤ chunk → chunk < first + count → FreeChunk heapStart s chunk := by
  rw [Blocks.freeRun_iff (Nat.lt_add_of_pos_right some) room]
  simp only [inv.freeChunk_iff above]

theorem ClientInv.null_iff (above : minHeapStart ≤ heapStart.toNat)
    (nonzero : size ≠ 0) : (malloc s.mem size).1 = 0 ↔ ¬ HasRun heapStart s size.toNat := by
  have fits_iff : 0 < mallocChunks size →
      ((∃ first, FirstFit allocationsSize s.mem.allocations (mallocChunks size) first) ↔
        HasRun heapStart s size.toNat) := by
    intro positive
    rw [exists_firstFit_iff]
    unfold HasRun
    rw [← mallocChunks_eq positive]
    apply exists_congr
    intro first
    apply and_congr_right
    intro room
    exact inv.freeRun_iff above positive room
  rcases malloc_cases inv.clear size with ⟨nothing, none⟩ | ⟨first, positive, fit, returned⟩
  · refine iff_of_true (by rw [nothing]) ?_
    intro fits
    rcases Nat.eq_zero_or_pos (mallocChunks size) with wrapped | positive
    · obtain ⟨first, room, -⟩ := fits
      have := allocationsSize_lt nonzero wrapped
      omega
    · obtain ⟨first, fit⟩ := (fits_iff positive).mpr fits
      exact none first positive fit
  · refine iff_of_false ?_ (not_not.mpr ((fits_iff positive).mp ⟨first, fit⟩))
    rw [returned]
    exact chunkBase_ne_zero positive fit

theorem ClientInv.free_step (member : b ∈ s.returned) :
    ∃ i, b.1 = BitVec.ofNat 16 (chunkBase i) ∧ i < allocationsSize ∧ programChunks heapStart ≤ i ∧
      clientStep s (.free b.1) = some (withoutBlock s b.1 i) := by
  obtain ⟨i, base, inside, above, -⟩ := inv.extent member
  refine ⟨i, base, inside, above, ?_⟩
  have held : b.1 ∈ s.returned.map Prod.fst := List.mem_map_of_mem member
  have freed := free_base (m := s.mem) inside
  rw [← base] at freed
  simp only [clientStep, held, if_true, freed]
  rfl

theorem ClientInv.release {i : Nat}
    (base : b.1 = BitVec.ofNat 16 (chunkBase i)) (inside : i < allocationsSize) (low : programChunks heapStart ≤ i) :
    ClientInv heapStart (withoutBlock s b.1 i) := by
  constructor
  · exact inv.clear.release i
  · intro some
    have other : 0 ≠ i := by omega
    rw [withoutBlock_allocations, update_of_ne other]
    exact inv.program some
  · intro c kept
    obtain ⟨before, different⟩ := mem_withoutBlock.mp kept
    obtain ⟨j, base', above, header, rest⟩ := inv.held c before
    have other : j ≠ i := by
      rintro rfl
      exact different (base'.trans base.symm)
    refine ⟨j, base', above, ?_, rest⟩
    rw [withoutBlock_allocations, update_of_ne other]
    exact header
  · intro j small block
    rw [withoutBlock_allocations] at block ⊢
    by_cases here : j = i
    · rw [here, update_self] at block
      exact absurd rfl block
    · rw [update_of_ne here] at block
      rcases inv.owned j small block with ⟨rfl, header⟩ | ⟨c, before, base'⟩
      · rw [update_of_ne here]
        exact Or.inl ⟨rfl, header⟩
      · refine Or.inr ⟨c, mem_withoutBlock.mpr ⟨before, ?_⟩, base'⟩
        rw [base', base]
        exact fun same => here (base_inj small inside same)
  · exact inv.distinct.sublist (List.filter_sublist.map _)

theorem ClientInv.allocate (above : minHeapStart ≤ heapStart.toNat) {first : Nat}
    (positive : 0 < mallocChunks size) (fit : FirstFit allocationsSize s.mem.allocations (mallocChunks size) first) :
    ClientInv heapStart ⟨withBlock s.mem size first, (BitVec.ofNat 16 (chunkBase first), size) :: s.returned⟩ := by
  have room := fit.room
  have inside : first < allocationsSize := by omega
  have zero : s.mem.allocations first = 0 := fit.free.zero first le_rfl (by omega)
  have allocations : (withBlock s.mem size first).allocations =
      update s.mem.allocations first (mallocChunks size) := mapPages_allocations _ _ _
  have low : programChunks heapStart ≤ first :=
    (programChunks_le_iff above).mpr ((inv.freeRun_iff above positive room).mp fit.free first le_rfl (by omega)).1
  constructor
  · rw [allocations]
    exact inv.clear.allocate fit.free
  · intro some
    have other : 0 ≠ first := by omega
    rw [allocations, update_of_ne other]
    exact inv.program some
  · intro b member
    rw [allocations]
    rcases List.mem_cons.mp member with rfl | before
    · exact ⟨first, rfl, low, update_self .., positive, room⟩
    · obtain ⟨i, base, above', header, some, room'⟩ := inv.held b before
      have other : i ≠ first := by
        rintro rfl
        omega
      refine ⟨i, base, above', ?_, some, room'⟩
      rw [update_of_ne other]
      exact header
  · intro i small block
    rw [allocations] at block ⊢
    by_cases here : i = first
    · exact Or.inr ⟨_, List.mem_cons_self, by rw [here]⟩
    · rw [update_of_ne here] at block
      rcases inv.owned i small block with ⟨rfl, header⟩ | ⟨b, before, base⟩
      · rw [update_of_ne here]
        exact Or.inl ⟨rfl, header⟩
      · exact Or.inr ⟨b, List.mem_cons_of_mem _ before, base⟩
  · refine List.nodup_cons.mpr ⟨?_, inv.distinct⟩
    intro again
    obtain ⟨b, before, same⟩ := List.mem_map.mp again
    obtain ⟨i, base, small, -, header, some, -⟩ := inv.extent before
    obtain rfl := base_inj inside small (same.symm.trans base)
    omega

theorem ClientInv.serves (above : minHeapStart ≤ heapStart.toNat) : HeapServes heapStart s where
  toSafe := inv.safe above
  null_iff _ nonzero := inv.null_iff above nonzero
  frees b member := by
    obtain ⟨i, -, -, -, taken⟩ := inv.free_step member
    exact ⟨_, taken⟩

end

theorem clientStep_keeps (above : minHeapStart ≤ heapStart.toNat) (s : Process) (call : Call) (s' : Process)
    (inv : ClientInv heapStart s) (action : clientStep s call = some s') : ClientInv heapStart s' := by
  cases call with
  | malloc size =>
    have taken : step s (.malloc size) = some s' := action
    cases steps inv.clear taken with
    | null _ none => exact inv
    | block _ first positive fit => exact inv.allocate above positive fit
  | free ptr =>
    by_cases held : ptr ∈ s.returned.map Prod.fst
    · obtain ⟨b, member, rfl⟩ := List.mem_map.mp held
      obtain ⟨i, base, inside, low, taken⟩ := inv.free_step member
      obtain rfl := Option.some.inj (taken.symm.trans action)
      exact inv.release base inside low
    · simp [clientStep, held] at action

theorem start_clientInv (above : minHeapStart ≤ heapStart.toNat) (memPagesMapped : Word) :
    ClientInv heapStart (start heapStart memPagesMapped) := by
  have first : (start heapStart memPagesMapped).mem.allocations =
      update (fun _ => 0) 0 (programChunks heapStart) := by
    have wide := heapStart.isLt
    have sum : (heapStart - BitVec.ofNat 16 minHeapStart + BitVec.ofNat 16 (memoryChunk - 1)).toNat =
        heapStart.toNat - minHeapStart + (memoryChunk - 1) := by
      simp only [minHeapStart, memoryChunk, BitVec.toNat_add, BitVec.toNat_sub, BitVec.toNat_ofNat] at above ⊢
      omega
    rw [programChunks, ← sum]
    rfl
  constructor
  · exact (start_inv heapStart memPagesMapped).clear
  · intro _
    rw [first, update_self]
  · exact fun b member => absurd member List.not_mem_nil
  · intro i _ block
    left
    rw [first] at block ⊢
    by_cases zero : i = 0
    · exact ⟨zero, update_self ..⟩
    · rw [update_of_ne zero] at block
      exact absurd rfl block
  · exact List.nodup_nil

end Invariant

theorem malloc_serves (heapStart memPagesMapped : Word) (above : 0x1D00 ≤ heapStart) (calls : List Call) :
    Throughout clientStep (HeapServes heapStart) (start heapStart memPagesMapped) calls := by
  have above : minHeapStart ≤ heapStart.toNat := above
  apply throughout_mono fun s (inv : ClientInv heapStart s) => inv.serves above
  exact throughout_invariant (clientStep_keeps above) (start_clientInv above memPagesMapped)

theorem malloc_serves_reuse :
    (run clientStep (start 0x1e10 0x8001) [.malloc 40, .malloc 0xffff, .malloc 5, .free 0x1e20, .malloc 64]).map
      Process.returned = some [(0x1e20, 64), (0x1e60, 5)] ∧
    Throughout clientStep (HeapServes 0x1e10) (start 0x1e10 0x8001)
      [.malloc 40, .malloc 0xffff, .malloc 5, .free 0x1e20, .malloc 64] :=
  ⟨by decide +kernel, malloc_serves _ _ (by decide) _⟩

end PiOS.Proof.Malloc
