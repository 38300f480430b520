import PiOS.Blocks.FirstFit
import PiOS.Kernel.Libk.Kmalloc
import PiOS.Transition.Run

namespace PiOS.Proof.Heap
open Kernel Blocks Transition Function

structure HeapState where
  memory : HeapMemory
  live : List (Nat × Word)

inductive HeapOp
  | kmalloc (size : Word)
  | kfree (ptr : Nat)
  deriving DecidableEq

def initHeap : HeapState := ⟨initMalloc, []⟩

def heapStep (s : HeapState) : HeapOp → Option HeapState
  | .kmalloc size =>
    match kmalloc s.memory size with
    | .ok (ptr, memory) => some ⟨memory, (ptr, size) :: s.live⟩
    | .error _ => none
  | .kfree ptr =>
    if ptr ∈ s.live.map Prod.fst then
      match kfree s.memory ptr with
      | .ok memory => some ⟨memory, s.live.filter fun b => b.1 ≠ ptr⟩
      | .error _ => none
    else
      none

def blockBytes (memory : HeapMemory) (ptr : Nat) : Nat :=
  memory ((ptr - kernelHeapStart) / chunkSize) * chunkSize

structure HeapSafe (s : HeapState) : Prop where
  tiling : ∀ i < heapArrSize, s.memory i ≠ 0 →
    i + s.memory i ≤ heapArrSize ∧ ∀ j, i < j → j < i + s.memory i → s.memory j = 0
  aligned : ∀ b ∈ s.live, b.1 % 8 = 0
  inside : ∀ b ∈ s.live, 0xA000 ≤ b.1 ∧ b.1 + blockBytes s.memory b.1 ≤ 0xE3FF
  large : ∀ b ∈ s.live, b.2.toNat + 1 ≤ blockBytes s.memory b.1
  disjoint : s.live.Pairwise fun b c =>
    b.1 + blockBytes s.memory b.1 ≤ c.1 ∨ c.1 + blockBytes s.memory c.1 ≤ b.1

theorem heapArrSize_eq : heapArrSize = 2175 := by decide

theorem sizeInChunks_bound (size : Word) : sizeInChunks size = 0 ∨ size.toNat + 1 ≤ sizeInChunks size * chunkSize := by
  unfold sizeInChunks chunkSize
  have small := size.isLt
  simp only [BitVec.toNat_add, BitVec.toNat_ofNat]
  omega

theorem kmallocScan_eq (memory : HeapMemory) (chunks fuel freeChunks currentChunk : Nat) :
    kmallocScan memory chunks fuel freeChunks currentChunk =
      scan heapArrSize memory chunks fuel freeChunks currentChunk := by
  induction fuel generalizing freeChunks currentChunk with
  | zero => rfl
  | succ fuel ih => simp only [kmallocScan, scan, ih]

variable {memory : HeapMemory} {size : Word} {b c : Nat × Word} {s s' : HeapState} {op : HeapOp} {ptr : Nat}

theorem kmallocScan_fits (tiling : Tiling heapArrSize memory) {chunks first : Nat}
    (found : kmallocScan memory chunks heapArrSize 0 0 = some first) :
    0 < chunks ∧ FirstFit heapArrSize memory chunks first := by
  rw [kmallocScan_eq] at found
  have positive : 0 < chunks := by
    apply Nat.pos_of_ne_zero
    rintro rfl
    rw [scan_zero] at found
    cases found
  exact ⟨positive, (scan_eq_some_iff tiling.clear positive).mp found⟩

def chunkOf (ptr : Nat) : Nat := (ptr - kernelHeapStart) / chunkSize

theorem chunkOf_ptr (i : Nat) : chunkOf (kernelHeapStart + i * chunkSize) = i := by
  unfold chunkOf kernelHeapStart chunkSize
  omega

structure HeapInv (s : HeapState) : Prop where
  tiling : Tiling heapArrSize s.memory
  start : ∀ b ∈ s.live, b.1 = kernelHeapStart + chunkOf b.1 * chunkSize ∧ chunkOf b.1 < heapArrSize
  header : ∀ b ∈ s.live, s.memory (chunkOf b.1) = sizeInChunks b.2 ∧ sizeInChunks b.2 ≠ 0
  distinct : (s.live.map Prod.fst).Nodup

theorem heapInv_init : HeapInv initHeap where
  tiling := tiling_zero _
  start := by simp [initHeap]
  header := by simp [initHeap]
  distinct := by simp [initHeap]

theorem kmalloc_ok {memory' : HeapMemory}
    (action : kmalloc memory size = .ok (ptr, memory')) (tiling : Tiling heapArrSize memory) :
    ∃ first, ptr = kernelHeapStart + first * chunkSize ∧
      memory' = update memory first (sizeInChunks size) ∧ sizeInChunks size ≠ 0 ∧
      first + sizeInChunks size ≤ heapArrSize ∧ FreeRun heapArrSize memory first (first + sizeInChunks size) := by
  unfold kmalloc at action
  split at action
  · rename_i first found
    simp only [Except.ok.injEq, Prod.mk.injEq] at action
    obtain ⟨positive, fit⟩ := kmallocScan_fits tiling found
    exact ⟨first, action.1.symm, action.2.symm, positive.ne', fit.room, fit.free⟩
  · contradiction

theorem kfree_ok {i : Nat} (small : i < heapArrSize) :
    kfree memory (kernelHeapStart + i * chunkSize) = .ok (update memory i 0) := by
  have chunk := chunkOf_ptr i
  have bound : ¬ (kernelHeapStart + i * chunkSize < kernelHeapStart ∨
      kernelHeapStart + i * chunkSize > kernelHeapEnd) := by
    rw [heapArrSize_eq] at small
    unfold kernelHeapStart kernelHeapEnd chunkSize
    omega
  unfold chunkOf at chunk
  simp only [kfree, bound, if_false, chunk, small, if_true]

theorem HeapInv.eq_of_chunkOf (inv : HeapInv s)
    (memberB : b ∈ s.live) (memberC : c ∈ s.live) (same : chunkOf b.1 = chunkOf c.1) : b.1 = c.1 := by
  have placeB := (inv.start b memberB).1
  rw [same] at placeB
  exact placeB.trans (inv.start c memberC).1.symm

section

variable (inv : HeapInv s) (action : heapStep s op = some s')
include inv action

theorem heapStep_cases :
    (∃ size first, op = .kmalloc size ∧ sizeInChunks size ≠ 0 ∧ first + sizeInChunks size ≤ heapArrSize ∧
      FreeRun heapArrSize s.memory first (first + sizeInChunks size) ∧ s' = ⟨update s.memory first (sizeInChunks size),
        (kernelHeapStart + first * chunkSize, size) :: s.live⟩) ∨ (∃ b ∈ s.live, op = .kfree b.1 ∧
      s' = ⟨update s.memory (chunkOf b.1) 0, s.live.filter fun c => c.1 ≠ b.1⟩) := by
  cases op with
  | kmalloc size =>
    simp only [heapStep] at action
    split at action
    · rename_i ptr memory allocated
      obtain ⟨first, rfl, rfl, positive, room, free⟩ := kmalloc_ok allocated inv.tiling
      exact Or.inl ⟨size, first, rfl, positive, room, free, (Option.some.inj action).symm⟩
    · contradiction
  | kfree ptr =>
    simp only [heapStep] at action
    split at action
    · rename_i held
      obtain ⟨b, member, rfl⟩ := List.mem_map.mp held
      obtain ⟨place, small⟩ := inv.start b member
      have freed : kfree s.memory b.1 = .ok (update s.memory (chunkOf b.1) 0) := by
        conv_lhs => rw [place]
        exact kfree_ok small
      rw [freed] at action
      exact Or.inr ⟨b, member, rfl, (Option.some.inj action).symm⟩
    · contradiction

theorem heapStep_header (before : b ∈ s.live) (after : b ∈ s'.live) :
    s'.memory (chunkOf b.1) = s.memory (chunkOf b.1) := by
  obtain ⟨header, positive⟩ := inv.header b before
  rcases heapStep_cases inv action with ⟨size, first, -, chunks, room, free, rfl⟩ | ⟨c, member, -, rfl⟩
  · have elsewhere : chunkOf b.1 ≠ first := by
      intro same
      have zero := free.zero first le_rfl (by omega)
      rw [← same, header] at zero
      exact positive zero
    simp only [update_of_ne elsewhere]
  · have different : b.1 ≠ c.1 := by simpa using (List.mem_filter.mp after).2
    have elsewhere : chunkOf b.1 ≠ chunkOf c.1 :=
      fun same => different (inv.eq_of_chunkOf before member same)
    simp only [update_of_ne elsewhere]

theorem heapStep_inv : HeapInv s' := by
  have frame := fun b before after => heapStep_header (b := b) inv action before after
  rcases heapStep_cases inv action with ⟨size, first, -, chunks, room, free, rfl⟩ | ⟨c, member, -, rfl⟩
  · have fresh : ∀ b ∈ s.live, b.1 ≠ kernelHeapStart + first * chunkSize := by
      intro b before same
      obtain ⟨header, positive⟩ := inv.header b before
      rw [same, chunkOf_ptr, free.zero first le_rfl (by omega)] at header
      exact positive header.symm
    refine ⟨inv.tiling.allocate free room, ?_, ?_, ?_⟩
    · intro b after
      rcases List.mem_cons.mp after with rfl | before
      · simp only [chunkOf_ptr, true_and]
        omega
      · exact inv.start b before
    · intro b after
      rcases List.mem_cons.mp after with rfl | before
      · simpa only [chunkOf_ptr, update_self, true_and] using chunks
      · exact ⟨(frame b before after).trans (inv.header b before).1, (inv.header b before).2⟩
    · refine List.nodup_cons.mpr ⟨?_, inv.distinct⟩
      intro held
      obtain ⟨b, before, same⟩ := List.mem_map.mp held
      exact fresh b before same
  · refine ⟨inv.tiling.release _, ?_, ?_, ?_⟩
    · intro b after
      exact inv.start b (List.mem_filter.mp after).1
    · intro b after
      have before := (List.mem_filter.mp after).1
      exact ⟨(frame b before after).trans (inv.header b before).1, (inv.header b before).2⟩
    · exact inv.distinct.sublist (List.filter_sublist.map _)

end

section Clients

variable {memory memory' : HeapMemory} {live live' : List (Nat × Word)}

variable {ptr : Nat} {size : Word}

theorem HeapInv.kmalloc (inv : HeapInv ⟨memory, live⟩) (action : Kernel.kmalloc memory size = .ok (ptr, memory')) :
    HeapInv ⟨memory', (ptr, size) :: live⟩ := by
  have taken : heapStep ⟨memory, live⟩ (.kmalloc size) = some ⟨memory', (ptr, size) :: live⟩ := by
    simp [heapStep, action]
  exact heapStep_inv inv taken

theorem HeapInv.kfree (inv : HeapInv ⟨memory, live⟩) (held : ptr ∈ live.map Prod.fst)
    (action : Kernel.kfree memory ptr = .ok memory') : HeapInv ⟨memory', live.filter fun b => b.1 ≠ ptr⟩ := by
  have taken : heapStep ⟨memory, live⟩ (.kfree ptr) =
      some ⟨memory', live.filter fun b => b.1 ≠ ptr⟩ := by
    simp only [heapStep, held, if_true, action]
  exact heapStep_inv inv taken

theorem HeapInv.perm (inv : HeapInv ⟨memory, live⟩) (same : live.Perm live') :
    HeapInv ⟨memory, live'⟩ where
  tiling := inv.tiling
  start b member := inv.start b (same.mem_iff.mpr member)
  header b member := inv.header b (same.mem_iff.mpr member)
  distinct := (same.map Prod.fst).nodup inv.distinct

theorem HeapInv.tail {b : Nat × Word} (inv : HeapInv ⟨memory, b :: live⟩) :
    HeapInv ⟨memory, live⟩ where
  tiling := inv.tiling
  start c member := inv.start c (List.mem_cons_of_mem b member)
  header c member := inv.header c (List.mem_cons_of_mem b member)
  distinct := (List.nodup_cons.mp inv.distinct).2

theorem HeapInv.free (inv : HeapInv ⟨memory, (ptr, size) :: live⟩) :
    ∃ memory', Kernel.kfree memory ptr = .ok memory' ∧ HeapInv ⟨memory', live⟩ := by
  obtain ⟨place, small⟩ := inv.start _ List.mem_cons_self
  have freed : Kernel.kfree memory ptr = .ok (update memory (chunkOf ptr) 0) := by
    conv_lhs => rw [show ptr = _ from place]
    exact kfree_ok small
  have others : ((ptr, size) :: live).filter (fun b => b.1 ≠ ptr) = live := by
    rw [List.filter_cons_of_neg (by simp), List.filter_eq_self]
    intro b member
    have different := (List.nodup_cons.mp inv.distinct).1
    rw [decide_eq_true_iff]
    intro same
    exact different (List.mem_map.mpr ⟨b, member, same⟩)
  have after := inv.kfree (by simp) freed
  rw [others] at after
  exact ⟨_, freed, after⟩

theorem HeapInv.freed (inv : HeapInv ⟨memory, (ptr, size) :: live⟩) (freed : Kernel.kfree memory ptr = .ok memory') :
    HeapInv ⟨memory', live⟩ := by
  obtain ⟨memory'', same, after⟩ := inv.free
  obtain rfl : memory' = memory'' := Except.ok.inj (freed.symm.trans same)
  exact after

end Clients

theorem HeapInv.chunks_nodup (inv : HeapInv s) : (s.live.map fun b => chunkOf b.1).Nodup := by
  refine List.Nodup.map_on ?_ (List.Nodup.of_map Prod.fst inv.distinct)
  intro b memberB c memberC same
  exact List.inj_on_of_nodup_map inv.distinct memberB memberC (inv.eq_of_chunkOf memberB memberC same)

theorem HeapInv.chunks_subset (inv : HeapInv s) :
    (s.live.map fun b => chunkOf b.1).toFinset ⊆ Finset.range heapArrSize := by
  intro c member
  obtain ⟨b, live, rfl⟩ := List.mem_map.mp (List.mem_toFinset.mp member)
  exact Finset.mem_range.mpr (inv.start b live).2

theorem HeapInv.length_le (inv : HeapInv s) : s.live.length ≤ heapArrSize := by
  have count := Finset.card_le_card inv.chunks_subset
  rw [List.toFinset_card_of_nodup inv.chunks_nodup, Finset.card_range] at count
  simpa using count

section Several

def kmallocAll : HeapMemory → List Word → Except Stop HeapMemory
  | heap, [] => .ok heap
  | heap, size :: sizes => do
    let (_, heap) ← kmalloc heap size
    kmallocAll heap sizes

variable {heap : HeapMemory} {sizes : List Word} {stop : Stop}

theorem kmalloc_stops {size : Word} (failed : kmalloc heap size = .error stop) :
    stop = .panic "kmalloc: out of memory" := by
  unfold kmalloc at failed
  split at failed
  · cases failed
  · exact (Except.error.inj failed).symm

theorem kmallocAll_stops (failed : kmallocAll heap sizes = .error stop) : stop = .panic "kmalloc: out of memory" := by
  induction sizes generalizing heap with
  | nil => cases failed
  | cons size sizes ih =>
    unfold kmallocAll at failed
    cases allocated : kmalloc heap size with
    | error e =>
      rw [allocated] at failed
      cases failed
      exact kmalloc_stops allocated
    | ok out =>
      rw [allocated] at failed
      exact ih failed

theorem kmallocAll_append (heap : HeapMemory) (sizes sizes' : List Word) :
    kmallocAll heap (sizes ++ sizes') = (kmallocAll heap sizes).bind fun heap => kmallocAll heap sizes' := by
  induction sizes generalizing heap with
  | nil => rfl
  | cons size sizes ih =>
    rw [List.cons_append, kmallocAll, kmallocAll]
    cases kmalloc heap size with
    | error e => rfl
    | ok out => exact ih out.2

theorem HeapInv.kmallocAll_le {heap' : HeapMemory} {live : List (Nat × Word)}
    (inv : HeapInv ⟨heap, live⟩) (served : kmallocAll heap sizes = .ok heap') :
    live.length + sizes.length ≤ heapArrSize := by
  induction sizes generalizing heap live with
  | nil => exact inv.length_le
  | cons size sizes ih =>
    unfold kmallocAll at served
    cases allocated : Kernel.kmalloc heap size with
    | error stop =>
      rw [allocated] at served
      cases served
    | ok out =>
      rw [allocated] at served
      have more := ih (inv.kmalloc allocated) served
      rw [List.length_cons] at more ⊢
      omega

end Several

theorem HeapInv.count_le (inv : HeapInv s) {ptrs : List Nat}
    (held : ∀ ptr ∈ ptrs, (ptr, size) ∈ s.live) (distinct : ptrs.Nodup) :
    ptrs.length * sizeInChunks size ≤ heapArrSize := by
  have chunks : (ptrs.map chunkOf).Nodup := by
    refine List.Nodup.map_on ?_ distinct
    intro a memberA b memberB same
    exact inv.eq_of_chunkOf (held a memberA) (held b memberB) same
  have header : ∀ c ∈ (ptrs.map chunkOf).toFinset, s.memory c = sizeInChunks size := by
    intro c member
    obtain ⟨ptr, there, rfl⟩ := List.mem_map.mp (List.mem_toFinset.mp member)
    exact (inv.header _ (held ptr there)).1
  have room := inv.tiling.sum_le (ptrs.map chunkOf).toFinset fun c member => by
    obtain ⟨ptr, there, rfl⟩ := List.mem_map.mp (List.mem_toFinset.mp member)
    rw [header _ member]
    exact ⟨(inv.start _ (held ptr there)).2, (inv.header _ (held ptr there)).2⟩
  rw [Finset.sum_congr rfl header, Finset.sum_const, List.toFinset_card_of_nodup chunks] at room
  simpa using room

theorem HeapInv.blockBytes_eq (inv : HeapInv s)
    (member : b ∈ s.live) : blockBytes s.memory b.1 = sizeInChunks b.2 * chunkSize := by
  unfold blockBytes
  rw [← (inv.header b member).1]
  rfl

theorem HeapInv.apart (inv : HeapInv s) (memberB : b ∈ s.live) (memberC : c ∈ s.live) (different : b.1 ≠ c.1) :
    b.1 + blockBytes s.memory b.1 ≤ c.1 ∨ c.1 + blockBytes s.memory c.1 ≤ b.1 := by
  obtain ⟨placeB, smallB⟩ := inv.start b memberB
  obtain ⟨placeC, smallC⟩ := inv.start c memberC
  obtain ⟨headerB, positiveB⟩ := inv.header b memberB
  obtain ⟨headerC, positiveC⟩ := inv.header c memberC
  have chunks : chunkOf b.1 ≠ chunkOf c.1 :=
    fun same => different (inv.eq_of_chunkOf memberB memberC same)
  have order := inv.tiling.apart smallB smallC (headerB ▸ positiveB) (headerC ▸ positiveC) chunks
  rw [inv.blockBytes_eq memberB, inv.blockBytes_eq memberC, placeB, placeC]
  rw [headerB, headerC] at order
  unfold chunkSize
  omega

theorem HeapInv.safe (inv : HeapInv s) : HeapSafe s where
  tiling i small start := ⟨inv.tiling.fits i small start, inv.tiling.clear i small start⟩
  aligned b member := by
    rw [(inv.start b member).1]
    unfold kernelHeapStart chunkSize
    omega
  inside b member := by
    obtain ⟨place, small⟩ := inv.start b member
    obtain ⟨header, positive⟩ := inv.header b member
    have fits := inv.tiling.fits _ small (header ▸ positive)
    rw [inv.blockBytes_eq member, place]
    rw [header, heapArrSize_eq] at fits
    unfold kernelHeapStart chunkSize
    omega
  large b member := by
    rw [inv.blockBytes_eq member]
    exact (sizeInChunks_bound b.2).resolve_left (inv.header b member).2
  disjoint := by
    refine List.Pairwise.imp_of_mem ?_ (List.pairwise_map.mp inv.distinct)
    intro b c memberB memberC different
    exact inv.apart memberB memberC different

theorem HeapInv.bytes_apart {h : HeapState} (inv : HeapInv h) (memberB : b ∈ h.live) (memberC : c ∈ h.live)
    (different : b.1 ≠ c.1) : b.1 + b.2.toNat ≤ c.1 ∨ c.1 + c.2.toNat ≤ b.1 := by
  have largeB := inv.safe.large b memberB
  have largeC := inv.safe.large c memberC
  have apart := inv.apart memberB memberC different
  omega

theorem HeapInv.new_apart {live : List (Nat × Word)}
    (inv : HeapInv ⟨memory, (ptr, size) :: live⟩) (member : b ∈ live) :
    b.1 + b.2.toNat ≤ ptr ∨ ptr + size.toNat ≤ b.1 := by
  apply HeapInv.bytes_apart (b := b) (c := (ptr, size)) inv (List.mem_cons_of_mem _ member) List.mem_cons_self
  intro same
  apply (List.nodup_cons.mp inv.distinct).1
  exact List.mem_map.mpr ⟨b, member, same⟩

theorem heap_safe_of_run (ops : List HeapOp) (s : HeapState)
    (reached : run heapStep initHeap ops = some s) :
    HeapSafe s ∧
    (∀ b ∈ s.live, ∃ s', heapStep s (.kfree b.1) = some s') ∧
    ∀ op s', heapStep s op = some s' → ∀ b ∈ s.live, b ∈ s'.live →
      blockBytes s'.memory b.1 = blockBytes s.memory b.1 := by
  have inv : HeapInv s := run_invariant (fun _ _ _ => heapStep_inv) heapInv_init reached
  refine ⟨inv.safe, ?_, ?_⟩
  · intro b member
    obtain ⟨place, small⟩ := inv.start b member
    have freed : kfree s.memory b.1 = .ok (update s.memory (chunkOf b.1) 0) := by
      conv_lhs => rw [place]
      exact kfree_ok small
    have held : b.1 ∈ s.live.map Prod.fst := List.mem_map_of_mem member
    exact ⟨_, by simp only [heapStep, held, if_true, freed]; rfl⟩
  · intro op s' action b before after
    have header := heapStep_header inv action before after
    unfold chunkOf at header
    simp only [blockBytes, header]

theorem heap_safe_of_run_reuse :
    ∃ s, run heapStep initHeap [.kmalloc 340, .kmalloc 5, .kfree 0xA000, .kmalloc 100] = some s ∧
      s.live = [(0xA000, 100), (0xA158, 5)] ∧ HeapSafe s := by
  have pointers : (run heapStep initHeap
      [.kmalloc 340, .kmalloc 5, .kfree 0xA000, .kmalloc 100]).map HeapState.live =
      some [(0xA000, 100), (0xA158, 5)] := by decide
  obtain ⟨s, reached, live⟩ := Option.map_eq_some_iff.mp pointers
  exact ⟨s, reached, live, (heap_safe_of_run _ s reached).1⟩

end PiOS.Proof.Heap
