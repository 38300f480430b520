import PiOS.Kernel.Libk.Math
import PiOS.Kernel.Proc.Virtual
import PiOS.Memory.Store

namespace PiOS.Proof
open Kernel Memory

def flat (phys : PhysMem) (x : Word × Word) : Byte := phys x.1 x.2

def placeOf (memPages : Fin 16 → Word) (addr : Word) : Word × Word :=
  (memPages (virtPagePart addr), virtLocalPart addr)

def userBytes (phys : PhysMem) (memPages : Fin 16 → Word) (ubuff : Word) (count : Nat) : List Byte :=
  (List.range count).map fun j => flat phys (placeOf memPages (ubuff + BitVec.ofNat 16 j))

variable {phys : PhysMem} {memPages : Fin 16 → Word} {page start ubuff size : Word} {bytes : List Byte}

theorem mapPageZero_procs (k : KernelState) (page : Word) : ∃ procs, k.mapPageZero page = { k with procs := procs } := by
  unfold KernelState.mapPageZero
  split
  · exact ⟨_, rfl⟩
  · exact ⟨k.procs, rfl⟩

theorem afterChunks_procs (k : KernelState) (chunks : List UserChunk) :
    ∃ procs, k.afterChunks chunks = { k with procs := procs } := by
  have mapped : ∀ k : KernelState,
      ∃ procs, chunks.foldl (fun k c => k.mapPageZero c.page) k = { k with procs := procs } := by
    induction chunks with
    | nil => exact fun k => ⟨k.procs, rfl⟩
    | cons c chunks ih =>
      intro k
      obtain ⟨first, same⟩ := mapPageZero_procs k c.page
      obtain ⟨procs, rest⟩ := ih (k.mapPageZero c.page)
      exact ⟨procs, by rw [List.foldl_cons, rest, same]⟩
  obtain ⟨first, same⟩ := mapped k
  obtain ⟨procs, last⟩ := mapPageZero_procs { k with procs := first } (KernelState.currentPageZero { k with procs := first })
  exact ⟨procs, by rw [KernelState.afterChunks, same, last]⟩

theorem placeOf_add {j : Nat} (inPage : (virtLocalPart ubuff).toNat + j < pageSize) :
    placeOf memPages (ubuff + BitVec.ofNat 16 j) =
      (memPages (virtPagePart ubuff), virtLocalPart ubuff + BitVec.ofNat 16 j) := by
  have bound := ubuff.isLt
  rw [virtLocalPart_toNat, pageSize] at inPage
  have small : (BitVec.ofNat 16 j).toNat = j := word_ofNat_toNat (by omega)
  have moved : (ubuff + BitVec.ofNat 16 j).toNat = ubuff.toNat + j := by
    rw [word_add_toNat (by omega), small]
  have samePage : virtPagePart (ubuff + BitVec.ofNat 16 j) = virtPagePart ubuff := by
    apply Fin.ext
    rw [virtPagePart_toNat, virtPagePart_toNat, moved]
    omega
  have place : virtLocalPart (ubuff + BitVec.ofNat 16 j) = virtLocalPart ubuff + BitVec.ofNat 16 j := by
    apply BitVec.eq_of_toNat_eq
    rw [virtLocalPart_toNat, moved, word_add_toNat (by rw [virtLocalPart_toNat]; omega), virtLocalPart_toNat, small]
    omega
  rw [placeOf, samePage, place]

theorem placeOf_apart {base : Word} {a b : Nat} (nearA : a < pageSize) (nearB : b < pageSize)
    (same : placeOf memPages (base + BitVec.ofNat 16 a) = placeOf memPages (base + BitVec.ofNat 16 b)) : a = b := by
  have locals := congrArg (fun place : Word × Word => place.2.toNat) same
  simp only [placeOf, virtLocalPart_toNat, BitVec.toNat_add, BitVec.toNat_ofNat] at locals
  unfold pageSize at nearA nearB
  omega

theorem flat_writePage (fits : start.toNat + bytes.length ≤ 0x10000) : flat (writePage phys page start bytes) =
      storeAll (flat phys) (fun j => (page, start + BitVec.ofNat 16 j)) bytes := by
  have apart : ∀ i < bytes.length, ∀ j < bytes.length,
      (page, start + BitVec.ofNat 16 i) = (page, start + BitVec.ofNat 16 j) → i = j := by
    intro i inI j inJ same
    exact cells_apart (by omega) (by omega) (Prod.mk.inj same).2
  have placed : ∀ j < bytes.length, (start + BitVec.ofNat 16 j).toNat = start.toNat + j := by
    intro j inside
    rw [word_add_toNat, word_ofNat_toNat (by omega)]
    rw [word_ofNat_toNat (by omega)]
    omega
  funext ⟨q, a⟩
  by_cases hit : ∃ j < bytes.length, (page, start + BitVec.ofNat 16 j) = (q, a)
  · obtain ⟨j, inside, same⟩ := hit
    rw [← same, storeAll_apply inside fun i inI same => (apart i inI j inside same).le, flat, writePage, placed j inside,
      if_pos ⟨rfl, Nat.le_add_right _ _⟩, Nat.add_sub_cancel_left, List.getD_eq_getElem?_getD,
      List.getElem?_eq_getElem inside, Option.getD_some]
  · rw [storeAll_outside fun j inside same => hit ⟨j, inside, same⟩, flat, writePage]
    split
    · rename_i inPage
      obtain ⟨rfl, after⟩ := inPage
      have beyond : bytes.length ≤ a.toNat - start.toNat := by
        by_contra inside
        rw [Nat.not_le] at inside
        apply hit
        refine ⟨a.toNat - start.toNat, inside, Prod.ext rfl (BitVec.eq_of_toNat_eq ?_)⟩
        rw [placed _ inside]
        exact Nat.add_sub_cancel' after
      rw [List.getD_eq_getElem?_getD, List.getElem?_eq_none beyond]
      rfl
    · rfl

theorem chunk_count (ubuff : Word) (some : size ≠ 0) : 0 < min size.toNat (pageSize - (virtLocalPart ubuff).toNat) ∧
      min size.toNat (pageSize - (virtLocalPart ubuff).toNat) ≤ size.toNat ∧
      (virtLocalPart ubuff).toNat + min size.toNat (pageSize - (virtLocalPart ubuff).toNat) ≤ pageSize ∧
      (size - BitVec.ofNat 16 (min size.toNat (pageSize - (virtLocalPart ubuff).toNat))).toNat =
        size.toNat - min size.toNat (pageSize - (virtLocalPart ubuff).toNat) := by
  have positive : 0 < size.toNat := word_pos some
  have bound := size.isLt
  have room : (virtLocalPart ubuff).toNat < pageSize := by
    rw [virtLocalPart_toNat, pageSize]
    omega
  refine ⟨by omega, by omega, by omega, ?_⟩
  rw [word_sub_toNat, word_ofNat_toNat (by omega)]
  rw [word_ofNat_toNat (by omega)]
  omega

theorem flat_writeUser (fuel : Nat) (enough : size.toNat ≤ fuel) :
    flat (writeUser phys (userChunks memPages fuel ubuff size) bytes) =
      storeAll (flat phys) (fun j => placeOf memPages (ubuff + BitVec.ofNat 16 j)) (bytes.take size.toNat) := by
  induction fuel generalizing phys ubuff size bytes with
  | zero =>
    rw [Nat.le_zero.mp enough]
    rfl
  | succ fuel ih =>
    rw [userChunks]
    split
    · rename_i none
      rw [none]
      rfl
    · rename_i some
      obtain ⟨positive, within, inPage, left⟩ := chunk_count ubuff some
      dsimp only
      generalize min size.toNat (pageSize - (virtLocalPart ubuff).toNat) = n at *
      have inChunk : (bytes.take n).length ≤ n := by
        rw [List.length_take]
        exact Nat.min_le_left _ _
      have all : bytes.take size.toNat = bytes.take n ++ (bytes.drop n).take (size.toNat - n) := by
        rw [← List.take_add, Nat.add_sub_cancel' (by omega)]
      have chunk : flat (writePage phys (memPages (virtPagePart ubuff)) (virtLocalPart ubuff) (bytes.take n)) =
          storeAll (flat phys) (fun j => placeOf memPages (ubuff + BitVec.ofNat 16 j)) (bytes.take n) := by
        rw [flat_writePage (by unfold pageSize at inPage; omega)]
        apply storeAll_congr
        intro j inside
        exact (placeOf_add (by omega)).symm
      rw [writeUser, ih (by omega), left, all, storeAll_append, chunk]
      apply storeAll_congr
      intro j inside
      dsimp only at inside
      have full : (bytes.take n).length = n := by
        rw [List.length_take, List.length_drop] at inside
        rw [List.length_take]
        omega
      rw [full, BitVec.ofNat_add, BitVec.add_assoc]

theorem userBytes_length (phys : PhysMem) (memPages : Fin 16 → Word) (v : Word) (n : Nat) :
    (userBytes phys memPages v n).length = n := by
  simp [userBytes]

theorem userBytes_append (n m : Nat) : userBytes phys memPages ubuff (n + m) =
      userBytes phys memPages ubuff n ++ userBytes phys memPages (ubuff + BitVec.ofNat 16 n) m := by
  rw [userBytes, List.range_add, List.map_append, List.map_map, userBytes, userBytes]
  congr 1
  apply List.map_congr_left
  intro j _
  rw [Function.comp_apply, BitVec.ofNat_add, BitVec.add_assoc]

theorem readUser_eq (fuel : Nat) (enough : size.toNat ≤ fuel) :
    readUser phys (userChunks memPages fuel ubuff size) = userBytes phys memPages ubuff size.toNat := by
  induction fuel generalizing ubuff size with
  | zero =>
    rw [Nat.le_zero.mp enough]
    rfl
  | succ fuel ih =>
    rw [userChunks]
    split
    · rename_i none
      rw [none]
      rfl
    · rename_i some
      obtain ⟨positive, within, inPage, left⟩ := chunk_count ubuff some
      dsimp only
      generalize min size.toNat (pageSize - (virtLocalPart ubuff).toNat) = n at *
      have chunk : readPage phys (memPages (virtPagePart ubuff)) (virtLocalPart ubuff) n =
          userBytes phys memPages ubuff n := by
        apply List.map_congr_left
        intro j inside
        rw [List.mem_range] at inside
        rw [placeOf_add (by omega), flat]
      show readPage phys (memPages (virtPagePart ubuff)) (virtLocalPart ubuff) n ++
        readUser phys (userChunks memPages fuel (ubuff + BitVec.ofNat 16 n) (size - BitVec.ofNat 16 n)) = _
      rw [ih (by omega), left, chunk, ← userBytes_append, Nat.add_sub_cancel' (by omega)]

theorem memcpyFromUserspace_bytes (k : KernelState) (p : Proc) (ubuff size : Word) :
    (memcpyFromUserspace k p ubuff size).2 = userBytes k.phys p.syscallState.memPages ubuff size.toNat :=
  readUser_eq size.toNat (Nat.le_refl _)

theorem memcpyToUserspace_phys (k : KernelState) (p : Proc) (ubuff : Word) (kbuff : List Byte) (size : Word) :
    flat (memcpyToUserspace k p ubuff kbuff size).phys =
      storeAll (flat k.phys) (fun j => placeOf p.syscallState.memPages (ubuff + BitVec.ofNat 16 j))
        (kbuff.take size.toNat) :=
  flat_writeUser size.toNat (Nat.le_refl _)

theorem memcpyToUserspace_twice (k : KernelState) (p : Proc) (ubuff : Word) {header : List Byte}
    (six : header.length = 6) (kbuff : List Byte) (size : Word) :
    flat (memcpyToUserspace (memcpyToUserspace k p ubuff header 6) p (ubuff + 6) kbuff size).phys =
      storeAll (flat k.phys) (fun j => placeOf p.syscallState.memPages (ubuff + BitVec.ofNat 16 j))
        (header ++ kbuff.take size.toNat) := by
  have whole : header.take (6 : Word).toNat = header := List.take_of_length_le (by rw [six]; decide)
  rw [memcpyToUserspace_phys, memcpyToUserspace_phys, whole, storeAll_append, six]
  congr 1
  funext j
  rw [BitVec.ofNat_add, BitVec.add_assoc]
  rfl

end PiOS.Proof
