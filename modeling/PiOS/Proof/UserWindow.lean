import PiOS.Kernel.Proc.UserWindow
import PiOS.Proof.UserCopy

namespace PiOS.Proof.UserWindow
open Kernel Memory

theorem flat_storeByte {memPages : Fin 16 → Word} {phys : PhysMem} (addr : Word) (b : Byte) :
    flat (storeByte memPages phys addr b) = Function.update (flat phys) (placeOf memPages addr) b := by
  funext ⟨q, a⟩
  simp only [flat, storeByte, placeOf, Function.update_apply, Prod.mk.injEq]

theorem kernelTable_inside {page addr : Word} (inside : addr.toNat < 0x1000) :
    placeOf (kernelTable page) addr = (page, addr) := by
  have zero : virtPagePart addr = 0 := by
    rw [Fin.ext_iff, virtPagePart_toNat]
    show addr.toNat / 0x1000 = 0
    omega
  have same : virtLocalPart addr = addr := by
    apply BitVec.eq_of_toNat_eq
    rw [virtLocalPart_toNat, Nat.mod_eq_of_lt inside]
  rw [placeOf, zero, same, kernelTable, if_pos rfl]

def userPlace (memPages : Fin 16 → Word) (ubuff : Word) (j : Nat) : Word × Word :=
  placeOf memPages (ubuff + BitVec.ofNat 16 j)

def kernelPlace (kbuff : Word) (j : Nat) : Word × Word := placeOf (kernelTable illegalPage) (kbuff + BitVec.ofNat 16 j)

def BehindZero (kbuff : Word) (count : Nat) : Prop := ∀ j < count, virtPagePart (kbuff + BitVec.ofNat 16 j) ≠ 0

section Places

variable {memPages : Fin 16 → Word} {ubuff kbuff page : Word} {n j : Nat}

theorem userPlace_add : userPlace memPages (ubuff + BitVec.ofNat 16 n) j = userPlace memPages ubuff (n + j) := by
  rw [userPlace, userPlace, BitVec.ofNat_add, BitVec.add_assoc]

theorem kernelPlace_add : kernelPlace (kbuff + BitVec.ofNat 16 n) j = kernelPlace kbuff (n + j) := userPlace_add

theorem placeOf_kernel (behind : virtPagePart (kbuff + BitVec.ofNat 16 j) ≠ 0) :
    placeOf (kernelTable page) (kbuff + BitVec.ofNat 16 j) = kernelPlace kbuff j := by
  simp only [kernelPlace, placeOf, kernelTable, if_neg behind]

theorem placeOf_window (inPage : (virtLocalPart ubuff).toNat + j < pageSize) :
    placeOf (kernelTable (memPages (virtPagePart ubuff))) (virtLocalPart ubuff + BitVec.ofNat 16 j) =
      userPlace memPages ubuff j := by
  unfold pageSize at inPage
  rw [userPlace, placeOf_add inPage, kernelTable_inside]
  rw [word_add_toNat] <;> rw [word_ofNat_toNat (by omega)] <;> omega

end Places

theorem memcpy_eq (count : Nat) (dest src : Word) (w : Window) :
    ∃ phys, Window.memcpy count dest src w = { w with kernel := { w.kernel with phys := phys } } ∧
      flat phys = copyAll (flat w.kernel.phys) (userPlace (kernelTable w.pageZero) dest)
        (userPlace (kernelTable w.pageZero) src) count := by
  induction count generalizing dest src w with
  | zero => exact ⟨w.kernel.phys, rfl, rfl⟩
  | succ count ih =>
    obtain ⟨phys, copied, same⟩ := ih (dest + 1) (src + 1) (w.storeByte dest (w.loadByte src))
    refine ⟨phys, copied, ?_⟩
    have next (buff : Word) : userPlace (kernelTable w.pageZero) (buff + 1) =
        fun j => userPlace (kernelTable w.pageZero) buff (j + 1) := by
      funext j
      rw [Nat.add_comm j]
      exact userPlace_add
    have first (buff : Word) : userPlace (kernelTable w.pageZero) buff 0 = placeOf (kernelTable w.pageZero) buff := by
      rw [userPlace, BitVec.add_zero]
    rw [copyAll, ← next, ← next, first, first, ← flat_storeByte]
    exact same

def copied (toUser : Bool) (phys : Word × Word → Byte) (user kernel : Nat → Word × Word) (n : Nat) :
    Word × Word → Byte :=
  if toUser then copyAll phys user kernel n else copyAll phys kernel user n

theorem mapPageZero_phys (k : KernelState) (phys : PhysMem) (page : Word) :
    ({ k with phys := phys } : KernelState).mapPageZero page = { k.mapPageZero page with phys := phys } := by
  obtain ⟨⟩ := k
  unfold KernelState.mapPageZero
  dsimp only
  split
  · rfl
  · rfl

theorem restorePageZero_phys (k : KernelState) (phys : PhysMem) (page : Word) :
    Window.restorePageZero ⟨{ k with phys := phys }, page⟩ =
      ⟨{ k.mapPageZero k.currentPageZero with phys := phys }, k.currentPageZero⟩ :=
  congrArg (fun k' => Window.mk k' k.currentPageZero) (mapPageZero_phys k phys _)

theorem mapPages_phys (chunks : List UserChunk) (k : KernelState) (phys : PhysMem) :
    chunks.foldl (fun k c => k.mapPageZero c.page) { k with phys := phys } =
      { chunks.foldl (fun k c => k.mapPageZero c.page) k with phys := phys } := by
  induction chunks generalizing k with
  | nil => rfl
  | cons c chunks ih => rw [List.foldl_cons, List.foldl_cons, mapPageZero_phys, ih]

section Loop

variable {memPages : Fin 16 → Word} {ubuff kbuff size : Word} {w : Window} {n : Nat}

theorem turn_eq (toUser : Bool) (behind : BehindZero kbuff n) (inPage : (virtLocalPart ubuff).toNat + n ≤ pageSize)
    (mapped : w.pageZero = memPages (virtPagePart ubuff)) :
    ∃ phys, (if toUser then Window.memcpy n (virtLocalPart ubuff) kbuff w
        else Window.memcpy n kbuff (virtLocalPart ubuff) w) = { w with kernel := { w.kernel with phys := phys } } ∧
      flat phys = copied toUser (flat w.kernel.phys) (userPlace memPages ubuff) (kernelPlace kbuff) n := by
  have user : ∀ j < n, userPlace (kernelTable w.pageZero) (virtLocalPart ubuff) j = userPlace memPages ubuff j := by
    intro j inside
    rw [mapped]
    exact placeOf_window (by omega)
  have kernel : ∀ j < n, userPlace (kernelTable w.pageZero) kbuff j = kernelPlace kbuff j :=
    fun j inside => placeOf_kernel (behind j inside)
  cases toUser with
  | true =>
    obtain ⟨phys, copy, same⟩ := memcpy_eq n (virtLocalPart ubuff) kbuff w
    exact ⟨phys, copy, same.trans (copyAll_congr user kernel)⟩
  | false =>
    obtain ⟨phys, copy, same⟩ := memcpy_eq n kbuff (virtLocalPart ubuff) w
    exact ⟨phys, copy, same.trans (copyAll_congr kernel user)⟩

theorem copied_add {toUser : Bool} {phys phys' : Word × Word → Byte} {n m : Nat}
    (first : phys' = copied toUser phys (userPlace memPages ubuff) (kernelPlace kbuff) n) :
    copied toUser phys' (userPlace memPages (ubuff + BitVec.ofNat 16 n)) (kernelPlace (kbuff + BitVec.ofNat 16 n)) m =
      copied toUser phys (userPlace memPages ubuff) (kernelPlace kbuff) (n + m) := by
  have user : userPlace memPages (ubuff + BitVec.ofNat 16 n) = fun j => userPlace memPages ubuff (n + j) :=
    funext fun _ => userPlace_add
  have kernel : kernelPlace (kbuff + BitVec.ofNat 16 n) = fun j => kernelPlace kbuff (n + j) :=
    funext fun _ => kernelPlace_add
  rw [user, kernel, first]
  cases toUser with
  | true | false => exact (copyAll_add n m).symm

theorem copyLoop_eq (toUser : Bool) (memPages : Fin 16 → Word) (ubuff : Word) (w : Window) {fuel : Nat} (enough : size.toNat < fuel) (behind : BehindZero kbuff size.toNat) :
    ∃ phys page, Window.copyLoop toUser memPages fuel ubuff kbuff size w = some ⟨{
        (userChunks memPages fuel ubuff size).foldl (fun k c => k.mapPageZero c.page) w.kernel with phys := phys }, page⟩ ∧
      flat phys = copied toUser (flat w.kernel.phys) (userPlace memPages ubuff) (kernelPlace kbuff) size.toNat := by
  induction fuel generalizing ubuff kbuff size w with
  | zero => exact absurd enough (Nat.not_lt_zero _)
  | succ fuel ih =>
    unfold Window.copyLoop userChunks
    split
    · rename_i none
      refine ⟨w.kernel.phys, w.pageZero, rfl, ?_⟩
      rw [none]
      cases toUser with
      | true => rfl
      | false => rfl
    · rename_i some
      obtain ⟨positive, within, inPage, left⟩ := chunk_count ubuff some
      have room : (virtLocalPart ubuff).toNat < 0x1000 := by
        rw [virtLocalPart_toNat]
        omega
      have count : wordMin size (pageBytes - virtLocalPart ubuff) =
          BitVec.ofNat 16 (min size.toNat (pageSize - (virtLocalPart ubuff).toNat)) := by
        apply BitVec.eq_of_toNat_eq
        have page : pageBytes.toNat = 0x1000 := rfl
        have bound := size.isLt
        rw [wordMin_toNat, word_sub_toNat (by omega), word_ofNat_toNat (by omega), page]
        rfl
      have bound := size.isLt
      dsimp only
      rw [count]
      generalize min size.toNat (pageSize - (virtLocalPart ubuff).toNat) = n at *
      rw [word_ofNat_toNat (by omega)]
      obtain ⟨phys, turn, same⟩ := turn_eq (w := w.mapPageZero (memPages (virtPagePart ubuff))) toUser
        (fun j inside => behind j (by omega)) inPage rfl
      rw [turn]
      have later : BehindZero (kbuff + BitVec.ofNat 16 n) (size - BitVec.ofNat 16 n).toNat := by
        intro j inside
        rw [BitVec.add_assoc, ← BitVec.ofNat_add]
        exact behind _ (by omega)
      obtain ⟨phys', page, rest, same'⟩ := ih (ubuff + BitVec.ofNat 16 n) _ (show (size - BitVec.ofNat 16 n).toNat < fuel by omega) later
      refine ⟨phys', page, rest.trans ?_, same'.trans ?_⟩
      · rw [List.foldl_cons]
        simp only [mapPages_phys]
        rfl
      · have unmapped : (w.mapPageZero (memPages (virtPagePart ubuff))).kernel.phys = w.kernel.phys := by
          obtain ⟨procs, mapped⟩ := mapPageZero_procs w.kernel (memPages (virtPagePart ubuff))
          rw [Window.mapPageZero, mapped]
        rw [unmapped] at same
        rw [copied_add same, left, Nat.add_sub_of_le within]

end Loop

/-- The kernel's buffer has no byte in page zero or in the physical pages of the range. -/
structure Outside (memPages : Fin 16 → Word) (ubuff kbuff : Word) (n : Nat) : Prop where
  behind : BehindZero kbuff n
  apart : ∀ i < n, ∀ j < n, (userPlace memPages ubuff i).1 ≠ (kernelPlace kbuff j).1

def DistinctPages (memPages : Fin 16 → Word) (ubuff : Word) (n : Nat) : Prop :=
  ∀ i < n, ∀ j < n, (userPlace memPages ubuff i).1 = (userPlace memPages ubuff j).1 →
    virtPagePart (ubuff + BitVec.ofNat 16 i) = virtPagePart (ubuff + BitVec.ofNat 16 j)

section Copies

variable {p : Proc} {ubuff kbuff size : Word} {w : Window} {fuel : Nat} {memPages : Fin 16 → Word}

theorem userChunks_fuel {fuel' : Nat} (enough : size.toNat ≤ fuel) (enough' : size.toNat ≤ fuel') :
    userChunks memPages fuel ubuff size = userChunks memPages fuel' ubuff size := by
  induction fuel generalizing ubuff size fuel' with
  | zero =>
    obtain rfl : size = 0 := BitVec.eq_of_toNat_eq (Nat.le_zero.mp enough)
    cases fuel' with
    | zero => rfl
    | succ fuel' => rfl
  | succ fuel ih =>
    cases fuel' with
    | zero =>
      obtain rfl : size = 0 := BitVec.eq_of_toNat_eq (Nat.le_zero.mp enough')
      rfl
    | succ fuel' =>
      unfold userChunks
      split
      · rfl
      · rename_i some
        obtain ⟨positive, within, -, left⟩ := chunk_count ubuff some
        exact congrArg _ (ih (by omega) (by omega))

theorem place_injective {i j : Nat} (smallI : i < 0x10000) (smallJ : j < 0x10000)
    (page : virtPagePart (ubuff + BitVec.ofNat 16 i) = virtPagePart (ubuff + BitVec.ofNat 16 j))
    (same : userPlace memPages ubuff i = userPlace memPages ubuff j) : i = j := by
  apply cells_apart (w := 16) (a := ubuff) smallI smallJ
  apply BitVec.eq_of_toNat_eq
  have pages := congrArg Fin.val page
  have locals := congrArg (fun place : Word × Word => place.2.toNat) same
  simp only [userPlace, placeOf, virtLocalPart_toNat] at locals
  rw [virtPagePart_toNat, virtPagePart_toNat] at pages
  omega

theorem kernelPlace_injective {n i j : Nat} (behind : BehindZero kbuff n) (small : n ≤ 0x10000) (inI : i < n) (inJ : j < n)
    (same : kernelPlace kbuff i = kernelPlace kbuff j) : i = j := by
  have pages := (Prod.mk.inj same).1
  simp only [kernelTable, if_neg (behind i inI), if_neg (behind j inJ)] at pages
  have values := congrArg BitVec.toNat ((BitVec.add_right_inj _).mp pages)
  rw [word_ofNat_toNat (by omega), word_ofNat_toNat (by omega)] at values
  exact place_injective (by omega) (by omega) (Fin.ext values) same

def kernelBytes (w : Window) (kbuff : Word) (n : Nat) : List Byte :=
  (List.range n).map fun j => w.loadByte (kbuff + BitVec.ofNat 16 j)

theorem loadByte_behind {n j : Nat} (behind : BehindZero kbuff n) (inside : j < n) :
    w.loadByte (kbuff + BitVec.ofNat 16 j) = flat w.kernel.phys (kernelPlace kbuff j) :=
  congrArg (flat w.kernel.phys) (placeOf_kernel (behind j inside))

section

variable (enough : size.toNat < fuel) (outside : Outside p.syscallState.memPages ubuff kbuff size.toNat)
include enough outside

theorem memcpyFromUserspace_refines : ∃ phys page, w.memcpyFromUserspace fuel kbuff p ubuff size =
        some ⟨{ (memcpyFromUserspace w.kernel p ubuff size).1 with phys := phys }, page⟩ ∧
      flat phys = storeAll (flat w.kernel.phys) (kernelPlace kbuff) (memcpyFromUserspace w.kernel p ubuff size).2 := by
  obtain ⟨phys, page, ended, same⟩ := copyLoop_eq false p.syscallState.memPages ubuff w enough outside.behind
  rw [userChunks_fuel enough.le le_rfl] at ended
  have restored := congrArg (Option.map Window.restorePageZero) ended
  rw [Option.map_some, restorePageZero_phys] at restored
  refine ⟨phys, _, restored, ?_⟩
  rw [memcpyFromUserspace_bytes, same]
  exact copyAll_apart fun i inI j inJ equal => outside.apart j inJ i inI (congrArg Prod.fst equal).symm

theorem memcpyFromUserspace_loads : ∃ w', w.memcpyFromUserspace fuel kbuff p ubuff size = some w' ∧ ∀ i < size.toNat,
      w'.loadByte (kbuff + BitVec.ofNat 16 i) = flat w.kernel.phys (userPlace p.syscallState.memPages ubuff i) := by
  obtain ⟨phys, page, ended, same⟩ := memcpyFromUserspace_refines (w := w) enough outside
  have small := size.isLt
  rw [memcpyFromUserspace_bytes] at same
  have length := userBytes_length w.kernel.phys p.syscallState.memPages ubuff size.toNat
  refine ⟨_, ended, fun i inside => ?_⟩
  rw [loadByte_behind outside.behind inside]
  rw [same, storeAll_apply (by rwa [length])]
  · simp [userBytes, userPlace]
  · intro j inJ equal
    rw [length] at inJ
    exact (kernelPlace_injective outside.behind small.le inJ inside equal).le

theorem memcpyToUserspace_refines : ∃ page, w.memcpyToUserspace fuel p ubuff kbuff size =
      some ⟨memcpyToUserspace w.kernel p ubuff (kernelBytes w kbuff size.toNat) size, page⟩ := by
  obtain ⟨phys, page, ended, same⟩ := copyLoop_eq true p.syscallState.memPages ubuff w enough outside.behind
  have bytes : kernelBytes w kbuff size.toNat =
      (List.range size.toNat).map fun j => flat w.kernel.phys (kernelPlace kbuff j) :=
    List.map_congr_left fun j member => loadByte_behind outside.behind (List.mem_range.mp member)
  have stored : flat phys = flat (memcpyToUserspace w.kernel p ubuff (kernelBytes w kbuff size.toNat) size).phys := by
    rw [memcpyToUserspace_phys, List.take_of_length_le (by simp [kernelBytes]), same, bytes]
    exact copyAll_apart fun i inI j inJ equal => outside.apart i inI j inJ (congrArg Prod.fst equal)
  obtain rfl : phys = (memcpyToUserspace w.kernel p ubuff (kernelBytes w kbuff size.toNat) size).phys :=
    funext fun q => funext fun a => congrFun stored (q, a)
  rw [userChunks_fuel enough.le le_rfl] at ended
  have restored := congrArg (Option.map Window.restorePageZero) ended
  rw [Option.map_some, restorePageZero_phys] at restored
  exact ⟨_, restored⟩

end

theorem user_copies_exact (w : Window) (p : Proc) (ubuff kbuff size : Word) (fuel : Nat) (enough : size.toNat < fuel)
    (outside : Outside p.syscallState.memPages ubuff kbuff size.toNat) :
    (∃ w', w.memcpyFromUserspace fuel kbuff p ubuff size = some w' ∧
      ∀ i < size.toNat, w'.loadByte (kbuff + BitVec.ofNat 16 i) =
        flat w.kernel.phys (userPlace p.syscallState.memPages ubuff i)) ∧
    ∃ w', w.memcpyToUserspace fuel p ubuff kbuff size = some w' ∧
      (∀ i < size.toNat, (∀ j < size.toNat, i < j →
          userPlace p.syscallState.memPages ubuff j ≠ userPlace p.syscallState.memPages ubuff i) →
        flat w'.kernel.phys (userPlace p.syscallState.memPages ubuff i) = w.loadByte (kbuff + BitVec.ofNat 16 i)) ∧
      (∀ x, (∀ i < size.toNat, userPlace p.syscallState.memPages ubuff i ≠ x) →
        flat w'.kernel.phys x = flat w.kernel.phys x) ∧
      (DistinctPages p.syscallState.memPages ubuff size.toNat →
        ∀ kbuff', Outside p.syscallState.memPages ubuff kbuff' size.toNat →
          ∃ w'', w'.memcpyFromUserspace fuel kbuff' p ubuff size = some w'' ∧ ∀ i < size.toNat,
            w''.loadByte (kbuff' + BitVec.ofNat 16 i) = w.loadByte (kbuff + BitVec.ofNat 16 i)) := by
  obtain ⟨page, ended⟩ := memcpyToUserspace_refines (w := w) enough outside
  have small := size.isLt
  have length : (kernelBytes w kbuff size.toNat).length = size.toNat := by simp [kernelBytes]
  have memory : flat (memcpyToUserspace w.kernel p ubuff (kernelBytes w kbuff size.toNat) size).phys =
      storeAll (flat w.kernel.phys) (userPlace p.syscallState.memPages ubuff) (kernelBytes w kbuff size.toNat) := by
    rw [memcpyToUserspace_phys, List.take_of_length_le length.le]
    rfl
  have stored : ∀ i < size.toNat, (∀ j < size.toNat, i < j →
      userPlace p.syscallState.memPages ubuff j ≠ userPlace p.syscallState.memPages ubuff i) →
      flat (memcpyToUserspace w.kernel p ubuff (kernelBytes w kbuff size.toNat) size).phys
        (userPlace p.syscallState.memPages ubuff i) = w.loadByte (kbuff + BitVec.ofNat 16 i) := by
    intro i inside last
    rw [memory, storeAll_apply (by rwa [length])]
    · simp [kernelBytes]
    · intro j inJ same
      rw [length] at inJ
      exact Nat.le_of_not_lt fun later => last j inJ later same
  refine ⟨memcpyFromUserspace_loads enough outside, _, ended, stored, ?_, ?_⟩
  · intro x apart
    rw [memory, storeAll_outside]
    rwa [length]
  · intro distinct kbuff' outside'
    obtain ⟨w'', copied, loads⟩ := memcpyFromUserspace_loads enough outside'
    refine ⟨w'', copied, fun i inside => (loads i inside).trans (stored i inside ?_)⟩
    intro j inJ later same
    have equal := place_injective (by omega) (by omega) (distinct j inJ i inside (congrArg Prod.fst same)) same
    omega

end Copies

def inOrder : Proc :=
  { Proc.zero with syscallState := { ProcState.zero with memPages := fun e => 0x300 + BitVec.ofNat 16 e } }

theorem user_copies_exact_around :
    Outside inOrder.syscallState.memPages 0xfffe 0x2000 4 ∧ Outside inOrder.syscallState.memPages 0xfffe 0x3000 4 ∧
      DistinctPages inOrder.syscallState.memPages 0xfffe 4 ∧ ∃ w' w'',
        (Window.mk (bootKernel fun _ _ => 7) 0).memcpyToUserspace 5 inOrder 0xfffe 0x2000 4 = some w' ∧
        w'.memcpyFromUserspace 5 0x3000 inOrder 0xfffe 4 = some w'' ∧ w''.loadByte 0x3003 = 7 := by
  have outside : Outside inOrder.syscallState.memPages 0xfffe 0x2000 4 := ⟨by unfold BehindZero; decide, by decide⟩
  have outside' : Outside inOrder.syscallState.memPages 0xfffe 0x3000 4 := ⟨by unfold BehindZero; decide, by decide⟩
  have distinct : DistinctPages inOrder.syscallState.memPages 0xfffe 4 := by unfold DistinctPages; decide
  obtain ⟨-, w', stored, -, -, again⟩ := user_copies_exact (Window.mk (bootKernel fun _ _ => 7) 0) inOrder
    0xfffe 0x2000 4 5 (by decide) outside
  obtain ⟨w'', copied, back⟩ := again distinct 0x3000 outside'
  exact ⟨outside, outside', distinct, w', w'', stored, copied, back 3 (by decide)⟩

end PiOS.Proof.UserWindow
