import PiOS.Blocks.FirstFit
import PiOS.Libc.Mem
import PiOS.Transition.Run

namespace PiOS.Proof.Malloc
open Libc Blocks Transition Function
open Kernel (Word)

inductive Call
  | malloc (size : Word)
  | free (ptr : Word)
  deriving DecidableEq

structure Process where
  mem : Mem
  returned : List (Word × Word)

def step (s : Process) : Call → Option Process
  | .malloc size =>
    let (base, mem) := malloc s.mem size
    some ⟨mem, if base = 0 then s.returned else (base, size) :: s.returned⟩
  | .free ptr => (free s.mem ptr).toOption.map fun mem => ⟨mem, s.returned⟩

def start (loadBrk memPagesMapped : Word) : Process := ⟨mallocInit loadBrk memPagesMapped, []⟩

def Mapped (m : Mem) (page : Nat) : Prop := m.memPages.getLsbD page = true
deriving Decidable

def Touches (page : Nat) (base size : Word) : Prop :=
  page * pageSize < base.toNat + size.toNat ∧ base.toNat < (page + 1) * pageSize
deriving Decidable

structure AllMapped (memPagesMapped : Word) (s : Process) : Prop where
  blocks : ∀ b ∈ s.returned, ∀ page, Touches page b.1 b.2 → Mapped s.mem page
  asked : ∀ page, Mapped s.mem page ↔ memPagesMapped.getLsbD page = true ∨ page ∈ s.mem.pgmaps

def chunkBase (first : Nat) : Nat := minHeapStart + first * memoryChunk

/-- The block begins so early in its page that it ends within the pages its size takes up, or the
page in which it ends is mapped already. -/
def Covered (s : Process) : Call → Prop
  | .malloc size => ∀ first, 0 < mallocChunks size →
      FirstFit allocationsSize s.mem.allocations (mallocChunks size) first →
      chunkBase first % pageSize + (size.toNat - 1) % pageSize < pageSize ∨
        Mapped s.mem ((chunkBase first + size.toNat - 1) / pageSize)
  | .free _ => True

section Pages

variable {m : Mem} {page q : Nat}

theorem pageBit_eq (page : Nat) : pageBit page = BitVec.twoPow 16 page := rfl

theorem unmapped_iff (small : page < 16) : m.memPages &&& pageBit page = 0 ↔ ¬ Mapped m page := by
  rw [pageBit_eq, BitVec.and_twoPow]
  unfold Mapped
  split
  case isTrue mapped =>
    have bit : BitVec.twoPow 16 page ≠ 0#16 := by
      intro zero
      have := congrArg (fun w => BitVec.getLsbD w page) zero
      simp [small] at this
    simp [mapped, bit]
  case isFalse unmapped => simp [unmapped]

theorem mapPage_mapped (small : page < 16) : Mapped (mapPage m page) q ↔ Mapped m q ∨ q = page := by
  unfold mapPage
  split
  case isTrue unmapped =>
    simp only [Mapped, pageBit_eq, BitVec.getLsbD_or, BitVec.getLsbD_twoPow, Bool.or_eq_true, Bool.and_eq_true,
      decide_eq_true_eq, small, true_and]
    rw [eq_comm (a := page)]
  case isFalse mapped =>
    rw [unmapped_iff small, not_not] at mapped
    constructor
    · exact Or.inl
    · rintro (before | rfl)
      · exact before
      · exact mapped

theorem mapPage_pgmaps (small : page < 16) :
    q ∈ (mapPage m page).pgmaps ↔ q ∈ m.pgmaps ∨ q = page ∧ ¬ Mapped m page := by
  unfold mapPage
  split
  case isTrue unmapped =>
    rw [unmapped_iff small] at unmapped
    simp [unmapped]
  case isFalse mapped =>
    rw [unmapped_iff small, not_not] at mapped
    simp [mapped]

theorem mapPage_asked {memPagesMapped : Word} (small : page < 16)
    (asked : ∀ q, Mapped m q ↔ memPagesMapped.getLsbD q = true ∨ q ∈ m.pgmaps) :
    ∀ q, Mapped (mapPage m page) q ↔ memPagesMapped.getLsbD q = true ∨ q ∈ (mapPage m page).pgmaps := by
  intro q
  rw [mapPage_mapped small, mapPage_pgmaps small, ← or_assoc, ← asked q]
  by_cases same : q = page
  · subst same
    simp [Classical.em]
  · simp [same]

end Pages

section Loop

variable {m : Mem} {pageBase count q : Nat}

theorem mapPages_succ (m : Mem) (pageBase count : Nat) :
    mapPages m pageBase (count + 1) = mapPages (mapPage m pageBase) (pageBase + 1) count := rfl

theorem mapPages_mapped (small : pageBase + count ≤ 16) :
    Mapped (mapPages m pageBase count) q ↔ Mapped m q ∨ pageBase ≤ q ∧ q < pageBase + count := by
  induction count generalizing m pageBase with
  | zero =>
    have none : ¬ (pageBase ≤ q ∧ q < pageBase + 0) := by omega
    simp only [none, or_false]
    rfl
  | succ count ih =>
    rw [mapPages_succ, ih (by omega), mapPage_mapped (by omega), or_assoc]
    apply or_congr_right
    omega

theorem mapPages_asked {memPagesMapped : Word} (small : pageBase + count ≤ 16)
    (asked : ∀ q, Mapped m q ↔ memPagesMapped.getLsbD q = true ∨ q ∈ m.pgmaps) :
    ∀ q, Mapped (mapPages m pageBase count) q ↔
      memPagesMapped.getLsbD q = true ∨ q ∈ (mapPages m pageBase count).pgmaps := by
  induction count generalizing m pageBase with
  | zero => exact asked
  | succ count ih =>
    rw [mapPages_succ]
    exact ih (by omega) (mapPage_asked (by omega) asked)

theorem mapPage_allocations (m : Mem) (page : Nat) : (mapPage m page).allocations = m.allocations := by
  unfold mapPage
  split <;> rfl

theorem mapPages_allocations (m : Mem) (pageBase count : Nat) :
    (mapPages m pageBase count).allocations = m.allocations := by
  induction count generalizing m pageBase with
  | zero => rfl
  | succ count ih => rw [mapPages_succ, ih, mapPage_allocations]

end Loop

theorem mallocScan_eq (allocations : Nat → Nat) (chunks fuel freeChunks i : Nat) :
    mallocScan allocations chunks fuel freeChunks i = scan allocationsSize allocations chunks fuel freeChunks i := by
  induction fuel generalizing freeChunks i with
  | zero => rfl
  | succ fuel ih =>
    unfold mallocScan scan
    by_cases inside : i < allocationsSize
    · by_cases block : allocations i = 0
      · by_cases enough : freeChunks + 1 = chunks
        · have same : i - (chunks - 1) = i + 1 - chunks := by omega
          simp [inside, block, enough, same]
        · simp [inside, block, enough, ih]
      · have same : i + (allocations i - 1) + 1 = i + allocations i := by omega
        simp [inside, block, ih, same]
    · simp [inside]

theorem fit_bounds {allocations : Nat → Nat} {size : Word} {first : Nat} (positive : 0 < mallocChunks size)
    (fit : FirstFit allocationsSize allocations (mallocChunks size) first) :
    0 < size.toNat ∧ chunkBase first + size.toNat ≤ maxHeapSize ∧ minHeapStart ≤ chunkBase first := by
  have room := fit.room
  have wide := size.isLt
  simp only [mallocChunks, chunkBase, memoryChunk, allocationsSize, maxHeapSize, minHeapStart, BitVec.toNat_add,
    BitVec.toNat_ofNat] at positive room ⊢
  omega

theorem chunkBase_toNat {first : Nat} (small : chunkBase first ≤ maxHeapSize) :
    (BitVec.ofNat 16 (chunkBase first)).toNat = chunkBase first := by
  simp only [maxHeapSize] at small
  rw [BitVec.toNat_ofNat]
  omega

def withBlock (m : Mem) (size : Word) (first : Nat) : Mem :=
  mapPages { m with allocations := update m.allocations first (mallocChunks size) }
    (chunkBase first / pageSize) ((size.toNat + (pageSize - 1)) / pageSize)

inductive Steps (s : Process) : Call → Process → Prop
  | null (size : Word) (none : ∀ first, 0 < mallocChunks size →
      ¬ FirstFit allocationsSize s.mem.allocations (mallocChunks size) first) :
      Steps s (.malloc size) s
  | block (size : Word) (first : Nat) (positive : 0 < mallocChunks size)
      (fit : FirstFit allocationsSize s.mem.allocations (mallocChunks size) first) :
      Steps s (.malloc size)
        ⟨withBlock s.mem size first, (BitVec.ofNat 16 (chunkBase first), size) :: s.returned⟩
  | free (ptr : Word) (chunk : Nat) :
      Steps s (.free ptr) ⟨{ s.mem with allocations := update s.mem.allocations chunk 0 }, s.returned⟩

section Fit

variable {m : Mem} {size : Word} {first : Nat} (positive : 0 < mallocChunks size)
  (fit : FirstFit allocationsSize m.allocations (mallocChunks size) first)
include positive fit

theorem malloc_found (found : mallocScan m.allocations (mallocChunks size) allocationsSize 0 0 = some first) :
    malloc m size = (BitVec.ofNat 16 (chunkBase first), withBlock m size first) := by
  obtain ⟨some, high, low⟩ := fit_bounds positive fit
  simp only [maxHeapSize] at high
  simp only [minHeapStart] at low
  have nonzero : size ≠ 0 := by
    rintro rfl
    exact absurd some (by decide)
  have base : (BitVec.ofNat 16 (chunkBase first) >>> 12).toNat = chunkBase first / pageSize := by
    simp only [BitVec.toNat_ushiftRight, BitVec.toNat_ofNat, Nat.shiftRight_eq_div_pow, pageSize]
    omega
  have count : (size + BitVec.ofNat 16 (pageSize - 1)).toNat = size.toNat + (pageSize - 1) := by
    simp only [BitVec.toNat_add, BitVec.toNat_ofNat, pageSize]
    omega
  unfold chunkBase at base
  simp only [malloc, nonzero, if_false, found, base, count, withBlock, chunkBase]

theorem chunkBase_ne_zero : BitVec.ofNat 16 (chunkBase first) ≠ 0 := by
  obtain ⟨-, high, low⟩ := fit_bounds positive fit
  have value : (BitVec.ofNat 16 (chunkBase first)).toNat = chunkBase first := chunkBase_toNat (by omega)
  intro zero
  rw [zero] at value
  simp only [minHeapStart, ← value] at low
  exact absurd low (by decide)

theorem pages_bound : chunkBase first / pageSize + (size.toNat + (pageSize - 1)) / pageSize ≤ 16 := by
  obtain ⟨some, high, -⟩ := fit_bounds positive fit
  simp only [maxHeapSize] at high
  simp only [pageSize]
  omega

theorem touches_iff {page : Nat} : Touches page (BitVec.ofNat 16 (chunkBase first)) size ↔
    (chunkBase first / pageSize ≤ page ∧ page < chunkBase first / pageSize + (size.toNat + (pageSize - 1)) / pageSize) ∨
    ¬ chunkBase first % pageSize + (size.toNat - 1) % pageSize < pageSize ∧
      page = (chunkBase first + size.toNat - 1) / pageSize := by
  obtain ⟨some, high, -⟩ := fit_bounds positive fit
  unfold Touches
  rw [chunkBase_toNat (by omega)]
  simp only [pageSize]
  omega

theorem withBlock_touches : (∀ page, Touches page (BitVec.ofNat 16 (chunkBase first)) size →
      Mapped (withBlock m size first) page) ↔ chunkBase first % pageSize + (size.toNat - 1) % pageSize < pageSize ∨
      Mapped m ((chunkBase first + size.toNat - 1) / pageSize) := by
  have mapped := fun page => mapPages_mapped (q := page)
    (m := { m with allocations := update m.allocations first (mallocChunks size) })
    (pages_bound positive fit)
  constructor
  · intro all
    rw [or_iff_not_imp_left]
    intro late
    have last := (mapped _).mp (all _ ((touches_iff positive fit).mpr (Or.inr ⟨late, rfl⟩)))
    apply last.resolve_right
    obtain ⟨some, -, -⟩ := fit_bounds positive fit
    simp only [pageSize] at late ⊢
    omega
  · intro covered page touched
    apply (mapped page).mpr
    rcases (touches_iff positive fit).mp touched with within | ⟨late, rfl⟩
    · exact Or.inr within
    · exact Or.inl (covered.resolve_left late)

theorem withBlock_keeps {page : Nat} (mapped : Mapped m page) : Mapped (withBlock m size first) page :=
  (mapPages_mapped (pages_bound positive fit)).mpr (Or.inl mapped)

end Fit

theorem malloc_cases {m : Mem} (clear : Clear allocationsSize m.allocations) (size : Word) : (malloc m size = (0, m) ∧
      ∀ first, 0 < mallocChunks size → ¬ FirstFit allocationsSize m.allocations (mallocChunks size) first) ∨
    ∃ first, 0 < mallocChunks size ∧ FirstFit allocationsSize m.allocations (mallocChunks size) first ∧
      malloc m size = (BitVec.ofNat 16 (chunkBase first), withBlock m size first) := by
  have scanned := mallocScan_eq m.allocations (mallocChunks size) allocationsSize 0 0
  cases found : mallocScan m.allocations (mallocChunks size) allocationsSize 0 0 with
  | none =>
    refine Or.inl ⟨by simp [malloc, found], ?_⟩
    intro first positive fit
    rw [found, (scan_eq_some_iff clear positive).mpr fit] at scanned
    cases scanned
  | some first =>
    rw [found] at scanned
    have positive : 0 < mallocChunks size := by
      apply Nat.pos_of_ne_zero
      intro zero
      rw [zero, scan_zero] at scanned
      cases scanned
    have fit := (scan_eq_some_iff clear positive).mp scanned.symm
    exact Or.inr ⟨first, positive, fit, malloc_found positive fit found⟩

theorem steps {s s' : Process} {call : Call} (clear : Clear allocationsSize s.mem.allocations)
    (action : step s call = some s') : Steps s call s' := by
  cases call with
  | malloc size =>
    unfold step at action
    rcases malloc_cases clear size with ⟨nothing, none⟩ | ⟨first, positive, fit, returned⟩
    · simp only [nothing, if_true, Option.some.injEq] at action
      subst action
      exact .null size none
    · simp only [returned, chunkBase_ne_zero positive fit, if_false, Option.some.injEq] at action
      subst action
      exact .block size first positive fit
  | free ptr =>
    obtain ⟨mem, freed, rfl⟩ := Option.map_eq_some_iff.mp action
    unfold free at freed
    simp only at freed
    split at freed
    · obtain rfl := Option.some.inj freed
      exact .free ptr _
    · cases freed

structure Inv (memPagesMapped : Word) (s : Process) : Prop extends AllMapped memPagesMapped s where
  clear : Clear allocationsSize s.mem.allocations

theorem start_inv (loadBrk memPagesMapped : Word) : Inv memPagesMapped (start loadBrk memPagesMapped) where
  blocks b held := by cases held
  asked page := by simp [Mapped, start, mallocInit]
  clear i small block j low high := by
    have : j ≠ 0 := by omega
    simp [start, mallocInit, update_of_ne this]

theorem step_keeps {memPagesMapped : Word} (s : Process) (call : Call) (s' : Process) (inv : Inv memPagesMapped s)
    (covered : Covered s call) (action : step s call = some s') : Inv memPagesMapped s' := by
  cases steps inv.clear action with
  | null size none => exact inv
  | block size first positive fit =>
    refine ⟨⟨?_, mapPages_asked (pages_bound positive fit) inv.asked⟩, ?_⟩
    · intro b held page touched
      rcases List.mem_cons.mp held with rfl | before
      · exact (withBlock_touches positive fit).mpr (covered first positive fit) page touched
      · exact withBlock_keeps positive fit (inv.blocks b before page touched)
    · simp only [withBlock, mapPages_allocations]
      exact inv.clear.allocate fit.free
  | free ptr chunk => exact ⟨⟨inv.blocks, inv.asked⟩, inv.clear.release chunk⟩

theorem step_fails {memPagesMapped : Word} (s : Process) (call : Call) (s' : Process) (inv : Inv memPagesMapped s)
    (uncovered : ¬ Covered s call) (action : step s call = some s') : ¬ AllMapped memPagesMapped s' := by
  intro all
  apply uncovered
  cases steps inv.clear action with
  | null size none =>
    intro first positive fit
    exact absurd fit (none first positive)
  | block size first positive fit =>
    intro other _ otherFit
    obtain rfl := fit.unique otherFit
    exact (withBlock_touches positive fit).mp (all.blocks _ List.mem_cons_self)
  | free ptr chunk => trivial

theorem malloc_maps_iff (loadBrk memPagesMapped : Word) (calls : List Call) :
    Throughout step (AllMapped memPagesMapped) (start loadBrk memPagesMapped) calls ↔
      Guarded step Covered (start loadBrk memPagesMapped) calls :=
  throughout_iff_guarded (fun _ inv => inv.toAllMapped) step_keeps step_fails (start_inv loadBrk memPagesMapped)

theorem malloc_leaves_page_unmapped :
    ∃ s, run step (start 0x1e00 0x8001) [.malloc 0x400] = some s ∧ s.returned = [(0x1e00, 0x400)] ∧
      Touches 2 0x1e00 0x400 ∧ ¬ Mapped s.mem 2 ∧ s.mem.pgmaps = [1] ∧ ¬ AllMapped 0x8001 s := by
  have unmapped : ∀ s, run step (start 0x1e00 0x8001) [.malloc 0x400] = some s → ¬ Mapped s.mem 2 := by
    intro s reached
    obtain rfl := Option.some.inj reached
    decide +kernel
  refine ⟨_, rfl, by decide +kernel, by decide, unmapped _ rfl, by decide +kernel, ?_⟩
  intro all
  exact unmapped _ rfl (all.blocks (0x1e00, 0x400) (by decide +kernel) 2 (by decide))

end PiOS.Proof.Malloc
