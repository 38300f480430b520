import Mathlib.Data.List.FinRange
import PiOS.Kernel.Driver.VgaMemory

namespace PiOS.Proof.VgaScreen
open Kernel Function

abbrev Place := Fin 48 × Fin 106

structure Screen where
  color : Byte
  cell : Place → Word

namespace Screen

def clear (s : Screen) (row : Fin 48) : Screen := { s with cell := fun p => if p.1 = row then 0 else s.cell p }

def call (s : Screen) : VgaCall → Screen
  | .putCharAt c row col => { s with
      cell := update s.cell (row, col) (c.setWidth 16 ||| s.color.setWidth 16 <<< 8) }
  | .setColor color => { s with color := color }
  | .clearLine row => s.clear row
  | .fastScroll => clear { s with cell := fun p => s.cell (p.1 + 1, p.2) } 47

end Screen

def blank : Screen := ⟨0x0F, fun _ => 0⟩

def cellAddress (p : Place) : Nat := 0x6000 + 2 * (106 * p.1 + p.2)

def shown (memory : VgaMemory) (p : Place) : Word :=
  memory (0x6000 + 2 * (106 * ((p.1 + (memory 0xc002).toNat) % 48) + p.2))

def InVideo (s : PageStore) : Prop := (∃ p, s.address = cellAddress p) ∨ s.address = 0xc000 ∨ s.address = 0xc002

def cellStore (value : Word) (p : Place) : PageStore := .split (BitVec.ofNat 16 (cellAddress p)) value

section Addresses

variable {v : Vga} {origin : Fin 48} (begins : v.scrollBegin = origin.val)

theorem cellAddress_lt (p : Place) : cellAddress p < 0xc000 := by
  unfold cellAddress
  omega

theorem cellAddress_injective : Function.Injective cellAddress := by
  rintro ⟨row, col⟩ ⟨row', col'⟩ same
  simp only [cellAddress] at same
  rw [Prod.mk.injEq, Fin.ext_iff, Fin.ext_iff]
  omega

theorem split_address (addr value : Word) : (PageStore.split addr value).address = addr.toNat := by
  have place : (addr &&& 0x0fff).toNat = addr.toNat % 0x1000 := Nat.and_two_pow_sub_one_eq_mod addr.toNat 12
  have page : (addr >>> 12).toNat = addr.toNat / 0x1000 := by
    rw [BitVec.toNat_ushiftRight, Nat.shiftRight_eq_div_pow]
  simp only [PageStore.split, PageStore.address, place, page]
  omega

theorem cellStore_address (value : Word) (p : Place) : (cellStore value p).address = cellAddress p := by
  have below := cellAddress_lt p
  rw [cellStore, split_address, word_ofNat_toNat (by omega)]

include begins

theorem realRow_eq (row : Fin 48) : v.realRow row.val = (row + origin).val := by
  have sum : intWrap (row.val + v.scrollBegin) = row.val + origin.val := by
    rw [begins]
    exact intWrap_eq (by omega) (by omega)
  have rest : intWrap (row.val + v.scrollBegin - 48) = row.val + origin.val - 48 := by
    rw [begins]
    exact intWrap_eq (by omega) (by omega)
  simp only [Vga.realRow, vgaTextHeight, sum, rest, Fin.val_add]
  split <;> omega

theorem charAddr_eq (row : Fin 48) (col : Fin 106) :
    v.charAddr row.val col.val = BitVec.ofNat 16 (cellAddress (row + origin, col)) := by
  have place : ((row + origin).val * vgaTextWidth * 2 + col.val * 2 : Int) =
      (2 * (106 * (row + origin).val + col.val) : Nat) := by
    rw [vgaTextWidth]
    omega
  rw [Vga.charAddr, realRow_eq begins, place, BitVec.ofInt_natCast, cellAddress, BitVec.ofNat_add]
  rfl

theorem clearStores_eq (row : Fin 48) :
    v.clearStores row.val = (List.finRange 106).map fun col => cellStore 0 (row + origin, col) := by
  have first := charAddr_eq begins row 0
  have width : vgaTextWidth.toNat = 106 := rfl
  rw [Vga.clearStores, width, ← List.map_coe_finRange_eq_range, List.map_map]
  refine List.map_congr_left fun col _ => congrArg (PageStore.split · 0) ?_
  change v.charAddr row.val ((0 : Fin 106).val : Nat) + _ = _
  rw [first, ← BitVec.ofNat_add]
  refine congrArg (BitVec.ofNat 16) ?_
  show 0x6000 + 2 * (106 * (row + origin).val + 0) + 2 * col.val = 0x6000 + 2 * (106 * (row + origin).val + col.val)
  omega

end Addresses

section Stores

variable {memory : VgaMemory}

def frame (memory : VgaMemory) : Place → Word := memory ∘ cellAddress

theorem frame_store (value : Word) (p : Place) :
    frame (storeAt memory (cellStore value p)) = update (frame memory) p value := by
  rw [frame, storeAt, cellStore_address]
  exact update_comp_eq_of_injective memory cellAddress_injective p value

theorem register_store (value : Word) (p : Place) : storeAt memory (cellStore value p) 0xc002 = memory 0xc002 := by
  have below := cellAddress_lt p
  rw [storeAt, cellStore_address, update_of_ne (by omega)]

theorem register_address (value : Word) : (PageStore.mk 0xc 2 value).address = 0xc002 := by
  simp [PageStore.address]

theorem store_register (value : Word) : storeAt memory ⟨0xc, 2, value⟩ = update memory 0xc002 value := by
  rw [storeAt, register_address]

theorem cleared (ps : List Place) : frame ((ps.map (cellStore 0)).foldl storeAt memory) =
      (fun p => if p ∈ ps then 0 else frame memory p) ∧
    (ps.map (cellStore 0)).foldl storeAt memory 0xc002 = memory 0xc002 := by
  induction ps generalizing memory with
  | nil => exact ⟨by simp, rfl⟩
  | cons q ps ih =>
    obtain ⟨cells, register⟩ := @ih (storeAt memory (cellStore 0 q))
    rw [List.map_cons, List.foldl_cons, cells, register]
    refine ⟨?_, register_store 0 q⟩
    funext p
    rw [frame_store, update_apply]
    grind

end Stores

structure Shows (s : VgaState) (origin : Fin 48) (screen : Screen) : Prop where
  color : s.vga.textColor = screen.color
  begins : s.vga.scrollBegin = origin.val
  register : s.memory 0xc002 = BitVec.ofNat 16 origin.val
  cells : screen.cell = fun p => frame s.memory (p.1 + origin, p.2)
  inside : ∀ store ∈ s.stored, InVideo store

section Calls

variable {s : VgaState} {origin : Fin 48} {screen : Screen}

theorem inVideo_append {old new : List PageStore} (before : ∀ store ∈ old, InVideo store)
    (after : ∀ store ∈ new, InVideo store) : ∀ store ∈ old ++ new, InVideo store :=
  fun store member => (List.mem_append.mp member).elim (before store) (after store)

theorem inVideo_cells {value : Word} (ps : List Place) : ∀ store ∈ ps.map (cellStore value), InVideo store := by
  intro store member
  obtain ⟨p, -, rfl⟩ := List.mem_map.mp member
  exact Or.inl ⟨p, cellStore_address value p⟩

theorem turn_injective (origin : Fin 48) : Function.Injective fun p : Place => (p.1 + origin, p.2) := by
  rintro ⟨row, col⟩ ⟨row', col'⟩ same
  simpa using same

theorem Shows.put (shows : Shows s origin screen) (c : Byte) (row : Fin 48) (col : Fin 106) :
    Shows (s.call (.putCharAt c row col)) origin (screen.call (.putCharAt c row col)) := by
  have stores : s.vga.stores (.putCharAt c row col) =
      [cellStore (c.setWidth 16 ||| screen.color.setWidth 16 <<< 8) (row + origin, col)] := by
    rw [Vga.stores, charAddr_eq shows.begins, shows.color]
    rfl
  rw [VgaState.call, VgaState.store, stores]
  refine ⟨shows.color, shows.begins, (register_store _ _).trans shows.register, ?_,
    inVideo_append shows.inside (inVideo_cells [_])⟩
  rw [List.foldl_cons, List.foldl_nil, frame_store]
  simp only [Screen.call, shows.cells]
  exact (update_comp_eq_of_injective (frame s.memory) (turn_injective origin) (row, col) _).symm

theorem Shows.clear (shows : Shows s origin screen) (row : Fin 48) :
    Shows (s.store (s.vga.clearStores row.val)) origin (screen.clear row) := by
  have stores := clearStores_eq shows.begins row
  obtain ⟨cells, register⟩ := @cleared s.memory ((List.finRange 106).map fun col => (row + origin, col))
  rw [List.map_map] at cells register
  rw [VgaState.store, stores]
  refine ⟨shows.color, shows.begins, register.trans shows.register, ?_, inVideo_append shows.inside ?_⟩
  · have line : ∀ p : Place, (p.1 + origin, p.2) ∈ (List.finRange 106).map (fun col => (row + origin, col)) ↔
        p.1 = row := by
      intro p
      simp [eq_comm]
    change (fun p => if p.1 = row then 0 else screen.cell p) = _
    rw [shows.cells]
    funext p
    refine Eq.trans ?_ (congrFun cells (p.1 + origin, p.2)).symm
    simp only [line p]
  · have video := @inVideo_cells 0 ((List.finRange 106).map fun col => (row + origin, col))
    rwa [List.map_map] at video

theorem fastScroll_begins (begins : s.vga.scrollBegin = origin.val) :
    s.vga.fastScroll.scrollBegin = (origin + 1).val := by
  have next : intWrap (s.vga.scrollBegin + 1) = origin.val + 1 := by
    rw [begins]
    exact intWrap_eq (by omega) (by omega)
  have sum : (origin + 1).val = (origin.val + 1) % 48 := Fin.val_add origin 1
  simp only [Vga.fastScroll, Vga.clearLine, next, vgaTextHeight, sum]
  split <;> omega

-- the register is raised first: the rows are shown one higher, with the old first row at the end until it is cleared
theorem Shows.scroll (shows : Shows s origin screen) :
    Shows (s.call .fastScroll) (origin + 1) (screen.call .fastScroll) := by
  have begins := fastScroll_begins shows.begins
  have value : BitVec.ofInt 16 s.vga.fastScroll.scrollBegin = BitVec.ofNat 16 (origin + 1).val := by
    rw [begins, BitVec.ofInt_natCast]
  have raised : Shows ({ s with vga := s.vga.fastScroll }.store [⟨0xc, 2, BitVec.ofInt 16 s.vga.fastScroll.scrollBegin⟩])
      (origin + 1) { screen with cell := fun p => screen.cell (p.1 + 1, p.2) } := by
    rw [VgaState.store, List.foldl_cons, List.foldl_nil, store_register]
    refine ⟨shows.color, begins, ?_, ?_, inVideo_append shows.inside ?_⟩
    · dsimp only
      rw [update_self, value]
    · funext p
      have below := cellAddress_lt (p.1 + (origin + 1), p.2)
      simp only [shows.cells, frame, Function.comp_apply, add_assoc, add_comm 1 origin]
      rw [update_of_ne (by omega)]
    · intro store member
      rw [List.mem_singleton.mp member]
      exact Or.inr (Or.inr (register_address _))
  have parts : s.call .fastScroll = VgaState.store ({ s with vga := s.vga.fastScroll }.store
      [⟨0xc, 2, BitVec.ofInt 16 s.vga.fastScroll.scrollBegin⟩]) (s.vga.fastScroll.clearStores (47 : Fin 48).val) := by
    have last : vgaTextHeight - 1 = ((47 : Fin 48).val : Int) := by decide
    simp only [VgaState.call, VgaState.store, Vga.stores, Vga.call, List.append_assoc, List.singleton_append,
      List.foldl_cons, List.foldl_nil, last]
  rw [parts]
  exact raised.clear 47

theorem Shows.call (shows : Shows s origin screen) (call : VgaCall) :
    ∃ origin', Shows (s.call call) origin' (screen.call call) := by
  cases call with
  | putCharAt c row col => exact ⟨origin, shows.put c row col⟩
  | setColor color =>
    refine ⟨origin, rfl, shows.begins, shows.register, shows.cells, ?_⟩
    simpa [VgaState.call, VgaState.store, Vga.stores] using shows.inside
  | clearLine row =>
    have cleared := shows.clear row
    exact ⟨origin, cleared.color, cleared.begins, cleared.register, cleared.cells, cleared.inside⟩
  | fastScroll => exact ⟨_, shows.scroll⟩

def allPlaces : List Place := (List.range 5088).map fun i => (Fin.ofNat 48 (i / 106), Fin.ofNat 106 i)

theorem mem_allPlaces (p : Place) : p ∈ allPlaces := by
  refine List.mem_map.mpr ⟨106 * p.1 + p.2, List.mem_range.mpr (by omega), ?_⟩
  rw [Prod.ext_iff, Fin.ext_iff, Fin.ext_iff]
  simp only [Fin.val_ofNat]
  omega

theorem initStores_eq : vgaInitStores = [⟨0xc, 0, vgaText10648Mode⟩, ⟨0xc, 2, 0⟩] ++ allPlaces.map (cellStore 0) := by
  rw [vgaInitStores, allPlaces, List.map_map]
  refine congrArg _ (List.map_congr_left fun i member => congrArg (PageStore.split · 0) ?_)
  have inside : i < 5088 := List.mem_range.mp member
  have address : cellAddress (Fin.ofNat 48 (i / 106), Fin.ofNat 106 i) = 0x6000 + 2 * i := by
    simp only [cellAddress, Fin.val_ofNat]
    omega
  rw [address, BitVec.ofNat_add]
  rfl

theorem shows_start (memory : VgaMemory) : Shows (vgaStart memory) 0 blank := by
  rw [vgaStart, VgaState.store, initStores_eq, List.foldl_append]
  obtain ⟨cells, register⟩ := @cleared ([⟨0xc, 0, vgaText10648Mode⟩, ⟨0xc, 2, 0⟩].foldl storeAt memory) allPlaces
  refine ⟨rfl, rfl, ?_, ?_, inVideo_append (fun _ none => absurd none List.not_mem_nil) ?_⟩
  · dsimp only
    rw [register, List.foldl_cons, List.foldl_cons, List.foldl_nil, store_register, update_self]
    rfl
  · funext p
    rw [add_zero, cells]
    exact (if_pos (mem_allPlaces p)).symm
  · refine inVideo_append (fun store member => ?_) (inVideo_cells _)
    simp only [List.mem_cons, List.not_mem_nil, or_false] at member
    rcases member with rfl | rfl
    · exact Or.inr (Or.inl (by simp [PageStore.address]))
    · exact Or.inr (Or.inr (register_address _))

theorem vga_refines_screen (memory : VgaMemory) (calls : List VgaCall) :
    shown (calls.foldl VgaState.call (vgaStart memory)).memory = (calls.foldl Screen.call blank).cell ∧
      ∀ store ∈ (calls.foldl VgaState.call (vgaStart memory)).stored, InVideo store := by
  have runs : ∀ {s origin screen}, Shows s origin screen →
      ∃ origin', Shows (calls.foldl VgaState.call s) origin' (calls.foldl Screen.call screen) := by
    induction calls with
    | nil => exact fun shows => ⟨_, shows⟩
    | cons call calls ih =>
      intro s origin screen shows
      obtain ⟨origin', after⟩ := shows.call call
      exact ih after
  obtain ⟨origin, shows⟩ := runs (shows_start memory)
  refine ⟨?_, shows.inside⟩
  rw [shows.cells]
  funext p
  rw [shown, shows.register, word_ofNat_toNat (by omega)]
  rfl

end Calls

end PiOS.Proof.VgaScreen
