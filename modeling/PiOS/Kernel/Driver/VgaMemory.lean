import PiOS.Kernel.Driver.Vga

namespace PiOS.Kernel

def vgaText10648Mode : Word := 1

structure PageStore where
  page : Word
  place : Word
  value : Word

def PageStore.address (s : PageStore) : Nat := s.page.toNat * 0x1000 + s.place.toNat

def PageStore.split (addr value : Word) : PageStore := ⟨addr >>> 12, addr &&& 0x0fff, value⟩

abbrev VgaMemory := Nat → Word

def storeAt (memory : VgaMemory) (s : PageStore) : VgaMemory := Function.update memory s.address s.value

inductive VgaCall
  | putCharAt (c : Byte) (row : Fin 48) (col : Fin 106)
  | setColor (color : Byte)
  | clearLine (row : Fin 48)
  | fastScroll

namespace Vga

variable (v : Vga)

def call : VgaCall → Vga
  | .putCharAt c row col => v.putCharAt c row col
  | .setColor color => v.setColor color
  | .clearLine row => v.clearLine row
  | .fastScroll => v.fastScroll

def clearStores (row : Int) : List PageStore :=
  (List.range vgaTextWidth.toNat).map fun i => .split (v.charAddr row 0 + BitVec.ofNat 16 (2 * i)) 0

def stores : VgaCall → List PageStore
  | .putCharAt c row col => [.split (v.charAddr row col) (c.setWidth 16 ||| v.textColor.setWidth 16 <<< 8)]
  | .setColor _ => []
  | .clearLine row => v.clearStores row
  | .fastScroll => ⟨0xc, 2, BitVec.ofInt 16 v.fastScroll.scrollBegin⟩ :: v.fastScroll.clearStores (vgaTextHeight - 1)

end Vga

def vgaInitStores : List PageStore :=
  [⟨0xc, 0, vgaText10648Mode⟩, ⟨0xc, 2, 0⟩] ++
    (List.range (vgaTextWidth * vgaTextHeight).toNat).map fun i => .split (vgaFramebuffAddr + BitVec.ofNat 16 (2 * i)) 0

structure VgaState where
  vga : Vga
  memory : VgaMemory
  stored : List PageStore

def VgaState.store (s : VgaState) (stores : List PageStore) : VgaState :=
  { s with memory := stores.foldl storeAt s.memory, stored := s.stored ++ stores }

def VgaState.call (s : VgaState) (call : VgaCall) : VgaState :=
  { s with vga := s.vga.call call }.store (s.vga.stores call)

def vgaStart (memory : VgaMemory) : VgaState := VgaState.store ⟨vgaInit, memory, []⟩ vgaInitStores

end PiOS.Kernel
