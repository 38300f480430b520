import Mathlib.Logic.Function.Basic
import PiOS.Kernel.Libk.Math

namespace PiOS.Kernel

def vgaFramebuffAddr : Word := 0x6000
def vgaTextWidth : Int := 106
def vgaTextHeight : Int := 48

structure Vga where
  textColor : Byte
  scrollBegin : Int
  scrollRegister : Word
  frame : Word → Word

namespace Vga

variable (v : Vga)

def realRow (row : Int) : Int :=
  if intWrap (row + v.scrollBegin) < vgaTextHeight then intWrap (row + v.scrollBegin)
  else intWrap (row + v.scrollBegin - vgaTextHeight)

def charAddr (row col : Int) : Word :=
  vgaFramebuffAddr + BitVec.ofInt 16 (v.realRow row * vgaTextWidth * 2 + col * 2)

def putCharAt (c : Byte) (row col : Int) : Vga :=
  { v with frame := Function.update v.frame (v.charAddr row col) (c.setWidth 16 ||| v.textColor.setWidth 16 <<< 8) }

def setColor (color : Byte) : Vga := { v with textColor := color }

def clearLine (row : Int) : Vga :=
  let clear (frame : Word → Word) (i : Nat) :=
    Function.update frame (v.charAddr row 0 + BitVec.ofNat 16 (2 * i)) 0
  { v with frame := (List.range vgaTextWidth.toNat).foldl clear v.frame }

def fastScroll : Vga :=
  let begin := if intWrap (v.scrollBegin + 1) ≥ vgaTextHeight then 0 else intWrap (v.scrollBegin + 1)
  clearLine { v with scrollBegin := begin, scrollRegister := BitVec.ofInt 16 begin } (vgaTextHeight - 1)

end Vga

def vgaInit : Vga := ⟨0x0F, 0, 0, fun _ => 0⟩

end PiOS.Kernel
