import PiOS.Kernel.Driver.Reads
import PiOS.Kernel.Driver.Vga

namespace PiOS.Kernel

def lineBuffSize : Int := 128

inductive TtyEvent
  | putCharAt (c : Byte) (row col : Int)
  | escArg (index : Int)
  | submitLine (line : List Byte)

structure Tty where
  vga : Vga
  cursorCol : Int
  cursorRow : Int
  lineBuff : Int → Byte
  lineBuffLen : Int
  input : ReadRing
  escStage : Int
  escArgs : Int → Int
  inEscapeCode : Bool
  events : List TtyEvent

def isPrintable (c : Byte) : Bool := 32 ≤ c.toNat && c.toNat ≤ 126

def isDigit (c : Byte) : Bool := (ascii '0').toNat ≤ c.toNat && c.toNat ≤ (ascii '9').toNat

namespace Tty

variable (t : Tty)

def vgaPutCharAt (c : Byte) (row col : Int) : Tty :=
  { t with vga := t.vga.putCharAt c row col, events := t.events ++ [.putCharAt c row col] }

def newLine : Tty :=
  if intWrap (t.cursorRow + 1) ≥ vgaTextHeight then
    { t with vga := t.vga.fastScroll, cursorRow := vgaTextHeight - 1 }
  else
    { t with cursorRow := intWrap (t.cursorRow + 1) }

def line : List Byte := (List.range t.lineBuffLen.toNat).map fun j : Nat => t.lineBuff j

def submitLineBuff : Except Stop Tty :=
  (t.input.submit t.line).map fun input =>
    { t with input := input, lineBuffLen := 0, events := t.events ++ [.submitLine t.line] }

def linebuffErase : Tty :=
  if t.lineBuffLen > 0 then
    let t := { t with lineBuffLen := t.lineBuffLen - 1 }
    let t :=
      if t.cursorCol > 0 then { t with cursorCol := t.cursorCol - 1 }
      else { t with
        cursorRow := if t.cursorRow > 0 then t.cursorRow - 1 else t.cursorRow
        cursorCol := vgaTextWidth }
    t.vgaPutCharAt (ascii ' ') t.cursorRow t.cursorCol
  else
    t

def linebuffPutc (c : Byte) : Except Stop Tty :=
  if t.lineBuffLen < ReadDevice.buffSize .tty then
    if 0 ≤ t.lineBuffLen ∧ t.lineBuffLen < lineBuffSize then
      .ok { t with lineBuff := Function.update t.lineBuff t.lineBuffLen c, lineBuffLen := t.lineBuffLen + 1 }
    else
      .error .outOfBounds
  else
    .ok t

def setArg (index value : Int) : Tty :=
  { t with escArgs := Function.update t.escArgs index value, events := t.events ++ [.escArg index] }

def parseArg (c : Byte) : Tty :=
  if c = ascii ';' then
    { t with escStage := t.escStage + 1 }
  else if isDigit c then
    let t := t.setArg (t.escStage - 1) (intWrap (t.escArgs (t.escStage - 1) * 10))
    t.setArg (t.escStage - 1) (intWrap (t.escArgs (t.escStage - 1) + (c.toNat - (ascii '0').toNat)))
  else
    { t with escStage := 3 }

def intOr (a b : Int) : Int := (BitVec.ofInt 16 a ||| BitVec.ofInt 16 b).toInt

def brightColor (arg : Int) : Int := intOr (intWrap (arg - 90)) 0x08

def color : Byte :=
  let fg := if t.escArgs 0 < 38 then intWrap (t.escArgs 0 - 30) else brightColor (t.escArgs 0)
  let bg := if t.escArgs 1 < 38 then (if t.escArgs 1 ≠ 0 then intWrap (t.escArgs 1 - 30) else 0)
    else brightColor (t.escArgs 1)
  BitVec.ofInt 8 (intOr fg (intWrap (bg * 16)))

def count : Int := max (t.escArgs 0) 1

def finalByte (c : Byte) : Tty :=
  if c = ascii 'm' then { t with vga := t.vga.setColor t.color }
  else if c = ascii 'A' then { t with cursorRow := intWrap (t.cursorRow - max t.count 0) }
  else if c = ascii 'B' then Tty.newLine^[t.count.toNat] t
  else if c = ascii 'C' then { t with cursorCol := min (intWrap (t.cursorCol + t.count)) (vgaTextWidth - 1) }
  else if c = ascii 'D' then { t with cursorCol := max (intWrap (t.cursorCol - t.count)) 0 }
  else if c = ascii 'H' then { t with
    cursorCol := min (t.escArgs 0) (vgaTextWidth - 1)
    cursorRow := min (t.escArgs 1) (vgaTextHeight - 1) }
  else t

def endEscape : Tty := { t with inEscapeCode := false, escStage := 0 }

def handleEscapes (c : Byte) : Tty :=
  if t.escStage = 0 then
    if c ≠ ascii '[' then t.endEscape
    else ({ t with escStage := 1 }.setArg 1 0).setArg 0 0
  else
    let t := if t.escStage = 1 ∨ t.escStage = 2 then t.parseArg c else t
    if t.escStage = 3 then (t.finalByte c).endEscape else t

def putControl (c : Byte) : Tty :=
  if c = ascii '\n' then { t.newLine with cursorCol := 0 }
  else if c = 8 then (if t.cursorCol > 0 then { t with cursorCol := t.cursorCol - 1 } else t)
  else if c = 27 then { t with inEscapeCode := true, escStage := 0 }
  else t

def putPrintable (c : Byte) : Tty :=
  let t := t.vgaPutCharAt c t.cursorRow t.cursorCol
  if intWrap (t.cursorCol + 1) ≥ vgaTextWidth then newLine { t with cursorCol := 0 }
  else { t with cursorCol := intWrap (t.cursorCol + 1) }

def putc (c : Byte) : Tty :=
  if t.inEscapeCode then t.handleEscapes c
  else if isPrintable c then t.putPrintable c
  else t.putControl c

def caret (c : Byte) : Byte := if c.toNat ≤ 31 then ascii '@' + c else ascii '?'

def submitChar (c : Byte) : Except Stop Tty :=
  if isPrintable c then do
    let t ← t.linebuffPutc c
    .ok (t.putc c)
  else if c = ascii '\n' then do
    let t ← t.linebuffPutc c
    let t ← t.submitLineBuff
    .ok { t.newLine with cursorCol := 0 }
  else if c = 8 then
    .ok t.linebuffErase
  else
    ((t.putc (ascii '^')).putc (caret c)).linebuffPutc c

end Tty

def ttyInit : Tty where
  vga := vgaInit
  cursorCol := 0
  cursorRow := 0
  lineBuff := fun _ => 0
  lineBuffLen := 0
  input := readRingInit (ReadDevice.buffSize .tty)
  escStage := 0
  escArgs := fun _ => 0
  inEscapeCode := false
  events := []

inductive TtyAction
  | putc (c : Byte)
  | submitChar (c : Byte)
  deriving DecidableEq

structure TtyRun where
  tty : Tty
  halted : Option Stop

def ttyStep (s : TtyRun) (action : TtyAction) : Option TtyRun :=
  if s.halted.isSome then
    none
  else
    match action with
    | .putc c => some ⟨s.tty.putc c, none⟩
    | .submitChar c =>
      match s.tty.submitChar c with
      | .ok tty => some ⟨tty, none⟩
      | .error stop => some ⟨s.tty, some stop⟩

def ttyStart : TtyRun := ⟨ttyInit, none⟩

end PiOS.Kernel
