import PiOS.Kernel.Basic

namespace PiOS.Kernel

def releaseScancode : Byte := 0xf0
def extendedScancode : Byte := 0xe0

def lshiftScancode : Byte := 0x12
def rshiftScancode : Byte := 0x59
def ctrlScancode : Byte := 0x14

def arrUpEscancode : Byte := 0x75
def arrDownEscancode : Byte := 0x72
def arrLeftEscancode : Byte := 0x6b
def arrRightEscancode : Byte := 0x74

def printableScancodes : List Char := [
  ' ', ' ', ' ', ' ', ' ', ' ', ' ', ' ', ' ', ' ', ' ', ' ', ' ', '\t', '`', ' ',
  ' ', ' ', ' ', ' ', ' ', 'q', '1', ' ', ' ', ' ', 'z', 's', 'a', 'w', '2', ' ',
  ' ', 'c', 'x', 'd', 'e', '4', '3', ' ', ' ', ' ', 'v', 'f', 't', 'r', '5', ' ',
  ' ', 'n', 'b', 'h', 'g', 'y', '6', ' ', ' ', ' ', 'm', 'j', 'u', '7', '8', ' ',
  ' ', ',', 'k', 'i', 'o', '0', '9', ' ', ' ', '.', '/', 'l', ';', 'p', '-', ' ',
  ' ', ' ', '\'', ' ', '[', '=', ' ', ' ', ' ', ' ', '\n', ']', ' ', '\\', ' ', ' ',
  ' ', ' ', ' ', ' ', ' ', ' ', '\x08']

def shiftScancodes : List Char := [
  ' ', ' ', ' ', ' ', ' ', ' ', ' ', ' ', ' ', ' ', ' ', ' ', ' ', '\t', '~', ' ',
  ' ', ' ', ' ', ' ', ' ', 'Q', '!', ' ', ' ', ' ', 'Z', 'S', 'A', 'W', '@', ' ',
  ' ', 'C', 'X', 'D', 'E', '$', '#', ' ', ' ', ' ', 'V', 'F', 'T', 'R', '%', ' ',
  ' ', 'N', 'B', 'H', 'G', 'Y', '^', ' ', ' ', ' ', 'M', 'J', 'U', '&', '*', ' ',
  ' ', '<', 'K', 'I', 'O', ')', '(', ' ', ' ', '>', '?', 'L', ':', 'P', '_', ' ',
  ' ', ' ', '"', ' ', '\x7b', '+', ' ', ' ', ' ', ' ', '\n', '\x7d', ' ', '|', ' ', ' ',
  ' ', ' ', ' ', ' ', ' ', ' ', '\x08']

/-- An entry of a table. The language gives no meaning to a read behind its end. -/
def scancodeEntry (table : List Char) (scancode : Byte) : Except Stop Byte :=
  match table[scancode.toNat]? with
  | some c => .ok (ascii c)
  | none => .error .outOfBounds

def stateShift : Byte := 1
def stateCtrl : Byte := 4

structure Keyboard where
  prevScancode : Byte
  keyboardState : Byte
  extended : Bool
  deriving DecidableEq

namespace Keyboard

def init : Keyboard := ⟨0, 0, false⟩

variable (k : Keyboard)

def shift : Bool := k.keyboardState &&& stateShift ≠ 0

def ctrl : Bool := k.keyboardState &&& stateCtrl ≠ 0

def setState (bit : Byte) : Byte :=
  if k.prevScancode = releaseScancode then k.keyboardState &&& ~~~bit else k.keyboardState ||| bit

def arrowKeys (scancode : Byte) : List Byte :=
  if scancode = arrUpEscancode then
    [0x1b, ascii '[', ascii 'A']
  else if scancode = arrDownEscancode then
    [0x1b, ascii '[', ascii 'B']
  else if scancode = arrRightEscancode then
    [0x1b, ascii '[', ascii 'C']
  else if scancode = arrLeftEscancode then
    [0x1b, ascii '[', ascii 'D']
  else
    []

def outc (scancode : Byte) : Except Stop Byte := do
  let shifted ← scancodeEntry shiftScancodes scancode
  let printable ← scancodeEntry printableScancodes scancode
  if k.ctrl then
    if ascii '@' ≤ shifted ∧ shifted ≤ ascii 'Z' ∨ ascii '^' ≤ shifted ∧ shifted ≤ ascii '_' then
      .ok (shifted - ascii '@')
    else if ascii '[' ≤ printable ∧ printable ≤ ascii ']' then
      .ok (printable - ascii '@')
    else if shifted = ascii '?' then
      .ok 127
    else
      .ok (if k.shift then shifted else printable)
  else if k.shift then
    .ok shifted
  else
    .ok printable

def printScancode (scancode : Byte) : Except Stop (Keyboard × List Byte) :=
  if scancode = 0x81 then
    .ok (k, [])
  else if scancode = lshiftScancode ∨ scancode = rshiftScancode then
    .ok (⟨scancode, k.setState stateShift, k.extended⟩, [])
  else if scancode = ctrlScancode then
    .ok (⟨scancode, k.setState stateCtrl, k.extended⟩, [])
  else if scancode = extendedScancode then
    .ok (⟨scancode, k.keyboardState, true⟩, [])
  else if k.extended then
    .ok (⟨scancode, k.keyboardState, scancode = releaseScancode⟩,
      if k.prevScancode = releaseScancode then [] else arrowKeys scancode)
  else if k.prevScancode ≠ releaseScancode ∧ scancode ≠ releaseScancode then do
    let outc ← k.outc scancode
    .ok (⟨scancode, k.keyboardState, k.extended⟩, [outc])
  else
    .ok (⟨scancode, k.keyboardState, k.extended⟩, [])

def printScancodes (k : Keyboard) : List Byte → Except Stop (Keyboard × List Byte)
  | [] => .ok (k, [])
  | scancode :: scancodes => do
    let (k, sent) ← k.printScancode scancode
    let (k, later) ← k.printScancodes scancodes
    .ok (k, sent ++ later)

end Keyboard

end PiOS.Kernel
