import PiOS.Kernel.Libk.Kprintf

namespace PiOS.Libc
open Kernel

structure PrintfArgs where
  format : List Byte
  vlist : Nat → Word
  string : Word → List Byte
  formatZeros : 0 ∉ format
  stringZeros : ∀ ptr, 0 ∉ string ptr
  stringShort : ∀ ptr, (string ptr).length < 0x10000

structure Printf where
  buffToWrite : Word
  buffMax : Word
  printfSize : Word
  stores : List (Word × Byte)

def memcpy : Word → List Byte → List (Word × Byte)
  | _, [] => []
  | dest, b :: src => (dest, b) :: memcpy (dest + 1) src

namespace Printf

variable (s : Printf)

-- all of `buff` is copied, and the pointer moves on by `to_write`
def printfWrite (buff : List Byte) : Printf :=
  let len := BitVec.ofNat 16 buff.length
  let toWrite := if s.buffMax ≤ s.buffToWrite + len then s.buffMax - s.buffToWrite else len
  { s with
    buffToWrite := s.buffToWrite + toWrite
    printfSize := s.printfSize + toWrite
    stores := s.stores ++ memcpy s.buffToWrite buff }

def printfPutc (c : Byte) : Printf :=
  if s.buffToWrite < s.buffMax then
    { s with
      buffToWrite := s.buffToWrite + 1
      printfSize := s.printfSize + 1
      stores := s.stores ++ [(s.buffToWrite, c)] }
  else
    s

def printfUtoa (num : Word) (base : Nat) : Printf :=
  if num = 0 then s.printfPutc (ascii '0') else s.printfWrite (swapHalves (utoaLoop base 16 num.toNat))

def printfInt (iParam : Word) : Printf :=
  if iParam.Negative then (s.printfPutc (ascii '-')).printfUtoa (-iParam) 10 else s.printfUtoa iParam 10

end Printf

def printfLoop (args : PrintfArgs) : List Byte → Nat → Printf → Printf
  | [], _, s => s
  | c :: str, i, s =>
    if c = ascii '%' then
      match str with
      | [] => s.printfPutc (ascii ' ')
      | d :: rest =>
        if d = ascii 'd' ∨ d = ascii 'i' then
          printfLoop args rest (i + 1) (s.printfInt (args.vlist i))
        else if d = ascii 'u' then
          printfLoop args rest (i + 1) (s.printfUtoa (args.vlist i) 10)
        else if d = ascii 'x' then
          printfLoop args rest (i + 1) (s.printfUtoa (args.vlist i) 16)
        else if d = ascii 's' then
          printfLoop args rest (i + 1) (s.printfWrite (args.string (args.vlist i)))
        else if d = ascii 'c' then
          printfLoop args rest (i + 1) (s.printfPutc ((args.vlist i).setWidth 8))
        else
          -- the character is not passed: it is looked at again
          printfLoop args (d :: rest) i (s.printfPutc (ascii ' '))
    else
      printfLoop args str i (s.printfPutc c)

def printfCore (args : PrintfArgs) (s : Printf) : Printf :=
  let s := printfLoop args args.format 0 s
  Printf.printfPutc { s with buffMax := s.buffMax + 1 } 0

def vsnprintfStart (buffer bufsz : Word) : Printf where
  buffToWrite := buffer
  buffMax := if bufsz = 0xffff then 0xffff else buffer + bufsz - 1
  printfSize := 0
  stores := []

def vsnprintf (buffer bufsz : Word) (args : PrintfArgs) : Word × List (Word × Byte) :=
  if bufsz = 0 then
    (0, [])
  else
    let s := printfCore args (vsnprintfStart buffer bufsz)
    (s.printfSize, s.stores)

def sprintf (buffer : Word) (args : PrintfArgs) : Word × List (Word × Byte) := vsnprintf buffer 0xffff args

end PiOS.Libc
