import PiOS.Libc.Printf

namespace PiOS.Libc
open Kernel

def eof : Word := -1

inductive BuffType
  | unbuff
  | linebuff
  | fullbuff
  deriving DecidableEq

/-- `struct __FILE_INTERNAL`; `buff` is memory from the pointer on. -/
structure File where
  fileFd : Word
  buffType : BuffType
  buff : Nat → Byte
  buffSize : Word
  buffClen : Word
  status : Word

inductive StdioEvent
  | copy (place : Nat) (data : List Byte)
  | flush (fd : Word) (data : List Byte)
  | write (fd : Word) (data : List Byte)

def bytesAt (buffer : Nat → Byte) (n : Nat) : List Byte := (List.range n).map buffer

def copyTo (buff : Nat → Byte) (place : Nat) (data : List Byte) : Nat → Byte := fun i =>
  if place ≤ i then data.getD (i - place) (buff i) else buff i

section

variable (answer : StdioEvent → Word) (file : File)

def fflush : Word × File × List StdioEvent :=
  if file.buffType = .unbuff ∨ file.buffClen = 0 then
    (0, file, [])
  else
    let call := StdioEvent.flush file.fileFd (bytesAt file.buff file.buffClen.toNat)
    let sysRes := answer call
    let file := { file with buffClen := 0 }
    if sysRes.Negative then (eof, { file with status := -sysRes }, [call]) else (0, file, [call])

def fwrite (buffer : Nat → Byte) (size_ nmemb : Word) : Word × File × List StdioEvent :=
  let size := size_ * nmemb
  let data := bytesAt buffer size.toNat
  let writeToBuff := file.buffType ≠ .unbuff ∧ file.buffClen + size ≤ file.buffSize
  let writeToBuff := writeToBuff ∧ ¬ (file.buffType = .linebuff ∧ ascii '\n' ∈ data)
  if writeToBuff then
    (size, { file with buff := copyTo file.buff file.buffClen.toNat data, buffClen := file.buffClen + size },
      [.copy file.buffClen.toNat data])
  else
    let (flushed, file, events) := fflush answer file
    if flushed ≠ 0 then
      (0, file, events)
    else
      let call := StdioEvent.write file.fileFd data
      let sysRes := answer call
      if sysRes.Negative then
        (0, { file with status := -sysRes }, events ++ [call])
      else
        (sysRes, { file with status := 0 }, events ++ [call])

def fputc (ch : Word) : Word × File × List StdioEvent :=
  let (written, file, events) := fwrite answer file (fun _ => ch.setWidth 8) 1 1
  (if written ≠ 0 then ch else eof, file, events)

def fputs (str : List Byte) : Word × File × List StdioEvent :=
  let (written, file, events) := fwrite answer file (fun j => str.getD j 0) (BitVec.ofNat 16 str.length) 1
  (if written ≠ 0 then written else eof, file, events)

def fclose (closed : Word) (standard : Bool) : Word × Option File × List StdioEvent :=
  if file.fileFd = -1 then
    (eof, some file, [])
  else
    let (flushed, file, events) := fflush answer file
    (if flushed ≠ 0 ∨ closed ≠ 0 then eof else 0, if standard then some { file with fileFd := -1 } else none, events)

end

structure Sink (σ : Type) where
  putc : σ → Byte → σ
  write : σ → List Byte → σ

namespace Sink

variable {σ : Type} (sink : Sink σ)

def utoa (s : σ) (num : Word) (base : Nat) : σ :=
  if num = 0 then sink.putc s (ascii '0') else sink.write s (swapHalves (utoaLoop base 16 num.toNat))

def int (s : σ) (iParam : Word) : σ :=
  if iParam.Negative then sink.utoa (sink.putc s (ascii '-')) (-iParam) 10 else sink.utoa s iParam 10

def loop (args : PrintfArgs) : List Byte → Nat → σ → σ
  | [], _, s => s
  | c :: str, i, s =>
    if c = ascii '%' then
      match str with
      | [] => sink.putc s (ascii ' ')
      | d :: rest =>
        if d = ascii 'd' ∨ d = ascii 'i' then
          loop args rest (i + 1) (sink.int s (args.vlist i))
        else if d = ascii 'u' then
          loop args rest (i + 1) (sink.utoa s (args.vlist i) 10)
        else if d = ascii 'x' then
          loop args rest (i + 1) (sink.utoa s (args.vlist i) 16)
        else if d = ascii 's' then
          loop args rest (i + 1) (sink.write s (args.string (args.vlist i)))
        else if d = ascii 'c' then
          loop args rest (i + 1) (sink.putc s ((args.vlist i).setWidth 8))
        else
          loop args (d :: rest) i (sink.putc s (ascii ' '))
    else
      loop args str i (sink.putc s c)

end Sink

structure StreamPrintf where
  stream : File
  printfSize : Word
  events : List StdioEvent

def StreamPrintf.write (answer : StdioEvent → Word) (s : StreamPrintf) (buff : List Byte) : StreamPrintf :=
  let (written, stream, events) := fwrite answer s.stream (fun j => buff.getD j 0) (BitVec.ofNat 16 buff.length) 1
  ⟨stream, s.printfSize + written, s.events ++ events⟩

def StreamPrintf.putc (answer : StdioEvent → Word) (s : StreamPrintf) (c : Byte) : StreamPrintf :=
  let (written, stream, events) := fwrite answer s.stream (fun _ => c) 1 1
  ⟨stream, s.printfSize + written, s.events ++ events⟩

def streamSink (answer : StdioEvent → Word) : Sink StreamPrintf := ⟨StreamPrintf.putc answer, StreamPrintf.write answer⟩

def vfprintf (answer : StdioEvent → Word) (stream : File) (args : PrintfArgs) : Word × File × List StdioEvent :=
  let s := (streamSink answer).loop args args.format 0 ⟨stream, 0, []⟩
  (s.printfSize, s.stream, s.events)

end PiOS.Libc
