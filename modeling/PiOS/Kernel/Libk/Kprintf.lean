import PiOS.Kernel.Sys.MqCalls

namespace PiOS.Kernel

def HeapBytes.load (bytes : HeapBytes) (a : Nat) : Byte := bytes (a % 0x10000)

/-- The loop of `strlen`. A string that has not ended after all of memory does not end. -/
def strlenLoop (bytes : HeapBytes) (str : Nat) : Nat → Nat → Nat
  | 0, len => len
  | fuel + 1, len => if bytes.load (str + len) = 0 then len else strlenLoop bytes str fuel (len + 1)

def strlen (bytes : HeapBytes) (str : Nat) : Nat := strlenLoop bytes str 0x10000 0

def cBytes (bytes : HeapBytes) (str : Nat) : List Byte :=
  (List.range (strlen bytes str)).map fun j => bytes.load (str + j)

def utoaDigit (digit : Nat) : Byte :=
  if digit < 10 then ascii '0' + BitVec.ofNat 8 digit else ascii 'a' + BitVec.ofNat 8 (digit - 10)

def utoaLoop (base : Nat) : Nat → Nat → List Byte
  | 0, _ => []
  | fuel + 1, num => if num = 0 then [] else utoaDigit (num % base) :: utoaLoop base fuel (num / base)

def swapTurn (pos : Nat) (buff : List Byte) (i : Nat) : List Byte :=
  (buff.set i (buff.getD (pos - i - 1) 0)).set (pos - i - 1) (buff.getD i 0)

def swapHalves (buff : List Byte) : List Byte :=
  (List.range (buff.length / 2)).foldl (swapTurn buff.length) buff

theorem swapTurns_at (buff : List Byte) {n : Nat} (half : n ≤ buff.length / 2) :
    ((List.range n).foldl (swapTurn buff.length) buff).length = buff.length ∧
      ∀ j < buff.length, ((List.range n).foldl (swapTurn buff.length) buff)[j]? =
        if j < n ∨ buff.length - n ≤ j then buff[buff.length - 1 - j]? else buff[j]? := by
  induction n with
  | zero => exact ⟨rfl, fun j small => by simp; omega⟩
  | succ n ih =>
    obtain ⟨length, before⟩ := ih (by omega)
    rw [List.range_succ, List.foldl_append, List.foldl_cons, List.foldl_nil]
    generalize (List.range n).foldl (swapTurn buff.length) buff = done at length before
    refine ⟨by simp [swapTurn, length], fun j small => ?_⟩
    -- neither place of this turn has been touched
    have low := before n (by omega)
    have high := before (buff.length - n - 1) (by omega)
    rw [if_neg (by omega)] at low high
    simp only [swapTurn, List.getElem?_set, List.length_set, length, List.getD_eq_getElem?_getD, low, high]
    grind

@[simp] theorem swapHalves_eq (buff : List Byte) : swapHalves buff = buff.reverse := by
  obtain ⟨length, values⟩ := swapTurns_at buff le_rfl
  refine List.ext_getElem? fun j => ?_
  by_cases small : j < buff.length
  · rw [swapHalves, values j small, List.getElem?_reverse small]
    split
    · rfl
    · rw [show buff.length - 1 - j = j by omega]
  · rw [List.getElem?_eq_none, List.getElem?_eq_none] <;> simp [swapHalves, length] <;> omega

def utoa (num : Word) (base : Nat) : List Byte :=
  if num = 0 then [ascii '0'] else swapHalves (utoaLoop base 16 num.toNat)

def formatInt (w : Word) : List Byte := if w.Negative then ascii '-' :: utoa (-w) 10 else utoa w 10

def formatLong (low high : Word) : List Byte :=
  if high ≠ 0 then
    utoa high 16 ++ List.replicate (4 - (utoa low 16).length) (ascii '0') ++ utoa low 16
  else
    utoa low 16

structure Printer where
  bytes : HeapBytes
  buff : Nat
  str : Nat
  vlist : Nat

namespace Printer

variable (limit : Nat) (c : Printer)

def current : Byte := c.bytes.load c.str

def next : Printer := { c with str := c.str + 1 }

def vaArg : Word × Printer :=
  (wordAt [c.bytes.load c.vlist, c.bytes.load (c.vlist + 1)] 0, { c with vlist := c.vlist + 2 })

def put (text behind : List Byte) : Except Stop Printer :=
  if c.buff + (text ++ behind).length ≤ limit then
    .ok { c with bytes := c.bytes.write c.buff (text ++ behind), buff := c.buff + text.length }
  else
    .error .outOfBounds

def strcpyLoop : Nat → HeapBytes → Nat → Nat → Except Stop HeapBytes
  | 0, _, _, _ => .error .outOfBounds
  | fuel + 1, bytes, dest, src =>
    if dest < limit then
      if bytes.load src ≠ 0 then
        strcpyLoop fuel (bytes.write dest [bytes.load src]) (dest + 1) (src + 1)
      else
        .ok (bytes.write dest [0])
    else
      .error .outOfBounds

def strcpy (bytes : HeapBytes) (dest src : Nat) : Except Stop HeapBytes :=
  strcpyLoop limit (limit - dest + 1) bytes dest src

def putString (sParam : Nat) : Except Stop Printer := do
  let bytes ← strcpy limit c.bytes c.buff sParam
  .ok { c with bytes := bytes, buff := c.buff + strlen bytes sParam }

def directiveLong : Except Stop Printer :=
  if c.current = ascii 'x' then
    let (low, c) := c.next.vaArg
    let (high, c) := c.vaArg
    c.put limit (formatLong low high) [0]
  else
    c.next.put limit [ascii 'E'] []

def directive : Except Stop Printer :=
  if c.current = ascii 'd' ∨ c.current = ascii 'i' then
    let (iParam, c) := c.next.vaArg
    c.put limit (formatInt iParam) [0]
  else if c.current = ascii 'u' then
    let (iParam, c) := c.next.vaArg
    c.put limit (utoa iParam 10) [0]
  else if c.current = ascii 'x' then
    let (iParam, c) := c.next.vaArg
    c.put limit (utoa iParam 16) [0]
  else if c.current = ascii 's' then
    let (sParam, c) := c.next.vaArg
    c.putString limit sParam.toNat
  else if c.current = ascii 'c' then
    let (cParam, c) := c.next.vaArg
    c.put limit [cParam.setWidth 8] []
  else if c.current = ascii 'l' then
    c.next.directiveLong limit
  else
    -- the character is not passed: it is looked at again
    c.put limit [ascii 'E'] []

def turn : Except Stop Printer :=
  if c.current = ascii '%' then c.next.directive limit else c.next.put limit [c.current] []

/-- The loop of `vsprintf`. A turn passes a character, and only `%s` with an empty string stores none, which
needs a zero in memory; so a string that has not ended after all of memory has filled the buffer. -/
def loop : Nat → Printer → Except Stop Printer
  | 0, _ => .error .outOfBounds
  | fuel + 1, c =>
    if c.current ≠ 0 then do
      let c ← c.turn limit
      loop fuel c
    else
      c.put limit [] [0]

def vsprintf : Except Stop Printer := loop limit 0x10000 c

def returned (initialBuff : Nat) : Word := BitVec.ofNat 16 (c.buff - initialBuff)

end Printer

end PiOS.Kernel
