import PiOS.Proof.Print
import PiOS.Text.Numeral

namespace PiOS.Proof.Format
open Kernel Print Text

def digitByte (digit : Nat) : Byte := ascii digit.digitChar

def unsigned (base n : Nat) : List Byte := (numeral base n).map digitByte

def signed (z : Int) : List Byte := if z < 0 then ascii '-' :: unsigned 10 z.natAbs else unsigned 10 z.natAbs

inductive Item
  | literal (b : Byte) (plain : b ≠ 0 ∧ b ≠ ascii '%')
  | d (w : Word)
  | i (w : Word)
  | u (w : Word)
  | x (w : Word)
  | s (ptr : Word) (text : List Byte) (free : 0 ∉ text)
  | c (w : Word)
  | lx (l : BitVec 32)

namespace Item

def spelling : Item → List Byte
  | literal b _ => [b]
  | d _ => [ascii '%', ascii 'd']
  | i _ => [ascii '%', ascii 'i']
  | u _ => [ascii '%', ascii 'u']
  | x _ => [ascii '%', ascii 'x']
  | s _ _ _ => [ascii '%', ascii 's']
  | c _ => [ascii '%', ascii 'c']
  | lx _ => [ascii '%', ascii 'l', ascii 'x']

def words : Item → List Word
  | literal _ _ => []
  | d w | i w | u w | x w | c w => [w]
  | s ptr _ _ => [ptr]
  | lx l => [l.setWidth 16, (l >>> 16).setWidth 16]

def rendering : Item → List Byte
  | literal b _ => [b]
  | d w | i w => signed w.toInt
  | u w => unsigned 10 w.toNat
  | x w => unsigned 16 w.toNat
  | s _ text _ => text
  | c w => [w.setWidth 8]
  | lx l => unsigned 16 l.toNat

end Item

def Item.strings : Item → List (Word × List Byte)
  | s ptr text _ => [(ptr, text)]
  | _ => []

def spelling (items : List Item) : List Byte := items.flatMap Item.spelling

def words (items : List Item) : List Word := items.flatMap Item.words

def rendering (items : List Item) : List Byte := items.flatMap Item.rendering

section Parse

def digitValue (b : Byte) : Option Nat := (List.range 16).find? fun digit => digitByte digit = b

def parseUnsigned (base : Nat) (text : List Byte) : Option Nat := (text.mapM digitValue).map (value base)

def parseSigned : List Byte → Option Int
  | [] => none
  | b :: text =>
    if b = ascii '-' then (parseUnsigned 10 text).map fun n : Nat => -(n : Int)
    else (parseUnsigned 10 (b :: text)).map fun n : Nat => (n : Int)

theorem digitValue_digitByte {digit : Nat} (small : digit < 16) : digitValue (digitByte digit) = some digit := by
  revert digit
  decide +kernel

theorem digitByte_ne_minus {digit : Nat} (small : digit < 16) : digitByte digit ≠ ascii '-' := by
  revert digit
  decide

theorem mapM_digitValue {digits : List Nat} (small : ∀ digit ∈ digits, digit < 16) :
    (digits.map digitByte).mapM digitValue = some digits := by
  induction digits with
  | nil => rfl
  | cons digit digits ih =>
    rw [List.forall_mem_cons] at small
    simp [digitValue_digitByte small.1, ih small.2]

variable {base : Nat}

theorem numeral_lt_sixteen (large : 1 < base) (small : base ≤ 16) (n : Nat) : ∀ digit ∈ numeral base n, digit < 16 :=
  fun _ member => (numeral_lt large member).trans_le small

theorem parse_unsigned (large : 1 < base) (small : base ≤ 16) (n : Nat) :
    parseUnsigned base (unsigned base n) = some n := by
  rw [parseUnsigned, unsigned, mapM_digitValue (numeral_lt_sixteen large small n), Option.map_some, value_numeral]

theorem parse_signed (z : Int) : parseSigned (signed z) = some z := by
  have number : parseUnsigned 10 (unsigned 10 z.natAbs) = some z.natAbs := parse_unsigned (by decide) (by decide) _
  unfold signed
  split
  · rename_i negative
    rw [parseSigned, if_pos rfl, number, Option.map_some]
    congr 1
    omega
  · rename_i positive
    obtain ⟨digit, digits, shape⟩ := List.exists_cons_of_ne_nil (numeral_ne_nil 10 z.natAbs)
    have first : digit < 16 := numeral_lt_sixteen (by decide) (by decide) z.natAbs digit (shape ▸ List.mem_cons_self)
    rw [unsigned, shape, List.map_cons] at number ⊢
    rw [parseSigned, if_neg (digitByte_ne_minus first), number, Option.map_some]
    congr 1
    omega

end Parse

section Digits

theorem utoaDigit_eq {digit : Nat} (small : digit < 16) : utoaDigit digit = digitByte digit := by
  revert digit
  decide

variable {base : Nat} (large : 1 < base) (small : base ≤ 16)
include large small

theorem utoaLoop_eq {fuel n : Nat} (enough : n < 2 ^ fuel) :
    utoaLoop base fuel n = (Nat.digits base n).map digitByte := by
  induction fuel generalizing n with
  | zero =>
    obtain rfl : n = 0 := by omega
    simp [utoaLoop]
  | succ fuel ih =>
    unfold utoaLoop
    split
    · rename_i zero
      simp [zero]
    · rename_i nonzero
      have positive : 0 < n := Nat.pos_of_ne_zero nonzero
      have rest : n / base < 2 ^ fuel := by
        apply Nat.div_lt_of_lt_mul
        have twice : 2 * 2 ^ fuel ≤ base * 2 ^ fuel := Nat.mul_le_mul_right _ large
        rw [Nat.pow_succ] at enough
        omega
      rw [Nat.digits_def' large positive, List.map_cons, ih rest,
        utoaDigit_eq ((Nat.mod_lt n (by omega)).trans_le small)]

theorem utoa_eq (num : Word) : utoa num base = unsigned base num.toNat := by
  unfold utoa unsigned numeral
  by_cases zero : num = 0
  · rw [if_pos zero, zero]
    rfl
  · have nonzero : num.toNat ≠ 0 := fun same => zero (BitVec.eq_of_toNat_eq same)
    rw [if_neg zero, if_neg nonzero, utoaLoop_eq large small num.isLt, swapHalves_eq,
      List.map_reverse]

end Digits

theorem formatInt_eq (w : Word) : formatInt w = signed w.toInt := by
  have bound := w.isLt
  unfold formatInt signed
  rw [utoa_eq (by decide) (by decide), utoa_eq (by decide) (by decide)]
  by_cases negative : w.toInt < 0
  · rw [if_pos negative, if_pos (show w.Negative from negative)]
    have opposite : (-w).toNat = w.toInt.natAbs := by
      rw [BitVec.toInt_eq_toNat_cond] at negative ⊢
      rw [BitVec.toNat_neg]
      split at negative
      · omega
      · omega
    rw [opposite]
  · rw [if_neg negative, if_neg (show ¬ w.Negative from negative)]
    have same : w.toNat = w.toInt.natAbs := by
      rw [BitVec.toInt_eq_toNat_cond] at negative ⊢
      split at negative
      · omega
      · omega
    rw [same]

theorem formatLong_eq (l : BitVec 32) : formatLong (l.setWidth 16) ((l >>> 16).setWidth 16) = unsigned 16 l.toNat := by
  have bound := l.isLt
  have low : (l.setWidth 16).toNat = l.toNat % 16 ^ 4 := BitVec.toNat_setWidth 16 l
  have high : ((l >>> 16).setWidth 16).toNat = l.toNat / 16 ^ 4 := by
    rw [BitVec.toNat_setWidth, BitVec.toNat_ushiftRight, Nat.shiftRight_eq_div_pow]
    omega
  have parts : l.toNat = l.toNat / 16 ^ 4 * 16 ^ 4 + l.toNat % 16 ^ 4 := (Nat.div_add_mod' _ _).symm
  have zero : digitByte 0 = ascii '0' := rfl
  unfold formatLong
  rw [utoa_eq (by decide) (by decide), utoa_eq (by decide) (by decide), low, high]
  split
  · rename_i nonzero
    have some : l.toNat / 16 ^ 4 ≠ 0 := fun none => nonzero (BitVec.eq_of_toNat_eq (high.trans none))
    conv_rhs => rw [parts, unsigned, numeral_parts (by decide) some (by decide) (Nat.mod_lt _ (by decide))]
    rw [List.map_append, List.map_append, List.map_replicate, zero, unsigned, unsigned, List.length_map]
  · rename_i none
    rw [not_not] at none
    have empty : l.toNat / 16 ^ 4 = 0 := by rw [← high, none]; rfl
    conv_rhs => rw [parts, empty, Nat.zero_mul, Nat.zero_add]

end PiOS.Proof.Format
