import Mathlib.Data.Nat.Digits.Lemmas

namespace PiOS.Text

def numeral (base n : Nat) : List Nat := if n = 0 then [0] else (Nat.digits base n).reverse

def value (base : Nat) (digits : List Nat) : Nat := digits.foldl (fun n digit => n * base + digit) 0

variable {base n : Nat}

theorem value_reverse (base : Nat) (digits : List Nat) : value base digits.reverse = Nat.ofDigits base digits := by
  induction digits with
  | nil => rfl
  | cons digit digits ih =>
    rw [List.reverse_cons, value, List.foldl_append, ← value, ih, Nat.ofDigits_cons]
    simp [Nat.mul_comm, Nat.add_comm]

theorem value_numeral (base n : Nat) : value base (numeral base n) = n := by
  unfold numeral
  split
  · rename_i zero
    rw [zero]
    simp [value]
  · rw [value_reverse, Nat.ofDigits_digits]

theorem numeral_lt (large : 1 < base) {digit : Nat} (member : digit ∈ numeral base n) : digit < base := by
  unfold numeral at member
  split at member
  · rw [List.mem_singleton.mp member]
    omega
  · exact Nat.digits_lt_base large (List.mem_reverse.mp member)

theorem numeral_ne_nil (base n : Nat) : numeral base n ≠ [] := by
  unfold numeral
  split
  · exact List.cons_ne_nil _ _
  · rename_i nonzero
    rwa [ne_eq, List.reverse_eq_nil_iff, Nat.digits_eq_nil_iff_eq_zero]

theorem numeral_parts (large : 1 < base) {high low width : Nat} (some : high ≠ 0) (wide : 0 < width)
    (small : low < base ^ width) : numeral base (high * base ^ width + low) =
      numeral base high ++ List.replicate (width - (numeral base low).length) 0 ++ numeral base low := by
  have short : (Nat.digits base low).length ≤ width := (Nat.digits_length_le_iff large low).mpr small
  have whole : high * base ^ width + low ≠ 0 := by
    have positive := Nat.mul_pos (Nat.pos_of_ne_zero some) (Nat.pow_pos (n := width) (zero_lt_one.trans large))
    omega
  have joined := Nat.digits_append_zeroes_append_digits (k := width - (Nat.digits base low).length) (n := low) large
    (Nat.pos_of_ne_zero some)
  rw [Nat.add_sub_cancel' short, Nat.add_comm, Nat.mul_comm] at joined
  have zeros : List.replicate (width - (Nat.digits base low).length) 0 ++ (Nat.digits base low).reverse =
      List.replicate (width - (numeral base low).length) 0 ++ numeral base low := by
    unfold numeral
    split
    · rename_i zero
      rw [zero, Nat.digits_zero, List.reverse_nil, List.append_nil, List.length_singleton, ← List.replicate_succ',
        List.length_nil, Nat.sub_zero, Nat.sub_add_cancel wide]
    · rw [List.length_reverse]
  rw [List.append_assoc, ← zeros]
  conv_lhs => rw [numeral, if_neg whole, ← joined]
  rw [List.reverse_append, List.reverse_append, List.reverse_replicate, numeral, if_neg some]

end PiOS.Text
