import PiOS.Kernel.Sys.FileCalls
import PiOS.Proof.HeapBytes
import PiOS.Proof.SignalFrame
import PiOS.Proof.UserCopy
import PiOS.Transition.Outcome

namespace PiOS.Proof.Print
open Kernel Heap Transition

section Strings

variable {bytes : HeapBytes} {str : Nat} {text : List Byte}

theorem load_small (bytes : HeapBytes) {a : Nat} (small : a < 0x10000) : bytes.load a = bytes a := by
  rw [HeapBytes.load, Nat.mod_eq_of_lt small]

variable {n : Nat} {j : Nat}

theorem strlenLoop_eq {fuel len : Nat} (before : ∀ j, len ≤ j → j < n → bytes.load (str + j) ≠ 0)
    (here : bytes.load (str + n) = 0) (le : len ≤ n) (enough : n < len + fuel) : strlenLoop bytes str fuel len = n := by
  induction fuel generalizing len with
  | zero => omega
  | succ fuel ih =>
    unfold strlenLoop
    by_cases last : len = n
    · rw [last, if_pos here]
    · rw [if_neg (before len le_rfl (by omega))]
      exact ih (fun j low => before j (by omega)) (by omega) (by omega)

theorem le_strlenLoop (bytes : HeapBytes) (str fuel len : Nat) : len ≤ strlenLoop bytes str fuel len := by
  induction fuel generalizing len with
  | zero => exact le_rfl
  | succ fuel ih =>
    unfold strlenLoop
    split
    · exact le_rfl
    · exact (Nat.le_succ len).trans (ih (len + 1))

theorem le_strlen (some : ∀ j < n, bytes.load (str + j) ≠ 0) (small : n ≤ 0x10000) : n ≤ strlen bytes str := by
  have loop : ∀ fuel len, len ≤ n → n ≤ len + fuel → n ≤ strlenLoop bytes str fuel len := by
    intro fuel
    induction fuel with
    | zero => exact fun len _ enough => enough
    | succ fuel ih =>
      intro len le enough
      by_cases last : len = n
      · rw [← last]
        exact le_strlenLoop bytes str _ _
      · unfold strlenLoop
        rw [if_neg (some len (by omega))]
        exact ih (len + 1) (by omega) (by omega)
  exact loop 0x10000 0 (Nat.zero_le n) (by omega)

theorem read_at {held : List Byte} (same : bytes.read str n = held) (inside : j < n) :
    held[j]? = some (bytes (str + j)) := by
  rw [← same, HeapBytes.read, List.getElem?_map, List.getElem?_range inside, Option.map_some]

theorem cBytes_eq (small : str + text.length < 0x10000) (held : bytes.read str (text.length + 1) = text ++ [0])
    (free : 0 ∉ text) : cBytes bytes str = text := by
  have at' : ∀ j (inside : j < (text ++ [0]).length), bytes.load (str + j) = (text ++ [0])[j] := by
    intro j inside
    have short : j < text.length + 1 := by simpa using inside
    have place := read_at held short
    rw [List.getElem?_eq_getElem inside] at place
    rw [load_small bytes (by omega)]
    exact (Option.some.inj place).symm
  have length : strlen bytes str = text.length := by
    apply strlenLoop_eq
    · intro j _ inside zero
      rw [at' j (by simp; omega), List.getElem_append_left inside] at zero
      exact free (zero ▸ List.getElem_mem inside)
    · rw [at' text.length (by simp)]
      simp
    · exact Nat.zero_le _
    · omega
  apply List.ext_getElem
  · simp [cBytes, length]
  · intro j inside inText
    simp only [cBytes, List.getElem_map, List.getElem_range]
    rw [at' j (by simp; omega), List.getElem_append_left inText]

theorem load_of_cBytes {b : Byte} (here : (cBytes bytes str)[j]? = some b) : bytes.load (str + j) = b := by
  obtain ⟨inside, rfl⟩ := List.getElem?_eq_some_iff.mp here
  simp [cBytes]

end Strings

section Digits

theorem utoaDigit_ne {digit : Nat} (small : digit < 16) : utoaDigit digit ≠ ascii '%' ∧ utoaDigit digit ≠ 0 := by
  revert digit
  decide

variable {b : Byte}

theorem utoaLoop_mem {base fuel num : Nat} (positive : 0 < base) (small : base ≤ 16)
    (member : b ∈ utoaLoop base fuel num) : b ≠ ascii '%' ∧ b ≠ 0 := by
  induction fuel generalizing num with
  | zero => cases member
  | succ fuel ih =>
    unfold utoaLoop at member
    split at member
    · cases member
    · rcases List.mem_cons.mp member with rfl | later
      · exact utoaDigit_ne ((Nat.mod_lt num positive).trans_le small)
      · exact ih later

theorem utoa_mem {base : Nat} (positive : 0 < base) (small : base ≤ 16) {num : Word}
    (member : b ∈ utoa num base) : b ≠ ascii '%' ∧ b ≠ 0 := by
  unfold utoa at member
  split at member
  · obtain rfl := List.mem_singleton.mp member
    decide
  · rw [swapHalves_eq] at member
    exact utoaLoop_mem positive small (List.mem_reverse.mp member)

theorem utoa_ne_nil (num : Word) (base : Nat) : utoa num base ≠ [] := by
  unfold utoa
  split
  case isTrue zero => simp
  case isFalse nonzero =>
    have positive : num.toNat ≠ 0 := fun zero => nonzero (BitVec.eq_of_toNat_eq zero)
    simp [utoaLoop, positive]

theorem formatInt_mem {w : Word} (member : b ∈ formatInt w) : b ≠ ascii '%' ∧ b ≠ 0 := by
  unfold formatInt at member
  split at member
  · rcases List.mem_cons.mp member with rfl | digit
    · decide
    · exact utoa_mem (by decide) (by decide) digit
  · exact utoa_mem (by decide) (by decide) member

theorem formatInt_ne_nil (w : Word) : formatInt w ≠ [] := by
  unfold formatInt
  split
  · simp
  · exact utoa_ne_nil w 10

theorem formatLong_mem {low high : Word} (member : b ∈ formatLong low high) : b ≠ ascii '%' := by
  unfold formatLong at member
  split at member
  · simp only [List.mem_append, List.mem_replicate] at member
    rcases member with (digit | ⟨-, rfl⟩) | digit
    · exact (utoa_mem (by decide) (by decide) digit).1
    · decide
    · exact (utoa_mem (by decide) (by decide) digit).1
  · exact (utoa_mem (by decide) (by decide) member).1

theorem formatLong_ne_nil (low high : Word) : formatLong low high ≠ [] := by
  unfold formatLong
  split
  · simp [utoa_ne_nil]
  · exact utoa_ne_nil low 16

end Digits

/-- Of the bytes only those from `buff` up to the limit have changed. -/
structure Extends (limit : Nat) (c c' : Printer) : Prop where
  later : c.buff ≤ c'.buff
  kept : ∀ x, x < c.buff ∨ limit ≤ x → c'.bytes x = c.bytes x

theorem Extends.trans {limit : Nat} {a b c : Printer} (first : Extends limit a b) (second : Extends limit b c) :
    Extends limit a c where
  later := first.later.trans second.later
  kept x outside :=
    (second.kept x (outside.imp_left fun before => before.trans_le first.later)).trans (first.kept x outside)

section Frame

variable {limit : Nat} {c c' : Printer}

variable {behind text : List Byte} {fuel : Nat} {bytes bytes' : HeapBytes} {dest src : Nat} {sParam : Nat}

theorem put_eq (room : c.buff + (text ++ behind).length ≤ limit) : c.put limit text behind =
      .ok { c with bytes := c.bytes.write c.buff (text ++ behind), buff := c.buff + text.length } :=
  if_pos room

theorem put_ok (printed : c.put limit text behind = .ok c') :
    c' = { c with bytes := c.bytes.write c.buff (text ++ behind), buff := c.buff + text.length } := by
  unfold Printer.put at printed
  split at printed
  · exact (Except.ok.inj printed).symm
  · cases printed

theorem write_outside {dest x : Nat} (bytes : HeapBytes) (room : dest + text.length ≤ limit)
    (outside : x < dest ∨ limit ≤ x) : bytes.write dest text x = bytes x :=
  outside.elim (write_before _ _) fun high => write_behind _ (room.trans high)

theorem put_extends (printed : c.put limit text behind = .ok c') : Extends limit c c' := by
  unfold Printer.put at printed
  split at printed
  · rename_i room
    obtain rfl := Except.ok.inj printed
    exact ⟨Nat.le_add_right _ _, fun x => write_outside c.bytes room⟩
  · cases printed

theorem strcpyLoop_kept (copied : Printer.strcpyLoop limit fuel bytes dest src = .ok bytes') :
    ∀ x, x < dest ∨ limit ≤ x → bytes' x = bytes x := by
  induction fuel generalizing bytes dest src with
  | zero => cases copied
  | succ fuel ih =>
    intro x outside
    unfold Printer.strcpyLoop at copied
    split at copied
    · rename_i inside
      split at copied
      · rw [ih copied x (by omega), write_outside bytes (by exact inside) outside]
      · obtain rfl := Except.ok.inj copied
        exact write_outside bytes (by exact inside) outside
    · cases copied

theorem putString_extends (printed : c.putString limit sParam = .ok c') : Extends limit c c' := by
  obtain ⟨bytes, copied, rest⟩ := bind_eq_ok.mp printed
  obtain rfl := Except.ok.inj rest
  exact ⟨Nat.le_add_right _ _, strcpyLoop_kept copied⟩

def Passed (c d : Printer) : Prop := d.bytes = c.bytes ∧ d.buff = c.buff

theorem Passed.extends {d : Printer} (passed : Passed c d) (further : Extends limit d c') : Extends limit c c' where
  later := passed.2 ▸ further.later
  kept x outside := passed.1 ▸ further.kept x (passed.2 ▸ outside)

inductive Directive (limit : Nat) (c c' : Printer) : Prop
  | text {d : Printer} {text behind : List Byte} (printed : d.put limit text behind = .ok c') (passed : Passed c d)
      (visible : text ≠ []) (plain : ascii '%' ∉ text)
  | string {d : Printer} (printed : d.putString limit c.next.vaArg.1.toNat = .ok c') (passed : Passed c d)
      (named : c.current = ascii 's')
  | char {d : Printer} (printed : d.put limit [c.next.vaArg.1.setWidth 8] [] = .ok c') (passed : Passed c d)
      (named : c.current = ascii 'c')

theorem utoa_plain {base : Nat} (positive : 0 < base) (small : base ≤ 16) (num : Word) : ascii '%' ∉ utoa num base :=
  fun member => (utoa_mem positive small member).1 rfl

theorem directive_prints (printed : c.directive limit = .ok c') : Directive limit c c' := by
  unfold Printer.directive at printed
  simp only at printed
  split at printed
  · exact .text printed ⟨rfl, rfl⟩ (formatInt_ne_nil _) fun member => (formatInt_mem member).1 rfl
  split at printed
  · exact .text printed ⟨rfl, rfl⟩ (utoa_ne_nil _ _) (utoa_plain (by decide) (by decide) _)
  split at printed
  · exact .text printed ⟨rfl, rfl⟩ (utoa_ne_nil _ _) (utoa_plain (by decide) (by decide) _)
  split at printed
  case isTrue named => exact .string printed ⟨rfl, rfl⟩ named
  split at printed
  case isTrue named => exact .char printed ⟨rfl, rfl⟩ named
  split at printed
  · unfold Printer.directiveLong at printed
    simp only at printed
    split at printed
    · exact .text printed ⟨rfl, rfl⟩ (formatLong_ne_nil _ _) fun member => formatLong_mem member rfl
    · exact .text printed ⟨rfl, rfl⟩ (by simp) (by decide)
  · exact .text printed ⟨rfl, rfl⟩ (by simp) (by decide)

theorem directive_extends (printed : c.directive limit = .ok c') : Extends limit c c' := by
  cases directive_prints printed with
  | text printed passed | char printed passed => exact passed.extends (put_extends printed)
  | string printed passed => exact passed.extends (putString_extends printed)

theorem turn_extends (printed : c.turn limit = .ok c') : Extends limit c c' := by
  unfold Printer.turn at printed
  have passed : Passed c c.next := ⟨rfl, rfl⟩
  split at printed
  · exact passed.extends (directive_extends printed)
  · exact passed.extends (put_extends printed)

theorem loop_extends (printed : Printer.loop limit fuel c = .ok c') : Extends limit c c' := by
  induction fuel generalizing c with
  | zero => cases printed
  | succ fuel ih =>
    unfold Printer.loop at printed
    split at printed
    · obtain ⟨d, first, rest⟩ := bind_eq_ok.mp printed
      exact (turn_extends first).trans (ih rest)
    · exact put_extends printed

end Frame

def kernelStack : Nat := 0xF000

theorem read_succ (bytes : HeapBytes) (ptr n : Nat) : bytes.read ptr (n + 1) = bytes ptr :: bytes.read (ptr + 1) n := by
  rw [Nat.add_comm n 1, read_add]
  rfl

theorem write_nil (bytes : HeapBytes) (ptr : Nat) : bytes.write ptr [] = bytes := by
  funext x
  simp [HeapBytes.write]

theorem write_first (bytes : HeapBytes) (ptr : Nat) (b : Byte) (data : List Byte) :
    bytes.write ptr (b :: data) ptr = b := by
  simp [HeapBytes.write]

section Copy

variable {bytes : HeapBytes} {limit fuel dest src : Nat} {text : List Byte}

theorem strcpyLoop_text (free : 0 ∉ text) (held : bytes.read src (text.length + 1) = text ++ [0])
    (small : src + text.length < 0x10000) (apart : src + text.length < dest ∨ dest + text.length < src)
    (room : dest + text.length < limit) (enough : text.length < fuel) :
    Printer.strcpyLoop limit fuel bytes dest src = .ok (bytes.write dest (text ++ [0])) := by
  induction text generalizing bytes dest src fuel with
  | nil =>
    obtain ⟨fuel, rfl⟩ := Nat.exists_eq_succ_of_ne_zero (Nat.ne_of_gt enough)
    have zero : bytes src = 0 := by simpa [HeapBytes.read] using held
    rw [Printer.strcpyLoop, if_pos (show dest < limit from room),
      load_small _ (show src < 0x10000 from small), zero, if_neg (not_not.mpr rfl)]
    rfl
  | cons b text ih =>
    rw [List.length_cons] at held small apart room enough
    rw [read_succ] at held
    obtain ⟨here, later⟩ := List.cons.inj held
    rw [List.mem_cons, not_or] at free
    cases fuel with
    | zero => omega
    | succ fuel =>
      have kept : (bytes.write dest [b]).read (src + 1) (text.length + 1) = text ++ [0] := by
        rw [read_write_apart (by rw [List.length_singleton]; omega), later]
        rfl
      have whole : bytes.write dest (b :: text ++ [0]) = (bytes.write dest [b]).write (dest + 1) (text ++ [0]) :=
        write_append bytes dest [b] (text ++ [0])
      rw [Printer.strcpyLoop, if_pos (by omega), load_small _ (by omega), here, if_pos (Ne.symm free.1), whole]
      exact ih free.2 kept (by omega) (by omega) (by omega) (by omega)

theorem putString_text {c : Printer} (free : 0 ∉ text) (held : c.bytes.read src (text.length + 1) = text ++ [0])
    (small : src + text.length < 0x10000) (apart : src + text.length < c.buff ∨ c.buff + text.length < src)
    (room : c.buff + text.length < limit) : c.putString limit src =
      .ok { c with bytes := c.bytes.write c.buff (text ++ [0]), buff := c.buff + text.length } := by
  have copied : Printer.strcpy limit c.bytes c.buff src = .ok (c.bytes.write c.buff (text ++ [0])) :=
    strcpyLoop_text free held small apart room (by omega)
  have kept : (c.bytes.write c.buff (text ++ [0])).read src (text.length + 1) = text ++ [0] := by
    rw [read_write_apart (by rw [List.length_append, List.length_singleton]; omega), held]
  have length : strlen (c.bytes.write c.buff (text ++ [0])) src = text.length := by
    have whole := congrArg List.length (cBytes_eq small kept free)
    simpa [cBytes] using whole
  unfold Printer.putString
  rw [copied]
  simp only [bind, Except.bind, length]

end Copy

theorem Extends.read {limit : Nat} {c c' : Printer} (further : Extends limit c c') {a n : Nat}
    (before : a + n ≤ c.buff) : c'.bytes.read a n = c.bytes.read a n := by
  apply List.map_congr_left
  intro j inside
  rw [List.mem_range] at inside
  exact further.kept _ (by omega)

section Text

variable {limit : Nat} {c c' : Printer} {text : List Byte}

theorem put_read {behind : List Byte} (printed : c.put limit text behind = .ok c') :
    c'.bytes.read c.buff text.length = text := by
  obtain rfl := put_ok printed
  simp only
  rw [write_append, read_write_apart (Or.inl le_rfl), read_write_self]

def behind (c : Printer) (text : List Byte) : Printer :=
  { c with bytes := c.bytes.write c.buff text, buff := c.buff + text.length, str := c.str + text.length }

theorem behind_load {x : Nat} (low : x < kernelStack) (high : kernelStack ≤ c.buff) :
    (behind c text).bytes.load x = c.bytes x := by
  rw [load_small _ (by rw [kernelStack] at low; omega)]
  exact write_before _ _ (low.trans_le high)

theorem behind_vaArg (later : c.buff + text.length ≤ c.vlist) (words : c.vlist + 2 ≤ 0x10000) :
    (behind c text).next.next.vaArg.1 = wordAt [c.bytes c.vlist, c.bytes (c.vlist + 1)] 0 := by
  simp only [Printer.vaArg, Printer.next, behind]
  rw [load_small _ (by omega), load_small _ (by omega), write_behind _ later, write_behind _ (by omega)]

theorem loop_text {fuel : Nat} (free : 0 ∉ text) (plain : ascii '%' ∉ text)
    (held : c.bytes.read c.str text.length = text) (low : c.str + text.length ≤ kernelStack)
    (high : kernelStack ≤ c.buff) (room : c.buff + text.length ≤ limit) :
    Printer.loop limit (fuel + text.length) c = Printer.loop limit fuel (behind c text) := by
  induction text generalizing c with
  | nil => simp [behind, write_nil]
  | cons b text ih =>
    rw [List.length_cons] at held low room ⊢
    rw [read_succ] at held
    obtain ⟨here, later⟩ := List.cons.inj held
    rw [List.mem_cons, not_or] at free plain
    have small : c.str < 0x10000 := by
      rw [kernelStack] at low
      omega
    have current : c.current = b := by rw [Printer.current, load_small _ small, here]
    have turned : c.turn limit = .ok { c.next with bytes := c.bytes.write c.buff [b], buff := c.buff + 1 } := by
      rw [Printer.turn, current, if_neg (Ne.symm plain.1)]
      exact put_eq (c := c.next) (by simp [Printer.next]; omega)
    rw [← Nat.add_assoc, Printer.loop, current, if_pos (Ne.symm free.1), turned]
    change Printer.loop limit (fuel + text.length) _ = _
    rw [ih free.2 plain.2]
    · simp only [Printer.next, behind]
      rw [← List.singleton_append (l := text), write_append, List.length_append, List.length_singleton,
        Nat.add_assoc, Nat.add_assoc]
    · simp only [Printer.next]
      rw [read_write_apart (Or.inl (by omega)), later]
    · simp only [Printer.next]
      omega
    · simp only
      omega
    · simp only
      omega

theorem vsprintf_text (limit : Nat) (free : 0 ∉ text) (plain : ascii '%' ∉ text)
    (held : c.bytes.read c.str (text.length + 1) = text ++ [0]) (low : c.str + text.length < kernelStack)
    (high : kernelStack ≤ c.buff) (room : c.buff + text.length < limit) :
    ∃ c', c.vsprintf limit = .ok c' ∧ c'.buff = c.buff + text.length ∧ c'.bytes.read c.buff text.length = text := by
  rw [read_add] at held
  obtain ⟨whole, zero⟩ := List.append_inj held (HeapBytes.read_length _ _ _)
  have fuel : 0x10000 = 0x10000 - text.length - 1 + 1 + text.length := by
    rw [kernelStack] at low
    omega
  unfold Printer.vsprintf
  rw [fuel, loop_text free plain whole low.le high room.le, Printer.loop]
  have ended : c.bytes (c.str + text.length) = 0 := by
    simpa [HeapBytes.read] using zero
  have current : (behind c text).current = 0 := (behind_load low high).trans ended
  rw [current, if_neg (not_not.mpr rfl)]
  refine ⟨_, put_eq (by simp [behind]; omega), by simp [behind], ?_⟩
  simp only [behind]
  rw [read_write_apart (Or.inl le_rfl), read_write_self]

theorem putString_first {sParam : Nat} (printed : c.putString limit sParam = .ok c') (low : sParam < c.buff)
    (small : sParam < 0x10000) (some : c.bytes.load sParam ≠ 0) :
    c.buff < c'.buff ∧ c'.bytes c.buff = c.bytes.load sParam := by
  obtain ⟨bytes, copied, rest⟩ := bind_eq_ok.mp printed
  obtain rfl := Except.ok.inj rest
  have kept := strcpyLoop_kept copied sParam (Or.inl low)
  have same : bytes.load sParam = c.bytes.load sParam := by rw [load_small _ small, load_small _ small, kept]
  refine ⟨?_, ?_⟩
  · have first : ∀ j < 1, bytes.load (sParam + j) ≠ 0 := by simpa [same] using some
    have longer := le_strlen first (by decide)
    simp only
    omega
  · unfold Printer.strcpy Printer.strcpyLoop at copied
    split at copied
    · simp only
      rw [strcpyLoop_kept copied c.buff (Or.inl (Nat.lt_succ_self _)), write_first]
    · cases copied

theorem directive_first (printed : c.directive limit = .ok c')
    (string : c.current = ascii 's' → c.next.vaArg.1.toNat < c.buff ∧ c.bytes.load c.next.vaArg.1.toNat = ascii 's')
    (char : c.current = ascii 'c' → c.next.vaArg.1.setWidth 8 ≠ ascii '%') :
    c.buff < c'.buff ∧ c'.bytes c.buff ≠ ascii '%' := by
  cases directive_prints printed with
  | text printed passed visible plain =>
    obtain ⟨b, text, rfl⟩ := List.exists_cons_of_ne_nil visible
    obtain rfl := put_ok printed
    simp only [← passed.2, List.cons_append, write_first]
    exact ⟨by simp, fun same => plain (same ▸ List.mem_cons_self)⟩
  | string printed passed named =>
    obtain ⟨low, letter⟩ := string named
    rw [← passed.1] at letter
    rw [← passed.2] at low ⊢
    obtain ⟨later, first⟩ := putString_first printed low (BitVec.isLt _) (by rw [letter]; decide)
    rw [first, letter]
    exact ⟨later, by decide⟩
  | char printed passed named =>
    obtain rfl := put_ok printed
    simp only [← passed.2, List.cons_append, write_first]
    exact ⟨by simp, char named⟩

theorem vsprintf_directive {before after : List Byte} (free : 0 ∉ before) (plain : ascii '%' ∉ before)
    (held : c.bytes.read c.str (before.length + 1 + after.length + 1) = before ++ ascii '%' :: after ++ [0])
    (low : c.str + (before.length + 1 + after.length) < kernelStack) (high : kernelStack ≤ c.buff)
    (room : c.buff + before.length ≤ limit) (args : limit ≤ c.vlist) (words : c.vlist + 2 ≤ 0x10000)
    (string : after.head? = some (ascii 's') →
      wordAt [c.bytes c.vlist, c.bytes (c.vlist + 1)] 0 = BitVec.ofNat 16 (c.str + before.length + 1))
    (char : after.head? = some (ascii 'c') → (wordAt [c.bytes c.vlist, c.bytes (c.vlist + 1)] 0).setWidth 8 ≠ ascii '%')
    (printed : c.vsprintf limit = .ok c') :
    c.buff + before.length < c'.buff ∧ c'.bytes (c.buff + before.length) ≠ ascii '%' := by
  have mark : c.bytes (c.str + before.length) = ascii '%' := by
    have place := read_at held (j := before.length) (by omega)
    simp at place
    exact place.symm
  have letter : ∀ b ≠ 0, c.bytes (c.str + before.length + 1) = b → after.head? = some b := by
    intro b nonzero here
    have place := read_at held (j := before.length + 1) (by omega)
    rw [← Nat.add_assoc, here, List.append_assoc, List.getElem?_append_right (by omega)] at place
    cases after with
    | nil =>
      simp at place
      exact absurd place.symm nonzero
    | cons a after => simpa using place
  have whole : c.bytes.read c.str before.length = before := by
    rw [show before.length + 1 + after.length + 1 = before.length + (1 + after.length + 1) by omega, read_add,
      List.append_assoc] at held
    exact List.append_inj_left held (HeapBytes.read_length _ _ _)
  have fuel : 0x10000 = 0x10000 - before.length - 1 + 1 + before.length := by
    rw [kernelStack] at low
    omega
  have current : (behind c before).current = ascii '%' :=
    (behind_load (x := c.str + before.length) (by omega) high).trans mark
  have following : (behind c before).next.current = c.bytes (c.str + before.length + 1) :=
    behind_load (x := c.str + before.length + 1) (by omega) high
  have argument : (behind c before).next.next.vaArg.1 = wordAt [c.bytes c.vlist, c.bytes (c.vlist + 1)] 0 :=
    behind_vaArg (by omega) words
  unfold Printer.vsprintf at printed
  rw [fuel, loop_text free plain whole (by omega) high room, Printer.loop, current, if_pos (by decide)] at printed
  obtain ⟨e, turned, rest⟩ := bind_eq_ok.mp printed
  rw [Printer.turn, current, if_pos rfl] at turned
  obtain ⟨later, other⟩ := directive_first turned
    (fun named => by
      rw [following] at named
      have address : (BitVec.ofNat 16 (c.str + before.length + 1)).toNat = c.str + before.length + 1 := by
        rw [kernelStack] at low
        rw [BitVec.toNat_ofNat]
        omega
      rw [argument, string (letter _ (by decide) named), address]
      refine ⟨?_, (behind_load (by omega) high).trans named⟩
      simp only [Printer.next, behind]
      omega)
    (fun named => by
      rw [following] at named
      rw [argument]
      exact char (letter _ (by decide) named))
  have kept := (loop_extends rest).kept _ (Or.inl later)
  exact ⟨later.trans_le (loop_extends rest).later, fun same => other (kept.symm.trans same)⟩

end Text

theorem line_read {limit : Nat} {c₀ c₁ c₂ c₃ : Printer} {start text : List Byte}
    (first : c₀.put limit start [0] = .ok c₁) (further : Extends limit c₁ c₂) (position : c₂.buff = c₁.buff + text.length)
    (printed : c₂.bytes.read c₁.buff text.length = text) (last : c₂.put limit [] [ascii '\n', 0] = .ok c₃) :
    c₃.bytes.read c₀.buff ((start ++ text ++ [ascii '\n']).length + 1) = start ++ text ++ [ascii '\n'] ++ [0] := by
  have begins : c₁.buff = c₀.buff + start.length := by
    rw [put_ok first]
  have ends : c₃.bytes.read c₂.buff 2 = [ascii '\n', 0] := by
    rw [put_ok last]
    exact read_write_self _ _ [ascii '\n', 0]
  have lengths : (start ++ text ++ [ascii '\n']).length + 1 = start.length + text.length + 2 := by
    simp only [List.length_append, List.length_singleton]
  rw [lengths, read_add, read_add, ← begins, ((further.trans (put_extends last)).read begins.ge), put_read first,
    ← Nat.add_assoc, ← begins, ← position, (put_extends last).read position.ge, printed, ends]
  simp

structure OnStack (frame : LogFrame) : Prop where
  buffer : kernelStack ≤ frame.logBuff
  behind : frame.logBuff + logBuffSize ≤ frame.args
  words : frame.args + 2 ≤ 0x10000

section Log

variable {s s' : FileSystem} {frame : LogFrame} {i : Nat} {p : Proc} {message : Nat → Printer → Except Stop Printer}

theorem internalLog_iff (serial : s.logTargetMask = logTargetSerial) :
    s.internalLog frame i p message = .ok s' ↔ ∃ c₁ c₂ c₃,
      Printer.put (frame.logBuff + logBuffSize) ⟨s.bytes, frame.logBuff, 0, frame.args⟩ (s.logPrefix i p) [0] =
        .ok c₁ ∧ message (frame.logBuff + logBuffSize) c₁ = .ok c₂ ∧
      c₂.put (frame.logBuff + logBuffSize) [] [ascii '\n', 0] = .ok c₃ ∧
      s.logToSerial (cBytes c₃.bytes frame.logBuff) = s' := by
  have quiet : ∀ text, s.logToTty text = .ok s := by
    intro text
    rw [FileSystem.logToTty, serial, if_neg (by decide)]
  simp only [FileSystem.internalLog, quiet, bind_eq_ok, Except.ok.injEq]
  constructor
  · rintro ⟨c₁, first, c₂, second, c₃, third, _, rfl, rest⟩
    exact ⟨c₁, c₂, c₃, first, second, third, rest⟩
  · rintro ⟨c₁, c₂, c₃, first, second, third, rest⟩
    exact ⟨c₁, first, c₂, second, c₃, third, s, rfl, rest⟩

theorem logToSerial_serialOut (serial : s.logTargetMask = logTargetSerial) (text : List Byte) :
    (s.logToSerial text).serialOut = s.serialOut ++ text := by
  rw [FileSystem.logToSerial, serial, if_pos (by decide)]

theorem mem_logPrefix {b : Byte} (member : b ∈ s.logPrefix i p) : b ≠ 0 := by
  unfold FileSystem.logPrefix at member
  simp only [List.mem_append] at member
  rcases member with ((((ticks | mark) | name) | mark) | pid) | mark
  · exact (formatInt_mem ticks).2
  · revert b
    decide
  · exact fun zero => (s.procName i).property (zero ▸ name)
  · revert b
    decide
  · exact (formatInt_mem pid).2
  · revert b
    decide

variable {text : List Byte} {str : Nat} (serial : s.logTargetMask = logTargetSerial) (placed : OnStack frame)
  (free : 0 ∉ text) (held : s.bytes.read str (text.length + 1) = text ++ [0]) (low : str + text.length < kernelStack)
  (short : (s.logPrefix i p ++ text).length + 2 ≤ logBuffSize)
include serial placed free held low short

theorem logFormat_text (plain : ascii '%' ∉ text) :
    s.logFormat frame i p str = .ok (s.logToSerial (s.logPrefix i p ++ text ++ [ascii '\n'])) := by
  have buffer := placed.buffer
  have behind := placed.behind
  have words := placed.words
  rw [List.length_append] at short
  obtain ⟨c₁, first⟩ : ∃ c₁, Printer.put (frame.logBuff + logBuffSize)
      ⟨s.bytes, frame.logBuff, 0, frame.args⟩ (s.logPrefix i p) [0] = .ok c₁ :=
    ⟨_, put_eq (by simp only [List.length_append, List.length_singleton]; omega)⟩
  have state := put_ok first
  have kept : c₁.bytes.read str (text.length + 1) = text ++ [0] := by
    rw [state, read_write_apart (Or.inl (low.trans_le buffer)), held]
  obtain ⟨c₂, second, position, printed⟩ :=
    vsprintf_text (frame.logBuff + logBuffSize) (c := { c₁ with str := str }) free plain kept low
      (by rw [state]; simp only; omega) (by rw [state]; simp only; omega)
  obtain ⟨c₃, third⟩ : ∃ c₃, c₂.put (frame.logBuff + logBuffSize) [] [ascii '\n', 0] = .ok c₃ :=
    ⟨_, put_eq (by rw [position, state]; simp only [List.nil_append, List.length_cons, List.length_nil]; omega)⟩
  have passed : Passed c₁ { c₁ with str := str } := ⟨rfl, rfl⟩
  have line := line_read first (passed.extends (loop_extends second)) position printed third
  refine (internalLog_iff serial).mpr ⟨c₁, c₂, c₃, first, second, third, ?_⟩
  rw [cBytes_eq _ line]
  · simp only [List.mem_append, not_or]
    exact ⟨⟨fun member => mem_logPrefix member rfl, free⟩, by decide⟩
  · simp only [List.length_append, List.length_singleton]
    omega

theorem logFormat_directive {before after : List Byte} (parts : text = before ++ ascii '%' :: after)
    (first : ascii '%' ∉ before) (string : after.head? = some (ascii 's') →
      wordAt [s.bytes frame.args, s.bytes (frame.args + 1)] 0 = BitVec.ofNat 16 (str + before.length + 1))
    (char : after.head? = some (ascii 'c') →
      (wordAt [s.bytes frame.args, s.bytes (frame.args + 1)] 0).setWidth 8 ≠ ascii '%')
    (logged : s.logFormat frame i p str = .ok s') :
    s'.serialOut ≠ s.serialOut ++ (s.logPrefix i p ++ text ++ [ascii '\n']) := by
  subst parts
  have buffer := placed.buffer
  have argsBehind := placed.behind
  have words := placed.words
  simp only [List.length_append, List.length_cons] at held low short
  rw [List.mem_append, not_or] at free
  obtain ⟨c₁, c₂, c₃, prefixed, printed, ended, rfl⟩ := (internalLog_iff serial).mp logged
  have state := put_ok prefixed
  have memory : ∀ x, x < kernelStack ∨ frame.args ≤ x → c₁.bytes x = s.bytes x := by
    rw [state]
    rintro x (lower | higher)
    · exact write_before _ _ (lower.trans_le buffer)
    · exact write_behind _ (by simp only [List.length_append, List.length_singleton]; omega)
  have position : c₁.buff = frame.logBuff + (s.logPrefix i p).length := by rw [state]
  have vlist : c₁.vlist = frame.args := by rw [state]
  have kept : c₁.bytes.read str (before.length + 1 + after.length + 1) = before ++ ascii '%' :: after ++ [0] := by
    rw [Nat.add_assoc before.length, Nat.add_comm 1, ← held]
    apply List.map_congr_left
    intro j inside
    rw [List.mem_range] at inside
    exact memory _ (Or.inl (by omega))
  have argument : wordAt [c₁.bytes c₁.vlist, c₁.bytes (c₁.vlist + 1)] 0 =
      wordAt [s.bytes frame.args, s.bytes (frame.args + 1)] 0 := by
    rw [vlist, memory _ (Or.inr le_rfl), memory _ (Or.inr (Nat.le_succ _))]
  obtain ⟨later, other⟩ := vsprintf_directive (c := { c₁ with str := str }) free.1 first kept (by simp only; omega)
    (by simp only; omega) (by simp only; omega) (by simp only; omega) (by simp only [vlist]; exact words)
    (by simp only [argument]; exact string) (by simp only [argument]; exact char) printed
  intro same
  rw [logToSerial_serialOut serial, List.append_cancel_left_eq] at same
  have shown : (cBytes c₃.bytes frame.logBuff)[(s.logPrefix i p).length + before.length]? = some (ascii '%') := by
    rw [same]
    simp
  have mark := load_of_cBytes shown
  rw [← Nat.add_assoc, ← position, load_small _ (by omega), (put_extends ended).kept _ (Or.inl later)] at mark
  exact other mark

end Log

/-- A process calls `SYS_PRINT` for a string of its own; the heap has room for it, and the log goes to
the serial port as `_kstart` has set it. -/
structure Asks (s : FileSystem) (i : Nat) (p : Proc) (text : List Byte) : Prop where
  serial : s.logTargetMask = logTargetSerial
  heap : ∃ live, HeapInv ⟨s.kernel.heap, live⟩
  room : ∃ block, kmalloc s.kernel.heap (p.syscallState.regs 2 + 1) = .ok block
  length : p.syscallState.regs 2 = BitVec.ofNat 16 text.length
  user : userBytes s.kernel.phys p.syscallState.memPages (p.syscallState.regs 1) (text.length + 1) = text ++ [0]
  free : 0 ∉ text
  short : (s.logPrefix i p ++ text).length + 2 ≤ logBuffSize

def Prints (s : FileSystem) (frame : LogFrame) (i : Nat) (p : Proc) (line : List Byte) : Prop :=
  ∃ s', s.sysPrint frame i p = .ok s' ∧ s'.serialOut = s.serialOut ++ line

section Call

variable {s : FileSystem} {frame : LogFrame} {i : Nat} {p : Proc} {text : List Byte}

theorem Asks.size (asks : Asks s i p text) : (p.syscallState.regs 2 + 1).toNat = text.length + 1 := by
  have short := asks.short
  rw [List.length_append, logBuffSize] at short
  have one : (1 : Word).toNat = 1 := rfl
  rw [asks.length, BitVec.toNat_add, BitVec.toNat_ofNat, one]
  omega

theorem userBlock_ok {u size : Word} {ptr : Nat} {heap : HeapMemory}
    (allocated : kmalloc s.kernel.heap size = .ok (ptr, heap)) : ∃ procs, s.userBlock p u size =
      .ok ({ s with
        kernel := { s.kernel with procs := procs, heap := heap }
        bytes := s.bytes.write ptr (userBytes s.kernel.phys p.syscallState.memPages u size.toNat) }, ptr) := by
  obtain ⟨procs, mapped⟩ := afterChunks_procs s.kernel (userChunks p.syscallState.memPages size.toNat u size)
  refine ⟨procs, ?_⟩
  rw [FileSystem.userBlock, allocated]
  simp only [memcpyFromUserspace, mapped, readUser_eq _ le_rfl]
  rfl

structure Logs (s t : FileSystem) (i : Nat) (p : Proc) (text : List Byte) (pb : Nat) : Prop where
  serial : t.logTargetMask = logTargetSerial
  start : t.logPrefix i p = s.logPrefix i p
  out : t.serialOut = s.serialOut
  bytes : t.bytes = s.bytes.write pb (text ++ [0])
  low : pb + text.length < kernelStack
  freed : ∃ heap, kfree t.kernel.heap pb = .ok heap

variable {pb : Nat} {heap : HeapMemory} (asks : Asks s i p text)
  (allocated : kmalloc s.kernel.heap (p.syscallState.regs 2 + 1) = .ok (pb, heap))
include asks allocated

theorem Asks.copied : ∃ t, s.userBlock p (p.syscallState.regs 1) (p.syscallState.regs 2 + 1) = .ok (t, pb) ∧
    Logs s t i p text pb := by
  obtain ⟨live, inv⟩ := asks.heap
  have after := inv.kmalloc allocated
  have inside := (after.safe.inside _ List.mem_cons_self).2
  have large := after.safe.large _ List.mem_cons_self
  obtain ⟨procs, copied⟩ := userBlock_ok (p := p) (u := p.syscallState.regs 1) allocated
  rw [asks.size] at large copied
  rw [asks.user] at copied
  obtain ⟨rest, freed, -⟩ := after.free
  refine ⟨_, copied, asks.serial, rfl, rfl, rfl, ?_, rest, freed⟩
  rw [kernelStack]
  omega

theorem Asks.prints_iff (frame : LogFrame) (line : List Byte) : ∃ t, Logs s t i p text pb ∧
    (Prints s frame i p line ↔ ∃ t', t.logFormat frame i p pb = .ok t' ∧ t'.serialOut = t.serialOut ++ line) := by
  obtain ⟨t, copied, logs⟩ := asks.copied allocated
  refine ⟨t, logs, ?_⟩
  obtain ⟨heap, freed⟩ := logs.freed
  have keeps : ∀ t', t.logFormat frame i p pb = .ok t' → t'.kernel.heap = t.kernel.heap := by
    intro t' logged
    obtain ⟨c₁, c₂, c₃, -, -, -, rfl⟩ := (internalLog_iff logs.serial).mp logged
    rw [FileSystem.logToSerial]
    split
    · obtain ⟨procs, same⟩ := mapPageZero_procs t.kernel illegalPage
      simp only [KernelState.log, same]
    · rfl
  rw [logs.out]
  constructor
  · rintro ⟨s', printed, line⟩
    obtain ⟨⟨t₀, pb₀⟩, same, printed⟩ := bind_eq_ok.mp printed
    obtain ⟨rfl, rfl⟩ := Prod.mk.inj (Except.ok.inj (copied.symm.trans same))
    obtain ⟨t', logged, printed⟩ := bind_eq_ok.mp printed
    obtain ⟨rest, -, printed⟩ := bind_eq_ok.mp printed
    obtain rfl := Except.ok.inj printed
    exact ⟨t', logged, line⟩
  · rintro ⟨t', logged, line⟩
    rw [← keeps t' logged] at freed
    exact ⟨t'.setHeap heap,
      bind_eq_ok.mpr ⟨(t, pb), copied, bind_eq_ok.mpr ⟨t', logged, bind_eq_ok.mpr ⟨heap, freed, rfl⟩⟩⟩, line⟩

end Call

theorem Logs.held {s t : FileSystem} {i pb : Nat} {p : Proc} {text : List Byte} (logs : Logs s t i p text pb) :
    t.bytes.read pb (text.length + 1) = text ++ [0] := by
  have whole := read_write_self s.bytes pb (text ++ [0])
  rw [List.length_append, List.length_singleton] at whole
  rw [logs.bytes, whole]

theorem word_on_stack (bytes : HeapBytes) (a : Nat) (w : Word) :
    wordAt [bytes.write a (wordBytes w) a, bytes.write a (wordBytes w) (a + 1)] 0 = w := by
  have word := wordAt_wordBytes [w] 0
  simpa [HeapBytes.write, wordBytes] using word

def showing (pb : Nat) (before after : List Byte) : Word :=
  if after.head? = some (ascii 's') then BitVec.ofNat 16 (pb + before.length + 1) else 0

theorem print_text_iff (s : FileSystem) (frame : LogFrame) (i : Nat) (p : Proc) (text : List Byte)
    (placed : OnStack frame) (asks : Asks s i p text) :
    (∀ bytes : HeapBytes, (∀ a < kernelStack, bytes a = s.bytes a) →
      Prints { s with bytes := bytes } frame i p (s.logPrefix i p ++ text ++ [ascii '\n'])) ↔ ascii '%' ∉ text := by
  have anyStack : ∀ bytes : HeapBytes, Asks { s with bytes := bytes } i p text :=
    fun bytes => ⟨asks.serial, asks.heap, asks.room, asks.length, asks.user, asks.free, asks.short⟩
  obtain ⟨⟨pb, heap⟩, allocated⟩ := asks.room
  constructor
  · intro always marked
    obtain ⟨before, after, parts, first⟩ := List.eq_append_cons_of_mem marked
    have buffer := placed.buffer
    have argsBehind := placed.behind
    let bytes := s.bytes.write frame.args (wordBytes (showing pb before after))
    obtain ⟨t, logs, iff⟩ := (anyStack bytes).prints_iff allocated frame (s.logPrefix i p ++ text ++ [ascii '\n'])
    obtain ⟨t', logged, line⟩ := iff.mp (always bytes fun a low => write_before _ _ (by omega))
    have low := logs.low
    have words : wordAt [t.bytes frame.args, t.bytes (frame.args + 1)] 0 = showing pb before after := by
      have behind : pb + (text ++ [0]).length ≤ frame.args := by
        rw [List.length_append, List.length_singleton]
        omega
      rw [logs.bytes, write_behind _ behind, write_behind _ (by omega)]
      exact word_on_stack s.bytes frame.args (showing pb before after)
    have start : t.logPrefix i p = s.logPrefix i p := logs.start
    have differs := logFormat_directive logs.serial placed asks.free logs.held low (start ▸ asks.short) parts first
      (fun string => by rw [words, showing, if_pos string])
      (fun char => by rw [words, showing, char, if_neg (by decide)]; decide) logged
    rw [start] at differs
    exact differs line
  · intro plain bytes _
    obtain ⟨t, logs, iff⟩ := (anyStack bytes).prints_iff allocated frame (s.logPrefix i p ++ text ++ [ascii '\n'])
    have start : t.logPrefix i p = s.logPrefix i p := logs.start
    have logged := logFormat_text logs.serial placed asks.free logs.held logs.low (start ▸ asks.short) plain
    refine iff.mpr ⟨_, logged, ?_⟩
    rw [logToSerial_serialOut logs.serial, start]

def stringPhys (text : List Byte) : PhysMem := fun _ a => text.getD a.toNat 0

def stringCaller (text : List Byte) : Proc :=
  { Proc.zero with syscallState := { ProcState.zero with
      regs := fun r => if r = 2 then BitVec.ofNat 16 text.length else 0 } }

def topFrame : LogFrame := ⟨0xF800, 0xFA00⟩

theorem topFrame_onStack : OnStack topFrame := ⟨by decide, by decide, by decide⟩

theorem kmalloc_three : kmalloc initMalloc 3 = .ok (0xA000, Function.update initMalloc 0 1) := by
  have found : kmallocScan initMalloc (sizeInChunks 3) heapArrSize 0 0 = some 0 := by decide +kernel
  rw [kmalloc, found]
  rfl

theorem asks_two {a b : Byte} (free : 0 ∉ [a, b])
    (user : userBytes (stringPhys [a, b]) (fun _ => 0) 0 3 = [a, b, 0]) :
    Asks (bootFileSystem (stringPhys [a, b])) 0 (stringCaller [a, b]) [a, b] where
  serial := rfl
  heap := ⟨[], heapInv_init⟩
  room := ⟨_, kmalloc_three⟩
  length := rfl
  user := user
  free := free
  short := by
    have start : (bootFileSystem (stringPhys [a, b])).logPrefix 0 (stringCaller [a, b]) =
        (bootFileSystem (stringPhys [])).logPrefix 0 (stringCaller []) := rfl
    rw [start, List.length_append]
    exact show _ + 2 + 2 ≤ _ by decide

theorem print_text_iff_ok :
    Asks (bootFileSystem (stringPhys [ascii 'o', ascii 'k'])) 0 (stringCaller [ascii 'o', ascii 'k'])
      [ascii 'o', ascii 'k'] ∧
    ∀ bytes : HeapBytes, (∀ a < kernelStack, bytes a = 0) →
      Prints { bootFileSystem (stringPhys [ascii 'o', ascii 'k']) with bytes := bytes } topFrame 0
        (stringCaller [ascii 'o', ascii 'k']) ("0: [(0)]: ok\n".toList.map ascii) := by
  have asks : Asks (bootFileSystem (stringPhys [ascii 'o', ascii 'k'])) 0 (stringCaller [ascii 'o', ascii 'k'])
      [ascii 'o', ascii 'k'] := asks_two (by decide) (by decide +kernel)
  exact ⟨asks, (print_text_iff _ topFrame 0 _ _ topFrame_onStack asks).mpr (by decide)⟩

def stackWith (w : Word) : HeapBytes := HeapBytes.write (fun _ => 0) topFrame.args (wordBytes w)

def printedDirective (w : Word) : Option (List Byte) :=
  (FileSystem.sysPrint { bootFileSystem (stringPhys [ascii '%', ascii 'd']) with bytes := stackWith w } topFrame 0
    (stringCaller [ascii '%', ascii 'd'])).toOption.map FileSystem.serialOut

theorem directive_prints_stack :
    Asks (bootFileSystem (stringPhys [ascii '%', ascii 'd'])) 0 (stringCaller [ascii '%', ascii 'd'])
      [ascii '%', ascii 'd'] ∧
    printedDirective 7 = some ("0: [(0)]: 7\n".toList.map ascii) ∧
    printedDirective 8 = some ("0: [(0)]: 8\n".toList.map ascii) ∧
    ¬ ∀ bytes : HeapBytes, (∀ a < kernelStack, bytes a = 0) →
      Prints { bootFileSystem (stringPhys [ascii '%', ascii 'd']) with bytes := bytes } topFrame 0
        (stringCaller [ascii '%', ascii 'd']) ("0: [(0)]: %d\n".toList.map ascii) := by
  have seven : printedDirective 7 = some ("0: [(0)]: 7\n".toList.map ascii) := by decide +kernel
  refine ⟨asks_two (by decide) (by decide +kernel), seven, by decide +kernel, ?_⟩
  intro always
  obtain ⟨s', printed, line⟩ := always (stackWith 7) fun a low => write_before _ _ (low.trans (by decide))
  rw [printedDirective, printed] at seven
  simp only [Except.toOption, Option.map_some, line] at seven
  revert seven
  decide

end PiOS.Proof.Print
