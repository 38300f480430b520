import PiOS.Libc.Printf
import PiOS.Proof.Print

namespace PiOS.Proof.Printf
open Kernel Libc Memory

def render (args : PrintfArgs) : List Byte → Nat → List Byte
  | [], _ => []
  | c :: str, i =>
    if c = ascii '%' then
      match str with
      | [] => [ascii ' ']
      | d :: rest =>
        if d = ascii 'd' ∨ d = ascii 'i' then formatInt (args.vlist i) ++ render args rest (i + 1)
        else if d = ascii 'u' then utoa (args.vlist i) 10 ++ render args rest (i + 1)
        else if d = ascii 'x' then utoa (args.vlist i) 16 ++ render args rest (i + 1)
        else if d = ascii 's' then args.string (args.vlist i) ++ render args rest (i + 1)
        else if d = ascii 'c' then (args.vlist i).setWidth 8 :: render args rest (i + 1)
        else ascii ' ' :: render args (d :: rest) i
    else
      c :: render args str i

def rendering (args : PrintfArgs) : List Byte := render args args.format 0

inductive Call
  | putc (c : Byte)
  | write (run : List Byte)

namespace Call

def text : Call → List Byte
  | putc c => [c]
  | write run => run

def exec (s : Printf) : Call → Printf
  | putc c => s.printfPutc c
  | write run => s.printfWrite run

@[simp] theorem text_putc (c : Byte) : (putc c).text = [c] := rfl
@[simp] theorem text_write (run : List Byte) : (write run).text = run := rfl
@[simp] theorem exec_putc (s : Printf) (c : Byte) : (putc c).exec s = s.printfPutc c := rfl
@[simp] theorem exec_write (s : Printf) (run : List Byte) : (write run).exec s = s.printfWrite run := rfl

def Sound : Call → Prop
  | putc _ => True
  | write run => 0 ∉ run ∧ run.length < 0x10000

end Call

def utoaCall (num : Word) (base : Nat) : Call :=
  if num = 0 then .putc (ascii '0') else .write (swapHalves (utoaLoop base 16 num.toNat))

def intCalls (w : Word) : List Call :=
  if w.Negative then [.putc (ascii '-'), utoaCall (-w) 10] else [utoaCall w 10]

def calls (args : PrintfArgs) : List Byte → Nat → List Call
  | [], _ => []
  | c :: str, i =>
    if c = ascii '%' then
      match str with
      | [] => [.putc (ascii ' ')]
      | d :: rest =>
        if d = ascii 'd' ∨ d = ascii 'i' then intCalls (args.vlist i) ++ calls args rest (i + 1)
        else if d = ascii 'u' then utoaCall (args.vlist i) 10 :: calls args rest (i + 1)
        else if d = ascii 'x' then utoaCall (args.vlist i) 16 :: calls args rest (i + 1)
        else if d = ascii 's' then .write (args.string (args.vlist i)) :: calls args rest (i + 1)
        else if d = ascii 'c' then .putc ((args.vlist i).setWidth 8) :: calls args rest (i + 1)
        else .putc (ascii ' ') :: calls args (d :: rest) i
    else
      .putc c :: calls args str i

section Calls

variable {args : PrintfArgs} {s : Printf} {c : Byte}

@[simp] theorem exec_utoaCall (num : Word) (base : Nat) : (utoaCall num base).exec s = s.printfUtoa num base := by
  unfold utoaCall Printf.printfUtoa
  split <;> rfl

@[simp] theorem foldl_intCalls (w : Word) : (intCalls w).foldl Call.exec s = s.printfInt w := by
  unfold intCalls Printf.printfInt
  split <;> simp

@[simp] theorem utoaCall_text (num : Word) (base : Nat) : (utoaCall num base).text = utoa num base := by
  unfold utoaCall utoa
  split <;> rfl

@[simp] theorem intCalls_text (w : Word) : (intCalls w).flatMap Call.text = formatInt w := by
  unfold intCalls formatInt
  split <;> simp

theorem utoaLoop_length (base fuel num : Nat) : (utoaLoop base fuel num).length ≤ fuel := by
  induction fuel generalizing num with
  | zero => exact Nat.le_refl 0
  | succ fuel ih =>
    unfold utoaLoop
    split
    · exact Nat.zero_le _
    · exact Nat.succ_le_succ (ih _)

theorem utoaCall_sound (num : Word) {base : Nat} (positive : 0 < base) (small : base ≤ 16) :
    (utoaCall num base).Sound := by
  unfold utoaCall
  split
  · trivial
  · constructor
    · rw [swapHalves_eq]
      intro member
      exact (Print.utoaLoop_mem positive small (List.mem_reverse.mp member)).2 rfl
    · have := utoaLoop_length base 16 num.toNat
      rw [swapHalves_eq, List.length_reverse]
      omega

theorem intCalls_sound (w : Word) : ∀ c ∈ intCalls w, c.Sound := by
  unfold intCalls
  split
  · exact List.forall_mem_cons.mpr ⟨trivial, by simp [utoaCall_sound]⟩
  · simp [utoaCall_sound]

theorem calls_plain (other : c ≠ ascii '%') (str : List Byte) (i : Nat) :
    calls args (c :: str) i = .putc c :: calls args str i := by
  cases str <;> simp [calls, other]

theorem render_plain (other : c ≠ ascii '%') (str : List Byte) (i : Nat) :
    render args (c :: str) i = c :: render args str i := by
  cases str <;> simp [render, other]

theorem printfLoop_eq (str : List Byte) (i : Nat) : printfLoop args str i s = (calls args str i).foldl Call.exec s := by
  fun_induction printfLoop args str i s
  case case9 other ih => rw [ih, calls_plain other, List.foldl_cons, Call.exec_putc]
  all_goals simp_all [calls]

theorem render_eq (str : List Byte) (i : Nat) : (calls args str i).flatMap Call.text = render args str i := by
  fun_induction calls args str i
  case case9 other ih => rw [render_plain other, List.flatMap_cons, ih, Call.text_putc, List.singleton_append]
  all_goals simp_all [render]

theorem calls_sound (args : PrintfArgs) (str : List Byte) (i : Nat) : ∀ c ∈ calls args str i, c.Sound := by
  fun_induction calls args str i
  case case1 => simp
  case case2 => simp [Call.Sound]
  case case3 ih => exact List.forall_mem_append.mpr ⟨intCalls_sound _, ih⟩
  case case4 ih => exact List.forall_mem_cons.mpr ⟨utoaCall_sound _ (by decide) (by decide), ih⟩
  case case5 ih => exact List.forall_mem_cons.mpr ⟨utoaCall_sound _ (by decide) (by decide), ih⟩
  case case6 ih => exact List.forall_mem_cons.mpr ⟨⟨args.stringZeros _, args.stringShort _⟩, ih⟩
  all_goals exact List.forall_mem_cons.mpr ⟨trivial, by assumption⟩

end Calls

def Fits (cap : Nat) : Nat → List Call → Prop
  | _, [] => True
  | q, .putc _ :: calls => Fits cap (q + 1) calls
  | q, .write run :: calls => (run ≠ [] → q + run.length ≤ cap) ∧ Fits cap (q + run.length) calls

def storesTo (mem : Word → Byte) (stores : List (Word × Byte)) : Word → Byte :=
  stores.foldl (fun mem st => Function.update mem st.1 st.2) mem

section Stores

variable {mem : Word → Byte} {dest : Word} {src : List Byte} {j : Nat}

theorem place_succ (dest : Word) (j : Nat) : dest + BitVec.ofNat 16 (j + 1) = dest + 1 + BitVec.ofNat 16 j := by
  rw [Nat.add_comm, BitVec.ofNat_add, BitVec.add_assoc]
  rfl

theorem memcpy_append (dest : Word) (src more : List Byte) :
    memcpy dest (src ++ more) = memcpy dest src ++ memcpy (dest + BitVec.ofNat 16 src.length) more := by
  induction src generalizing dest with
  | nil => simp [memcpy]
  | cons b src ih => rw [List.cons_append, memcpy, ih, memcpy, List.cons_append, List.length_cons, place_succ]

theorem mem_memcpy (dest : Word) (inside : j < src.length) : ∃ st ∈ memcpy dest src, st.1 = dest + BitVec.ofNat 16 j := by
  induction src generalizing dest j with
  | nil => exact absurd inside (Nat.not_lt_zero j)
  | cons b src ih =>
    cases j with
    | zero => exact ⟨(dest, b), List.mem_cons_self, by simp⟩
    | succ j =>
      obtain ⟨st, member, place⟩ := ih (dest + 1) (Nat.lt_of_succ_lt_succ inside)
      exact ⟨st, List.mem_cons_of_mem _ member, place.trans (place_succ dest j).symm⟩

theorem of_mem_memcpy {st : Word × Byte} (member : st ∈ memcpy dest src) :
    ∃ j < src.length, st.1 = dest + BitVec.ofNat 16 j := by
  induction src generalizing dest with
  | nil => cases member
  | cons b src ih =>
    rcases List.mem_cons.mp member with rfl | later
    · exact ⟨0, Nat.succ_pos _, by simp⟩
    · obtain ⟨j, inside, place⟩ := ih later
      exact ⟨j + 1, Nat.succ_lt_succ inside, place.trans (place_succ dest j).symm⟩

theorem storesTo_append (mem : Word → Byte) (stores more : List (Word × Byte)) :
    storesTo mem (stores ++ more) = storesTo (storesTo mem stores) more := List.foldl_append

theorem storesTo_memcpy : storesTo mem (memcpy dest src) = storeAll mem (fun j => dest + BitVec.ofNat 16 j) src := by
  induction src generalizing mem dest with
  | nil => rfl
  | cons b src ih =>
    rw [memcpy, storesTo, List.foldl_cons, ← storesTo, ih, storeAll]
    congr 1
    · simp
    · funext j
      exact (place_succ dest j).symm

theorem storesTo_inside (small : src.length ≤ 0x10000) (inside : j < src.length) :
    storesTo mem (memcpy dest src) (dest + BitVec.ofNat 16 j) = src[j] := by
  have apart : ∀ i < src.length, dest + BitVec.ofNat 16 i = dest + BitVec.ofNat 16 j → i = j :=
    fun i bound same => cells_apart (by omega) (by omega) same
  rw [storesTo_memcpy]
  exact storeAll_apply inside fun i bound same => (apart i bound same).le

theorem storesTo_outside (outside : src.length ≤ j) (small : j < 0x10000) :
    storesTo mem (memcpy dest src) (dest + BitVec.ofNat 16 j) = mem (dest + BitVec.ofNat 16 j) := by
  rw [storesTo_memcpy]
  refine storeAll_outside fun i bound same => ?_
  have := cells_apart (by omega) small same
  omega

end Stores

structure Track (base cap q : Nat) (s : Printf) : Prop where
  buffToWrite : s.buffToWrite = BitVec.ofNat 16 (base + min q cap)
  buffMax : s.buffMax = BitVec.ofNat 16 (base + cap)
  printfSize : s.printfSize = BitVec.ofNat 16 (min q cap)

section Track

variable {base cap q : Nat} {s : Printf} {c : Byte}

theorem Track.less_iff (tracked : Track base cap q s) (room : base + cap ≤ 0xffff) :
    s.buffToWrite < s.buffMax ↔ q < cap := by
  rw [tracked.buffToWrite, tracked.buffMax, BitVec.lt_def, BitVec.toNat_ofNat, BitVec.toNat_ofNat]
  omega

theorem Track.putc (tracked : Track base cap q s) (room : base + cap ≤ 0xffff) : Track base cap (q + 1) (s.printfPutc c) := by
  have test := tracked.less_iff room
  unfold Printf.printfPutc
  split
  case isTrue less =>
    have small := test.mp less
    have next : min (q + 1) cap = min q cap + 1 := by omega
    refine ⟨?_, tracked.buffMax, ?_⟩
    · rw [next, tracked.buffToWrite, ← Nat.add_assoc, BitVec.ofNat_add (base + min q cap) 1]
      rfl
    · rw [next, tracked.printfSize, BitVec.ofNat_add]
      rfl
  case isFalse more =>
    have full : min (q + 1) cap = min q cap := by
      have := mt test.mpr more
      omega
    exact ⟨full ▸ tracked.buffToWrite, tracked.buffMax, full ▸ tracked.printfSize⟩

theorem Track.write (run : List Byte) (tracked : Track base cap q s) (room : base + cap ≤ 0xffff)
    (wrapless : base + min q cap + run.length ≤ 0xffff) : Track base cap (q + run.length) (s.printfWrite run) := by
  have sum : s.buffToWrite + BitVec.ofNat 16 run.length = BitVec.ofNat 16 (base + min q cap + run.length) := by
    rw [tracked.buffToWrite, BitVec.ofNat_add (base + min q cap)]
  have test : s.buffMax ≤ s.buffToWrite + BitVec.ofNat 16 run.length ↔ cap ≤ min q cap + run.length := by
    rw [sum, tracked.buffMax, BitVec.le_def, BitVec.toNat_ofNat, BitVec.toNat_ofNat]
    omega
  have left : s.buffMax - s.buffToWrite = BitVec.ofNat 16 (cap - min q cap) := by
    rw [tracked.buffToWrite, tracked.buffMax]
    apply BitVec.eq_of_toNat_eq
    rw [BitVec.toNat_sub, BitVec.toNat_ofNat, BitVec.toNat_ofNat, BitVec.toNat_ofNat]
    omega
  obtain ⟨toWrite, amount, next⟩ : ∃ n, (if s.buffMax ≤ s.buffToWrite + BitVec.ofNat 16 run.length
      then s.buffMax - s.buffToWrite else BitVec.ofNat 16 run.length) = BitVec.ofNat 16 n ∧
        min (q + run.length) cap = min q cap + n := by
    split
    case isTrue past => exact ⟨cap - min q cap, left, by have := test.mp past; omega⟩
    case isFalse under => exact ⟨run.length, rfl, by have := mt test.mpr under; omega⟩
  refine ⟨?_, tracked.buffMax, ?_⟩
  · simp only [Printf.printfWrite, amount]
    rw [next, ← Nat.add_assoc, BitVec.ofNat_add (base + min q cap), tracked.buffToWrite]
  · simp only [Printf.printfWrite, amount]
    rw [next, BitVec.ofNat_add (min q cap), tracked.printfSize]

end Track

structure Placed (base cap : Nat) (text : List Byte) (s : Printf) : Prop extends Track base cap text.length s where
  stores : s.stores = memcpy (BitVec.ofNat 16 base) (text.take cap)

section Placed

variable {base cap : Nat} {s : Printf} {text : List Byte} {cs : List Call}

theorem Placed.place (placed : Placed base cap text s) (small : text.length ≤ cap) :
    s.buffToWrite = BitVec.ofNat 16 base + BitVec.ofNat 16 text.length := by
  rw [placed.buffToWrite, Nat.min_eq_left small, BitVec.ofNat_add]

section

variable (placed : Placed base cap text s) (room : base + cap ≤ 0xffff)
include placed room

theorem Placed.putc (c : Byte) : Placed base cap (text ++ [c]) (s.printfPutc c) where
  toTrack := by
    rw [List.length_append]
    exact placed.toTrack.putc room
  stores := by
    have test := placed.less_iff room
    unfold Printf.printfPutc
    split
    case isTrue less =>
      have small := test.mp less
      simp only
      rw [placed.stores, List.take_of_length_le small.le,
        List.take_of_length_le (by rw [List.length_append]; exact small), memcpy_append, placed.place small.le]
      rfl
    case isFalse more =>
      have full := Nat.not_lt.mp (mt test.mpr more)
      rw [placed.stores, List.take_append_of_le_length full]

theorem Placed.write {run : List Byte}
    (fits : run ≠ [] → text.length + run.length ≤ cap) : Placed base cap (text ++ run) (s.printfWrite run) := by
  rcases eq_or_ne run [] with rfl | nonempty
  · rw [List.append_nil]
    have tracked := placed.toTrack.write [] room (by simp; omega)
    exact ⟨tracked, by simp [Printf.printfWrite, memcpy, placed.stores]⟩
  · have small := fits nonempty
    have place := placed.place (Nat.le_of_add_right_le small)
    constructor
    · rw [List.length_append]
      exact placed.toTrack.write run room (by omega)
    · simp only [Printf.printfWrite]
      rw [placed.stores, List.take_of_length_le (by omega), List.take_of_length_le (by rw [List.length_append]; exact small),
        memcpy_append, place]

theorem Placed.run (fits : Fits cap text.length cs) :
    Placed base cap (text ++ cs.flatMap Call.text) (cs.foldl Call.exec s) := by
  induction cs generalizing text s with
  | nil =>
    rw [List.flatMap_nil, List.append_nil]
    exact placed
  | cons c cs ih =>
    rw [List.flatMap_cons, ← List.append_assoc, List.foldl_cons]
    cases c with
    | putc c =>
      refine ih (placed.putc room c) ?_
      rw [List.length_append]
      exact fits
    | write run =>
      refine ih (placed.write room fits.1) ?_
      rw [List.length_append]
      exact fits.2

end

theorem fits_of_room {q : Nat} (room : q + (cs.flatMap Call.text).length ≤ cap) : Fits cap q cs := by
  induction cs generalizing q with
  | nil => trivial
  | cons c cs ih =>
    rw [List.flatMap_cons, List.length_append] at room
    cases c with
    | putc c =>
      rw [Call.text_putc, List.length_singleton] at room
      exact ih (by omega)
    | write run =>
      rw [Call.text_write] at room
      exact ⟨fun _ => by omega, ih (by omega)⟩

end Placed

def Lost (base cap : Nat) (mem : Word → Byte) (q : Nat) (s : Printf) : Prop :=
  (∃ st ∈ s.stores, ∀ i ≤ cap, st.1 ≠ BitVec.ofNat 16 (base + i)) ∨
    (base + cap = 0xffff ∧ cap < q ∧ s.buffToWrite = 0 ∧ s.buffMax = 0xffff ∧ storesTo mem s.stores 0xffff ≠ 0)

section Lost

variable {base cap q : Nat} {s : Printf} {mem : Word → Byte} {c : Call} {cs : List Call}

theorem zero_outside (nonnull : base ≠ 0) (room : base + cap ≤ 0xffff) : ∀ i ≤ cap, (0 : Word) ≠ BitVec.ofNat 16 (base + i) := by
  intro i inside same
  have value := congrArg BitVec.toNat same
  rw [BitVec.toNat_ofNat] at value
  change 0 = _ at value
  omega

theorem Lost.exec (lost : Lost base cap mem q s) (nonnull : base ≠ 0) (room : base + cap ≤ 0xffff) (c : Call) :
    Lost base cap mem (q + c.text.length) (c.exec s) := by
  have outside := zero_outside nonnull room
  rcases lost with ⟨st, member, apart⟩ | ⟨top, beyond, pointer, limit, last⟩
  · refine Or.inl ⟨st, ?_, apart⟩
    cases c with
    | putc c =>
      rw [Call.exec_putc, Printf.printfPutc]
      split
      · exact List.mem_append_left _ member
      · exact member
    | write run => exact List.mem_append_left _ member
  · cases c with
    | putc c =>
      refine Or.inl ⟨(0, c), ?_, outside⟩
      rw [Call.exec_putc, Printf.printfPutc, pointer, limit, if_pos (by decide)]
      simp
    | write run =>
      cases run with
      | nil =>
        refine Or.inr ⟨top, by simpa using beyond, ?_, limit, ?_⟩
        · simp [Printf.printfWrite, pointer, limit]
        · simpa [Printf.printfWrite, memcpy] using last
      | cons b run =>
        refine Or.inl ⟨(0, b), ?_, outside⟩
        simp [Printf.printfWrite, pointer, memcpy]

theorem Lost.run (lost : Lost base cap mem q s) (nonnull : base ≠ 0) (room : base + cap ≤ 0xffff) (cs : List Call) :
    Lost base cap mem (q + (cs.flatMap Call.text).length) (cs.foldl Call.exec s) := by
  induction cs generalizing q s with
  | nil => exact lost
  | cons c cs ih =>
    rw [List.flatMap_cons, List.length_append, ← Nat.add_assoc]
    exact ih (lost.exec nonnull room c)

theorem Track.write_lost {run : List Byte} (tracked : Track base cap q s) (nonnull : base ≠ 0) (room : base + cap ≤ 0xffff)
    (sound : (Call.write run).Sound) (past : 0xffff < base + min q cap + run.length) :
    Lost base cap mem (q + run.length) (s.printfWrite run) := by
  have sum : ∀ j, s.buffToWrite + BitVec.ofNat 16 j = BitVec.ofNat 16 (base + min q cap + j) := by
    intro j
    rw [tracked.buffToWrite, BitVec.ofNat_add (base + min q cap)]
  have stored : ∀ j < run.length, ∃ st ∈ (s.printfWrite run).stores, st.1 = BitVec.ofNat 16 (base + min q cap + j) := by
    intro j inside
    obtain ⟨st, member, place⟩ := mem_memcpy s.buffToWrite inside
    exact ⟨st, List.mem_append_right _ member, place.trans (sum j)⟩
  rcases Nat.lt_or_ge (base + cap) 0xffff with below | top
  · -- the last byte of memory is behind the buffer
    obtain ⟨st, member, place⟩ := stored (0xffff - (base + min q cap)) (by omega)
    refine Or.inl ⟨st, member, fun i inside same => ?_⟩
    have value := congrArg BitVec.toNat (place.symm.trans same)
    rw [BitVec.toNat_ofNat, BitVec.toNat_ofNat] at value
    omega
  rcases Nat.lt_or_ge 0x10000 (base + min q cap + run.length) with around | exact
  · -- the run goes on at address zero
    obtain ⟨st, member, place⟩ := stored (0x10000 - (base + min q cap)) (by omega)
    have zero : st.1 = 0 := by
      rw [place, Nat.add_sub_of_le (by omega)]
      rfl
    exact Or.inl ⟨st, member, fun i inside => zero ▸ zero_outside nonnull room i inside⟩
  · -- the run ends at the last byte of memory, where the zero has its place
    have whole : base + min q cap + run.length = 0x10000 := by omega
    have next : s.buffToWrite + BitVec.ofNat 16 run.length = 0 := by
      rw [sum, whole]
      rfl
    have limit : s.buffMax = 0xffff := by
      rw [tracked.buffMax, show base + cap = 0xffff by omega]
      rfl
    have last : s.buffToWrite + BitVec.ofNat 16 (run.length - 1) = 0xffff := by
      rw [sum, show base + min q cap + (run.length - 1) = 0xffff by omega]
      rfl
    refine Or.inr ⟨by omega, by omega, ?_, limit, ?_⟩
    · simp only [Printf.printfWrite, next, limit]
      exact next
    · simp only [Printf.printfWrite]
      rw [storesTo_append, ← last, storesTo_inside sound.2.le (by omega)]
      exact fun zero => sound.1 (zero ▸ List.getElem_mem _)

theorem Track.run (mem : Word → Byte) (tracked : Track base cap q s) (nonnull : base ≠ 0) (room : base + cap ≤ 0xffff)
    (sound : ∀ c ∈ cs, c.Sound) :
    (Track base cap (q + (cs.flatMap Call.text).length) (cs.foldl Call.exec s) ∧ (base + cap = 0xffff → Fits cap q cs)) ∨
      Lost base cap mem (q + (cs.flatMap Call.text).length) (cs.foldl Call.exec s) := by
  induction cs generalizing q s with
  | nil => exact Or.inl ⟨tracked, fun _ => trivial⟩
  | cons c cs ih =>
    obtain ⟨first, rest⟩ := List.forall_mem_cons.mp sound
    rw [List.flatMap_cons, List.length_append, ← Nat.add_assoc, List.foldl_cons]
    cases c with
    | putc c => exact ih (tracked.putc room) rest
    | write run =>
      rcases Nat.lt_or_ge 0xffff (base + min q cap + run.length) with past | wrapless
      · exact Or.inr ((tracked.write_lost nonnull room first past).run nonnull room cs)
      · rcases ih (tracked.write run room wrapless) rest with ⟨after, fits⟩ | lost
        · refine Or.inl ⟨after, fun top => ⟨fun nonempty => ?_, fits top⟩⟩
          have := List.length_pos_iff.mpr nonempty
          omega
        · exact Or.inr lost

end Lost

structure Buffer where
  start : Word
  size : Word
  nonnull : start ≠ 0
  positive : size ≠ 0
  fits : start.toNat + size.toNat ≤ 0x10000

def Buffer.kept (b : Buffer) (text : List Byte) : Nat := min text.length (b.size.toNat - 1)

structure Bounded (b : Buffer) (args : PrintfArgs) (mem : Word → Byte) : Prop where
  inside : ∀ st ∈ (vsnprintf b.start b.size args).2, ∃ i < b.size.toNat, st.1 = b.start + BitVec.ofNat 16 i
  text : ∀ i < b.kept (rendering args),
    (rendering args)[i]? = some (storesTo mem (vsnprintf b.start b.size args).2 (b.start + BitVec.ofNat 16 i))
  zero : storesTo mem (vsnprintf b.start b.size args).2 (b.start + BitVec.ofNat 16 (b.kept (rendering args))) = 0
  count : (vsnprintf b.start b.size args).1 = BitVec.ofNat 16 (b.kept (rendering args))

def finish (s : Printf) : Printf := Printf.printfPutc { s with buffMax := s.buffMax + 1 } 0

def afterText (buffer bufsz : Word) (args : PrintfArgs) : Printf :=
  (calls args args.format 0).foldl Call.exec (vsnprintfStart buffer bufsz)

section Finish

variable {base cap q : Nat} {s : Printf} {buffer bufsz : Word} {args : PrintfArgs} {b : Buffer} {mem : Word → Byte}

theorem vsnprintf_eq (positive : bufsz ≠ 0) : vsnprintf buffer bufsz args =
    ((finish (afterText buffer bufsz args)).printfSize, (finish (afterText buffer bufsz args)).stores) := by
  rw [vsnprintf, if_neg positive, printfCore, printfLoop_eq]
  rfl

theorem finish_stores (s : Printf) : s.stores <+: (finish s).stores := by
  unfold finish Printf.printfPutc
  split
  · exact List.prefix_append _ _
  · exact List.prefix_rfl

theorem finish_top (top : s.buffMax = 0xffff) : (finish s).printfSize = s.printfSize ∧ (finish s).stores = s.stores := by
  have none : ¬ s.buffToWrite < s.buffMax + 1 := by
    rw [top]
    exact BitVec.not_lt_zero
  simp only [finish, Printf.printfPutc, none, if_false, and_self]

theorem Track.less_raised (tracked : Track base cap q s) (below : base + cap < 0xffff) : s.buffToWrite < s.buffMax + 1 := by
  have raised : s.buffMax + 1 = BitVec.ofNat 16 (base + cap + 1) := by
    rw [tracked.buffMax, BitVec.ofNat_add (base + cap)]
    rfl
  rw [raised, tracked.buffToWrite, BitVec.lt_def, BitVec.toNat_ofNat, BitVec.toNat_ofNat]
  omega

theorem finish_below (tracked : Track base cap q s) (below : base + cap < 0xffff) :
    (finish s).printfSize = BitVec.ofNat 16 (min q cap) + 1 ∧ (finish s).stores = s.stores ++ [(s.buffToWrite, 0)] := by
  simp only [finish, Printf.printfPutc, tracked.less_raised below, if_true, tracked.printfSize, and_self]

theorem rendering_eq (args : PrintfArgs) : (calls args args.format 0).flatMap Call.text = rendering args := render_eq _ _

theorem Buffer.room (b : Buffer) : b.start.toNat + (b.size.toNat - 1) ≤ 0xffff := by
  have fits := b.fits
  have positive : b.size.toNat ≠ 0 := fun zero => b.positive (BitVec.eq_of_toNat_eq zero)
  omega

theorem Buffer.place (b : Buffer) (i : Nat) : b.start + BitVec.ofNat 16 i = BitVec.ofNat 16 (b.start.toNat + i) := by
  rw [BitVec.ofNat_add, BitVec.ofNat_toNat, BitVec.setWidth_eq]

theorem Buffer.nonzero (b : Buffer) : b.start.toNat ≠ 0 := fun zero => b.nonnull (BitVec.eq_of_toNat_eq zero)

theorem placed_start {buffer bufsz : Word} (limit : (vsnprintfStart buffer bufsz).buffMax = BitVec.ofNat 16 (buffer.toNat + cap)) :
    Placed buffer.toNat cap [] (vsnprintfStart buffer bufsz) where
  buffToWrite := by simp [vsnprintfStart]
  buffMax := limit
  printfSize := by simp [vsnprintfStart]
  stores := by simp [vsnprintfStart, memcpy]

theorem Buffer.limit (b : Buffer) :
    (vsnprintfStart b.start b.size).buffMax = BitVec.ofNat 16 (b.start.toNat + (b.size.toNat - 1)) := by
  have fits := b.fits
  have nonzero := b.nonzero
  have positive : b.size.toNat ≠ 0 := fun zero => b.positive (BitVec.eq_of_toNat_eq zero)
  unfold vsnprintfStart
  simp only
  split
  case isTrue all =>
    have size : b.size.toNat = 0xffff := by
      rw [all]
      rfl
    rw [show b.start.toNat + (b.size.toNat - 1) = 0xffff by omega]
    rfl
  case isFalse =>
    have one : (1 : Word).toNat = 1 := rfl
    apply BitVec.eq_of_toNat_eq
    rw [BitVec.toNat_sub, BitVec.toNat_add, BitVec.toNat_ofNat, one]
    omega

theorem Buffer.placed (b : Buffer) (fits : Fits (b.size.toNat - 1) 0 (calls args args.format 0)) :
    Placed b.start.toNat (b.size.toNat - 1) (rendering args) (afterText b.start b.size args) := by
  have placed := (placed_start b.limit).run b.room fits
  rwa [List.nil_append, rendering_eq] at placed

theorem Buffer.run (b : Buffer) (args : PrintfArgs) (mem : Word → Byte) :
    (Track b.start.toNat (b.size.toNat - 1) (rendering args).length (afterText b.start b.size args) ∧
      (b.start.toNat + (b.size.toNat - 1) = 0xffff → Fits (b.size.toNat - 1) 0 (calls args args.format 0))) ∨
      Lost b.start.toNat (b.size.toNat - 1) mem (rendering args).length (afterText b.start b.size args) := by
  have run := (placed_start b.limit).toTrack.run mem b.nonzero b.room (calls_sound args args.format 0)
  rwa [rendering_eq, List.length_nil, Nat.zero_add] at run

theorem not_bounded_of_lost
    (lost : Lost b.start.toNat (b.size.toNat - 1) mem (rendering args).length (afterText b.start b.size args)) :
    ¬ Bounded b args mem := by
  intro bounded
  have inside := bounded.inside
  have zero := bounded.zero
  rw [vsnprintf_eq b.positive] at inside zero
  rcases lost with ⟨st, member, apart⟩ | ⟨top, beyond, -, limit, last⟩
  · obtain ⟨i, small, place⟩ := inside st ((finish_stores _).subset member)
    exact apart i (by omega) (place.trans (b.place i))
  · have place : b.start + BitVec.ofNat 16 (b.kept (rendering args)) = 0xffff := by
      rw [b.place, Buffer.kept, Nat.min_eq_right beyond.le, top]
      rfl
    rw [(finish_top limit).2, place] at zero
    exact last zero

end Finish

theorem vsnprintf_bounded_iff (b : Buffer) (args : PrintfArgs) (mem : Word → Byte) :
    Bounded b args mem ↔ b.start.toNat + b.size.toNat = 0x10000 ∧
      mem (b.start + BitVec.ofNat 16 (b.kept (rendering args))) = 0 ∧
      Fits (b.size.toNat - 1) 0 (calls args args.format 0) := by
  have small := b.room
  have taken : ((rendering args).take (b.size.toNat - 1)).length = b.kept (rendering args) := by
    rw [List.length_take, Nat.min_comm]
    rfl
  have kept : b.kept (rendering args) ≤ b.size.toNat - 1 := Nat.min_le_right _ _
  have size := b.size.isLt
  -- a limit at the end of memory: what is stored is the text that has room
  have placed : b.start.toNat + (b.size.toNat - 1) = 0xffff → Fits (b.size.toNat - 1) 0 (calls args args.format 0) →
      vsnprintf b.start b.size args = (BitVec.ofNat 16 (b.kept (rendering args)),
        memcpy b.start ((rendering args).take (b.size.toNat - 1))) := by
    intro top fits
    have placed := b.placed fits
    have limit : (afterText b.start b.size args).buffMax = 0xffff := by
      rw [placed.buffMax, top]
      rfl
    rw [vsnprintf_eq b.positive, (finish_top limit).1, (finish_top limit).2, placed.printfSize, placed.stores,
      BitVec.ofNat_toNat, BitVec.setWidth_eq]
    rfl
  constructor
  · intro bounded
    rcases b.run args mem with ⟨tracked, fits⟩ | lost
    · rcases Nat.lt_or_ge (b.start.toNat + (b.size.toNat - 1)) 0xffff with below | top
      · have count := bounded.count
        rw [vsnprintf_eq b.positive, (finish_below tracked below).1] at count
        exact absurd count (by simp [Buffer.kept])
      · have fits := fits (by omega)
        have zero := bounded.zero
        rw [placed (by omega) fits, storesTo_outside taken.le (by omega)] at zero
        have := b.nonzero
        have := b.fits
        have positive : b.size.toNat ≠ 0 := fun zero => b.positive (BitVec.eq_of_toNat_eq zero)
        exact ⟨by omega, zero, fits⟩
    · exact absurd bounded (not_bounded_of_lost lost)
  · rintro ⟨top, zero, fits⟩
    have positive : b.size.toNat ≠ 0 := fun zero => b.positive (BitVec.eq_of_toNat_eq zero)
    have printed := placed (by omega) fits
    constructor
    · intro st member
      rw [printed] at member
      obtain ⟨i, inside, place⟩ := of_mem_memcpy member
      exact ⟨i, by omega, place⟩
    · intro i inside
      rw [printed, storesTo_inside (by omega) (by omega), List.getElem_take]
      exact List.getElem?_eq_getElem _
    · rw [printed, storesTo_outside taken.le (by omega)]
      exact zero
    · rw [printed]

def longString : PrintfArgs where
  format := [ascii '%', ascii 's']
  vlist _ := 0
  string _ := List.replicate 8 (ascii 'a')
  formatZeros := by decide
  stringZeros _ := by decide
  stringShort _ := by decide

theorem long_string_not_bounded :
    ¬ Bounded ⟨0x2000, 4, by decide, by decide, by decide⟩ longString (fun _ => 0) := by
  intro bounded
  have stored : (0x2007, ascii 'a') ∈ (vsnprintf 0x2000 4 longString).2 := by decide
  obtain ⟨i, small, place⟩ := bounded.inside _ stored
  revert i
  decide

structure Printed (buffer : Word) (args : PrintfArgs) (mem : Word → Byte) : Prop where
  text : ∀ i < (rendering args).length,
    (rendering args)[i]? = some (storesTo mem (sprintf buffer args).2 (buffer + BitVec.ofNat 16 i))
  zero : storesTo mem (sprintf buffer args).2 (buffer + BitVec.ofNat 16 (rendering args).length) = 0

theorem sprintf_printed_iff (buffer : Word) (args : PrintfArgs) (mem : Word → Byte)
    (fits : buffer.toNat + (rendering args).length ≤ 0xffff) :
    Printed buffer args mem ↔ mem (buffer + BitVec.ofNat 16 (rendering args).length) = 0 := by
  have limit : (vsnprintfStart buffer 0xffff).buffMax = BitVec.ofNat 16 (buffer.toNat + (0xffff - buffer.toNat)) := by
    rw [Nat.add_sub_of_le (by omega)]
    rfl
  have room : 0 + ((calls args args.format 0).flatMap Call.text).length ≤ 0xffff - buffer.toNat := by
    rw [rendering_eq]
    omega
  have placed := (placed_start limit).run (by omega) (fits_of_room room)
  rw [List.nil_append, rendering_eq] at placed
  have stores : (sprintf buffer args).2 = memcpy buffer (rendering args) := by
    have top : (afterText buffer 0xffff args).buffMax = 0xffff := by
      rw [afterText, placed.buffMax, Nat.add_sub_of_le (by omega)]
      rfl
    rw [sprintf, vsnprintf_eq (by decide), (finish_top top).2, afterText, placed.stores, List.take_of_length_le (by omega),
      BitVec.ofNat_toNat, BitVec.setWidth_eq]
  have behind : storesTo mem (sprintf buffer args).2 (buffer + BitVec.ofNat 16 (rendering args).length) =
      mem (buffer + BitVec.ofNat 16 (rendering args).length) := by
    rw [stores, storesTo_outside (Nat.le_refl _) (by omega)]
  constructor
  · intro printed
    rw [← behind]
    exact printed.zero
  · intro zero
    refine ⟨?_, behind.trans zero⟩
    intro i inside
    rw [stores, storesTo_inside (by omega) inside]
    exact List.getElem?_eq_getElem _

def oneLetter : PrintfArgs where
  format := [ascii 'a']
  vlist _ := 0
  string _ := []
  formatZeros := by decide
  stringZeros _ := by decide
  stringShort _ := by decide

theorem one_letter_printed : Printed 0x2000 oneLetter (fun _ => 0) :=
  (sprintf_printed_iff 0x2000 oneLetter (fun _ => 0) (by decide)).mpr rfl

theorem one_letter_not_terminated : ¬ Printed 0x2000 oneLetter (fun _ => 1) := by
  intro printed
  have zero := printed.zero
  revert zero
  decide

end PiOS.Proof.Printf
