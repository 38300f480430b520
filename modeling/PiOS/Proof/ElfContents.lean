import PiOS.Kernel.Proc.Elf

namespace PiOS.Proof.ElfImage
open Kernel

section Sizes

variable {vaddr : Word}

theorem start_toNat : (vaddr % pageBytes).toNat = vaddr.toNat % 0x1000 := BitVec.toNat_umod

theorem room_toNat : (pageBytes - vaddr % pageBytes).toNat = 0x1000 - vaddr.toNat % 0x1000 := by
  have page : pageBytes.toNat = 0x1000 := rfl
  have start := @start_toNat vaddr
  rw [word_sub_toNat (by omega), start, page]

def pageBase (vaddr : Word) : Nat := virtPagePart vaddr * 0x1000

theorem pageBase_of_aligned (aligned : vaddr.toNat % 0x1000 = 0) : pageBase vaddr = vaddr.toNat := by
  rw [pageBase, virtPagePart_toNat]
  omega

theorem readSize_toNat {endAddr mAddr : Word} (more : mAddr ≤ endAddr) (last : endAddr.toNat < 0x1000) :
    (wordMin loadBuffSize (endAddr - mAddr + 1)).toNat = min 0x100 (endAddr.toNat + 1 - mAddr.toNat) := by
  have order : mAddr.toNat ≤ endAddr.toNat := more
  have left : (endAddr - mAddr + 1).toNat = endAddr.toNat + 1 - mAddr.toNat := by
    rw [word_add_toNat] <;> rw [BitVec.toNat_sub_of_le more] <;> simp <;> omega
  rw [wordMin_toNat, left]
  rfl

theorem zeroSize_toNat {bssEnd : Word} (more : vaddr < bssEnd) :
    (wordMin (pageBytes - vaddr % pageBytes) (bssEnd - vaddr)).toNat =
      min (0x1000 - vaddr.toNat % 0x1000) (bssEnd.toNat - vaddr.toNat) := by
  have order : vaddr.toNat < bssEnd.toNat := more
  rw [wordMin_toNat, room_toNat, word_sub_toNat (Nat.le_of_lt order)]

end Sizes

abbrev Contents := Bool → Nat → Option Byte

def Contents.fill (c : Contents) (prog : Bool) (low high : Nat) (byte : Nat → Byte) : Contents := fun prog' x =>
  if prog' = prog ∧ low ≤ x ∧ x < high then some (byte x) else c prog' x

section Contents

variable {c : Contents} {prog : Bool} {low mid high : Nat} {byte byte' : Nat → Byte}

theorem fill_fill (first : low ≤ mid) (second : mid ≤ high) (same : ∀ x, mid ≤ x → byte' x = byte x) :
    (c.fill prog low mid byte).fill prog mid high byte' = c.fill prog low high byte := by
  funext prog' x
  simp only [Contents.fill]
  by_cases here : prog' = prog
  · rcases Nat.lt_or_ge x mid with before | after
    · have inside : low ≤ x ∧ x < mid ↔ low ≤ x ∧ x < high := by omega
      simp [here, Nat.not_le.2 before, inside]
    · have outside : ¬(low ≤ x ∧ x < mid) := by omega
      have inside : mid ≤ x ∧ x < high ↔ low ≤ x ∧ x < high := by omega
      simp only [here, true_and, inside, same x after, if_neg outside]
  · simp [here]

theorem fill_empty (empty : high ≤ low) : c.fill prog low high byte = c := by
  funext prog' x
  have outside : ¬(prog' = prog ∧ low ≤ x ∧ x < high) := by omega
  simp only [Contents.fill, if_neg outside]

theorem fill_congr (same : ∀ x, low ≤ x → x < high → byte x = byte' x) :
    c.fill prog low high byte = c.fill prog low high byte' := by
  funext prog' x
  simp only [Contents.fill]
  split
  · rename_i inside
    rw [same x inside.2.1 inside.2.2]
  · rfl

end Contents

def fromFile (file : List Byte) (offset low : Nat) : Nat → Byte := fun x => file.getD (offset + (x - low)) 0

theorem fromFile_shift {file : List Byte} {offset offset' low mid x : Nat} (shift : offset' + low = offset + mid) (first : low ≤ mid)
    (second : mid ≤ x) : fromFile file offset' mid x = fromFile file offset low x := by
  have place : offset' + (x - mid) = offset + (x - low) := by omega
  rw [fromFile, fromFile, place]

/-- Where the loader goes on after the part of a segment that is in the file. A part of one page is
left to the next page boundary, or past the file bytes for a segment at 0, and the sum is a `u16`. -/
def bssStart (fileSize vaddr : Nat) : Nat :=
  if fileSize = 0 then vaddr
  else if fileSize ≤ 0x1000 then (vaddr + min 0x1000 (vaddr + fileSize)) % 0x10000
  else vaddr + fileSize

/-- The zeroed part of a segment. The last store is a `u16`, so it reaches a byte past the end where
the page goes on. -/
def Contents.zero (c : Contents) (low high : Nat) : Contents :=
  if low < high then c.fill false low (if high % 0x1000 = 0 then high else high + 1) fun _ => 0 else c

structure Segment where
  prog : Bool
  offset : Nat
  vaddr : Nat
  fileSize : Nat
  memSize : Nat
  deriving DecidableEq

def field (bytes : List Byte) (off : Nat) : Nat :=
  (getU16 bytes off).toNat + 0x10000 * (getU16 bytes (off + 2)).toNat

def segmentOf (ph : List Byte) : Segment where
  prog := field ph phOffFlags % 2 = 1
  offset := field ph phOffOffset
  vaddr := field ph phOffVaddr
  fileSize := field ph phOffFilesz
  memSize := field ph phOffMemsz

def phoff (file : List Byte) : Nat := field (file.take 56) ehOffPhoff

def phnum (file : List Byte) : Nat := (getU16 (file.take 56) ehOffPhnum).toNat

def headerPlace (file : List Byte) (j : Nat) : Nat := phoff file + 32 * j

def headerAt (file : List Byte) (j : Nat) : List Byte := (file.drop (headerPlace file j)).take 32

def segmentsAt (file : List Byte) (js : List Nat) : List Segment :=
  ((js.map (headerAt file)).filter fun ph => field ph phOffType = 1).map segmentOf

def segmentsOf (file : List Byte) : List Segment := segmentsAt file (List.range (phnum file))

def Segment.place (file : List Byte) (c : Contents) (seg : Segment) : Contents :=
  let loaded := c.fill seg.prog seg.vaddr (seg.vaddr + seg.fileSize) (fromFile file seg.offset seg.vaddr)
  if seg.prog = false ∧ seg.fileSize < seg.memSize then
    loaded.zero (bssStart seg.fileSize seg.vaddr) (seg.vaddr + seg.memSize)
  else
    loaded

structure Segment.Sound (file : List Byte) (seg : Segment) : Prop where
  aligned : seg.vaddr % 0x1000 = 0
  fits : seg.vaddr + seg.memSize < 0x10000
  within : seg.fileSize ≤ seg.memSize
  inside : seg.fileSize ≠ 0 → seg.offset + seg.fileSize ≤ file.length
  whole : seg.prog = true → seg.fileSize % 4 = 0

theorem sound_iff {file : List Byte} {seg : Segment} : seg.Sound file ↔ seg.vaddr % 0x1000 = 0 ∧
    seg.vaddr + seg.memSize < 0x10000 ∧ seg.fileSize ≤ seg.memSize ∧
    (seg.fileSize ≠ 0 → seg.offset + seg.fileSize ≤ file.length) ∧ (seg.prog = true → seg.fileSize % 4 = 0) :=
  ⟨fun ⟨aligned, fits, within, inside, whole⟩ => ⟨aligned, fits, within, inside, whole⟩,
    fun ⟨aligned, fits, within, inside, whole⟩ => ⟨aligned, fits, within, inside, whole⟩⟩

instance (file : List Byte) : DecidablePred (Segment.Sound file) := fun _ => decidable_of_iff _ sound_iff.symm

def Segment.Apart (seg seg' : Segment) : Prop :=
  seg.prog = seg'.prog → ∀ x, ¬(seg.vaddr ≤ x ∧ x < seg.vaddr + seg.memSize ∧
    seg'.vaddr ≤ x ∧ x < seg'.vaddr + seg'.memSize)

structure Loadable (file : List Byte) : Prop where
  short : file.length < 0x8000
  header : 56 ≤ file.length
  valid : elfHeaderValid (file.take 56) = true
  table : ∀ j < phnum file, headerPlace file j + 32 ≤ file.length
  sounds : ∀ seg ∈ segmentsOf file, seg.Sound file
  apart : (segmentsOf file).Pairwise Segment.Apart

/-- `load_ph` looks at the low half of the type. -/
def Typed (file : List Byte) : Prop :=
  ∀ j < phnum file, getU16 (headerAt file j) phOffType = 1 → field (headerAt file j) phOffType = 1

structure Segment.ReadFrom (ph : List Byte) (seg : Segment) : Prop where
  prog : decide (getU16 ph phOffFlags &&& 1 ≠ 0) = seg.prog
  vaddr : (getU16 ph phOffVaddr).toNat = seg.vaddr
  fileSize : (getU16 ph phOffFilesz).toNat = seg.fileSize
  memSize : (getU16 ph phOffMemsz).toNat = seg.memSize
  offset : seg.fileSize ≠ 0 → (getU16 ph phOffOffset).toNat = seg.offset

theorem field_of_small {bytes : List Byte} {off : Nat} (small : field bytes off < 0x10000) :
    (getU16 bytes off).toNat = field bytes off := by
  unfold field at small ⊢
  omega

theorem prog_segmentOf (ph : List Byte) : decide (getU16 ph phOffFlags &&& 1 ≠ 0) = (segmentOf ph).prog := by
  have low : (getU16 ph phOffFlags &&& 1).toNat = (getU16 ph phOffFlags).toNat % 2 :=
    (BitVec.toNat_and ..).trans (Nat.and_one_is_mod _)
  have nonzero : getU16 ph phOffFlags &&& 1 ≠ 0 ↔ (getU16 ph phOffFlags &&& 1).toNat ≠ 0 :=
    not_congr ⟨fun zero => congrArg BitVec.toNat zero, fun zero => BitVec.eq_of_toNat_eq zero⟩
  have odd : getU16 ph phOffFlags &&& 1 ≠ 0 ↔ field ph phOffFlags % 2 = 1 := by
    rw [nonzero, low, field]
    omega
  exact decide_eq_decide.2 odd

theorem readFrom_segmentOf {file ph : List Byte} (short : file.length < 0x8000) (sound : (segmentOf ph).Sound file) :
    (segmentOf ph).ReadFrom ph := by
  have fits := sound.fits
  have within := sound.within
  have inside := sound.inside
  simp only [segmentOf] at fits within inside
  refine ⟨prog_segmentOf ph, field_of_small (by omega), field_of_small (by omega), field_of_small (by omega), ?_⟩
  intro nonempty
  have bound := inside nonempty
  exact field_of_small (by omega)

def Segment.Found (file : List Byte) (c : Contents) (seg : Segment) : Prop :=
  ∀ i < seg.fileSize, c seg.prog (seg.vaddr + i) = some (file.getD (seg.offset + i) 0)

def Segment.Wraps (seg : Segment) : Prop :=
  seg.prog = false ∧ seg.vaddr = 0xf000 ∧ 0 < seg.fileSize ∧ seg.fileSize < seg.memSize

instance : DecidablePred Segment.Wraps := fun _ => instDecidableAnd

def Segment.Blank (file : List Byte) (seg : Segment) : Prop :=
  ∀ i < seg.fileSize, file.getD (seg.offset + i) 0 = 0

instance (file : List Byte) : DecidablePred (Segment.Blank file) := fun seg =>
  inferInstanceAs (Decidable (∀ i < seg.fileSize, file.getD (seg.offset + i) 0 = 0))

def Segment.Zeroed (c : Contents) (seg : Segment) : Prop :=
  ∀ i < seg.fileSize, c seg.prog (seg.vaddr + i) = some 0

def Kept (file : List Byte) (segs : List Segment) : Prop :=
  (∀ seg ∈ segs, seg.Wraps → seg.Blank file) ∧
    segs.Pairwise fun seg later => later.Wraps → seg.prog = false → seg.Blank file

instance (file : List Byte) (segs : List Segment) : Decidable (Kept file segs) := instDecidableAnd

section Placing

variable {file : List Byte} {c : Contents} {prog : Bool} {low high x : Nat} {byte : Nat → Byte}

theorem fill_inside (above : low ≤ x) (below : x < high) : c.fill prog low high byte prog x = some (byte x) := by
  simp [Contents.fill, above, below]

theorem fill_outside (outside : x < low ∨ high ≤ x) : c.fill prog low high byte prog x = c prog x := by
  have not_inside : ¬(low ≤ x ∧ x < high) := by omega
  simp [Contents.fill, not_inside]

theorem fill_other {prog' : Bool} (other : prog' ≠ prog) : c.fill prog low high byte prog' x = c prog' x := by
  simp [Contents.fill, other]

theorem zero_inside (above : low ≤ x) (below : x < high) : c.zero low high false x = some 0 := by
  have nonempty : low < high := by omega
  rw [Contents.zero, if_pos nonempty, fill_inside above]
  split <;> omega

theorem zero_outside (outside : x < low ∨ high ≤ x ∧ high % 0x1000 = 0 ∨ high + 1 ≤ x) :
    c.zero low high false x = c false x := by
  unfold Contents.zero
  split
  · refine fill_outside ?_
    split <;> omega
  · rfl

theorem zero_prog : c.zero low high true x = c true x := by
  unfold Contents.zero
  split
  · exact fill_other (by decide)
  · rfl

variable {seg w : Segment}

theorem bssStart_of_not_wraps (sound : seg.Sound file) (data : seg.prog = false)
    (longer : seg.fileSize < seg.memSize) (plain : ¬seg.Wraps) :
    seg.vaddr + seg.fileSize ≤ bssStart seg.fileSize seg.vaddr := by
  have := sound.aligned
  have := sound.fits
  have low : seg.fileSize = 0 ∨ seg.vaddr ≠ 0xf000 := by
    by_contra both
    push Not at both
    exact plain ⟨data, both.2, Nat.pos_of_ne_zero both.1, longer⟩
  unfold bssStart
  split
  · omega
  · split <;> omega

theorem bssStart_of_wraps (sound : seg.Sound file) (wraps : seg.Wraps) : bssStart seg.fileSize seg.vaddr = 0 := by
  obtain ⟨-, place, positive, longer⟩ := wraps
  have := sound.fits
  rw [bssStart, if_neg (by omega), if_pos (by omega)]
  omega

theorem found_place (sound : seg.Sound file) (plain : ¬seg.Wraps) : seg.Found file (seg.place file c) := by
  intro i inside
  have loaded : c.fill seg.prog seg.vaddr (seg.vaddr + seg.fileSize) (fromFile file seg.offset seg.vaddr) seg.prog
      (seg.vaddr + i) = some (file.getD (seg.offset + i) 0) := by
    rw [fill_inside (by omega) (by omega), fromFile, Nat.add_sub_cancel_left]
  unfold Segment.place
  split
  · rename_i bss
    have start := bssStart_of_not_wraps sound bss.1 bss.2 plain
    rw [bss.1] at loaded ⊢
    rw [zero_outside (by omega)]
    exact loaded
  · exact loaded

theorem place_wraps (sound : w.Sound file) (wraps : w.Wraps) (below : x < w.vaddr + w.memSize) :
    w.place file c false x = some 0 := by
  rw [Segment.place, if_pos ⟨wraps.1, wraps.2.2.2⟩, bssStart_of_wraps sound wraps]
  exact zero_inside (Nat.zero_le x) below

theorem place_apart (sound : seg.Sound file) (sound' : w.Sound file) (apart : seg.Apart w)
    (spared : w.Wraps → seg.prog = true) {i : Nat} (inside : i < seg.fileSize) :
    w.place file c seg.prog (seg.vaddr + i) = c seg.prog (seg.vaddr + i) := by
  have within := sound.within
  have within' := sound'.within
  have aligned := sound.aligned
  have aligned' := sound'.aligned
  have loaded : c.fill w.prog w.vaddr (w.vaddr + w.fileSize) (fromFile file w.offset w.vaddr) seg.prog (seg.vaddr + i) =
      c seg.prog (seg.vaddr + i) := by
    by_cases space : seg.prog = w.prog
    · have separate := apart space (seg.vaddr + i)
      rw [space]
      exact fill_outside (by omega)
    · exact fill_other space
  unfold Segment.place
  split
  · rename_i bss
    rw [← loaded]
    cases space : seg.prog with
    | true => exact zero_prog
    | false =>
      have plain : ¬w.Wraps := fun wraps => by
        have same := spared wraps
        rw [space] at same
        cases same
      have start := bssStart_of_not_wraps sound' bss.1 bss.2 plain
      have separate := apart (space.trans bss.1.symm) (max seg.vaddr w.vaddr)
      exact zero_outside (by omega)
  · exact loaded

theorem zeroed_place (sound : seg.Sound file) (sound' : w.Sound file) (apart : seg.Apart w) (wraps : w.Wraps)
    (data : seg.prog = false) : seg.Zeroed (w.place file c) := by
  intro i inside
  have within := sound.within
  have fits := sound.fits
  have separate := apart (data.trans wraps.1.symm) (max seg.vaddr w.vaddr)
  have place := wraps.2.1
  have longer := wraps.2.2.2
  have aligned := sound.aligned
  rw [data]
  exact place_wraps sound' wraps (by omega)

variable {segs : List Segment}

theorem zeroed_placeAll (sound : seg.Sound file) (sounds : ∀ w ∈ segs, w.Sound file)
    (apart : ∀ w ∈ segs, seg.Apart w) (zeroed : seg.Zeroed c) : seg.Zeroed (segs.foldl (Segment.place file) c) := by
  induction segs generalizing c with
  | nil => exact zeroed
  | cons w rest ih =>
    rw [List.forall_mem_cons] at sounds apart
    refine ih sounds.2 apart.2 ?_
    by_cases spared : w.Wraps → seg.prog = true
    · intro i inside
      rw [place_apart sound sounds.1 apart.1 spared inside]
      exact zeroed i inside
    · push Not at spared
      exact zeroed_place sound sounds.1 apart.1 spared.1 (Bool.eq_false_of_not_eq_true spared.2)

theorem found_iff_blank (zeroed : seg.Zeroed c) : seg.Found file c ↔ seg.Blank file := by
  refine forall₂_congr fun i inside => ?_
  rw [zeroed i inside, Option.some.injEq, eq_comm]

theorem found_placeAll_iff (sound : seg.Sound file) (sounds : ∀ w ∈ segs, w.Sound file)
    (apart : ∀ w ∈ segs, seg.Apart w) (found : seg.Found file c) : seg.Found file (segs.foldl (Segment.place file) c) ↔
      ∀ w ∈ segs, w.Wraps → seg.prog = false → seg.Blank file := by
  induction segs generalizing c with
  | nil => simp [found]
  | cons w rest ih =>
    rw [List.forall_mem_cons] at sounds apart ⊢
    by_cases spared : w.Wraps → seg.prog = true
    · have kept : seg.Found file (w.place file c) := by
        intro i inside
        rw [place_apart sound sounds.1 apart.1 spared inside]
        exact found i inside
      rw [List.foldl_cons, ih sounds.2 apart.2 kept, iff_and_self]
      intro _ wraps data
      rw [spared wraps] at data
      cases data
    · push Not at spared
      have data := Bool.eq_false_of_not_eq_true spared.2
      have zeroed := zeroed_place (c := c) sound sounds.1 apart.1 spared.1 data
      rw [List.foldl_cons, found_iff_blank (zeroed_placeAll sound sounds.2 apart.2 zeroed)]
      exact ⟨fun blank => ⟨fun _ _ => blank, fun _ _ _ _ => blank⟩, fun all => all.1 spared.1 data⟩

theorem found_iff_kept (sounds : ∀ seg ∈ segs, seg.Sound file) (apart : segs.Pairwise Segment.Apart) :
    (∀ seg ∈ segs, seg.Found file (segs.foldl (Segment.place file) c)) ↔ Kept file segs := by
  induction segs generalizing c with
  | nil => simp [Kept]
  | cons seg rest ih =>
    rw [List.forall_mem_cons] at sounds
    rw [List.pairwise_cons] at apart
    have head : seg.Found file (rest.foldl (Segment.place file) (seg.place file c)) ↔
        (seg.Wraps → seg.Blank file) ∧ ∀ w ∈ rest, w.Wraps → seg.prog = false → seg.Blank file := by
      by_cases wraps : seg.Wraps
      · have zeroed : seg.Zeroed (seg.place file c) := by
          intro i inside
          have within := sounds.1.within
          rw [wraps.1]
          exact place_wraps sounds.1 wraps (by omega)
        rw [found_iff_blank (zeroed_placeAll sounds.1 sounds.2 apart.1 zeroed)]
        exact ⟨fun blank => ⟨fun _ => blank, fun _ _ _ _ => blank⟩, fun all => all.1 wraps⟩
      · rw [found_placeAll_iff sounds.1 sounds.2 apart.1 (found_place sounds.1 wraps)]
        simp [wraps]
    rw [List.forall_mem_cons, List.foldl_cons, head, ih sounds.2 apart.2, Kept, Kept, List.forall_mem_cons,
      List.pairwise_cons]
    tauto

theorem fill_some {prog' : Bool} (known : (c prog' x).isSome) : (c.fill prog low high byte prog' x).isSome := by
  unfold Contents.fill
  split
  · rfl
  · exact known

theorem zero_some (known : (c prog x).isSome) : (c.zero low high prog x).isSome := by
  unfold Contents.zero
  split
  · exact fill_some known
  · exact known

theorem place_some (known : (c prog x).isSome) : (seg.place file c prog x).isSome := by
  unfold Segment.place
  split
  · exact zero_some (fill_some known)
  · exact fill_some known

theorem place_own_some {i : Nat} (inside : i < seg.fileSize) : (seg.place file c seg.prog (seg.vaddr + i)).isSome := by
  have loaded : (c.fill seg.prog seg.vaddr (seg.vaddr + seg.fileSize) (fromFile file seg.offset seg.vaddr) seg.prog
      (seg.vaddr + i)).isSome := by
    rw [fill_inside (by omega) (by omega)]
    rfl
  unfold Segment.place
  split
  · exact zero_some loaded
  · exact loaded

theorem placeAll_some (member : seg ∈ segs) {i : Nat} (inside : i < seg.fileSize) :
    (segs.foldl (Segment.place file) c seg.prog (seg.vaddr + i)).isSome := by
  have keeps : ∀ (rest : List Segment) {c : Contents}, (c seg.prog (seg.vaddr + i)).isSome →
      (rest.foldl (Segment.place file) c seg.prog (seg.vaddr + i)).isSome := by
    intro rest
    induction rest with
    | nil => exact id
    | cons w rest ih => exact fun known => ih (place_some known)
  induction segs generalizing c with
  | nil => cases member
  | cons w rest ih =>
    rcases List.mem_cons.mp member with rfl | later
    · exact keeps rest (place_own_some inside)
    · exact ih later

end Placing

def Segment.raise (brk : Nat) (seg : Segment) : Nat :=
  if seg.prog = false ∧ seg.memSize ≠ 0 then max brk (seg.vaddr + seg.memSize) else brk

def dataEnd (segs : List Segment) : Nat :=
  ((segs.filter fun seg => !seg.prog).map fun seg => seg.vaddr + seg.memSize).foldr max 0

def Covered (segs : List Segment) : Prop :=
  ∀ seg ∈ segs, seg.prog = false → seg.memSize = 0 →
    seg.vaddr = 0 ∨ ∃ other ∈ segs, other.prog = false ∧ other.memSize ≠ 0 ∧ seg.vaddr ≤ other.vaddr + other.memSize

instance (segs : List Segment) : Decidable (Covered segs) := List.decidableBAll _ segs

section Break

variable {segs : List Segment} {brk bound : Nat}

theorem raise_le_iff : segs.foldl Segment.raise brk ≤ bound ↔
    brk ≤ bound ∧ ∀ seg ∈ segs, seg.prog = false → seg.memSize ≠ 0 → seg.vaddr + seg.memSize ≤ bound := by
  induction segs generalizing brk with
  | nil => simp
  | cons seg rest ih =>
    rw [List.foldl_cons, ih, List.forall_mem_cons, Segment.raise]
    split
    · rename_i counts
      simp only [max_le_iff, counts, ne_eq, not_false_eq_true, forall_const]
      tauto
    · rename_i skipped
      have vacuous : seg.prog = false → seg.memSize ≠ 0 → seg.vaddr + seg.memSize ≤ bound :=
        fun data takes => absurd ⟨data, takes⟩ skipped
      tauto

theorem dataEnd_le_iff : dataEnd segs ≤ bound ↔ ∀ seg ∈ segs, seg.prog = false → seg.vaddr + seg.memSize ≤ bound := by
  induction segs with
  | nil => simp [dataEnd]
  | cons seg rest ih =>
    rw [List.forall_mem_cons, ← ih]
    cases space : seg.prog <;> simp [dataEnd, space]

theorem le_raise_iff : bound ≤ segs.foldl Segment.raise 0 ↔
    bound = 0 ∨ ∃ seg ∈ segs, seg.prog = false ∧ seg.memSize ≠ 0 ∧ bound ≤ seg.vaddr + seg.memSize := by
  cases bound with
  | zero => simp
  | succ bound =>
    rw [← not_lt, Nat.lt_succ_iff, raise_le_iff]
    simp only [Nat.zero_le, true_and, not_forall, Nat.add_eq_zero_iff, one_ne_zero, and_false, false_or, not_le]
    constructor
    · rintro ⟨seg, member, data, takes, above⟩
      exact ⟨seg, member, data, takes, above⟩
    · rintro ⟨seg, member, data, takes, above⟩
      exact ⟨seg, member, data, takes, above⟩

theorem raise_eq_dataEnd_iff : segs.foldl Segment.raise 0 = dataEnd segs ↔ Covered segs := by
  have upper : segs.foldl Segment.raise 0 ≤ dataEnd segs :=
    raise_le_iff.2 ⟨Nat.zero_le _, fun seg member data _ => dataEnd_le_iff.1 le_rfl seg member data⟩
  rw [eq_iff_le_not_lt, not_lt, and_iff_right upper, dataEnd_le_iff]
  refine forall₃_congr fun seg member data => ?_
  rw [le_raise_iff]
  constructor
  · intro covered empty
    simpa only [empty, Nat.add_zero] using covered
  · intro covered
    by_cases empty : seg.memSize = 0
    · simpa only [empty, Nat.add_zero] using covered empty
    · exact Or.inr ⟨seg, member, data, empty, le_rfl⟩

end Break

end PiOS.Proof.ElfImage
