import PiOS.Kernel.Fs.Tar
import PiOS.Memory.Window

namespace PiOS.Proof.TarRead
open Kernel Memory

variable {card : Card} {mem : UserMemory} {vbuff sector : Word} {n : Nat}

def onCard (card : Card) (sector : Word) (j : Nat) : Byte :=
  card (sector + BitVec.ofNat 16 (j / 512)).toNat (j % 512)

theorem onCard_add (j n : Nat) : onCard card (sector + BitVec.ofNat 16 n) j = onCard card sector (512 * n + j) := by
  have whole : (512 * n + j) / 512 = n + j / 512 := by omega
  have part : (512 * n + j) % 512 = j % 512 := by omega
  rw [onCard, onCard, whole, part, BitVec.ofNat_add, BitVec.add_assoc]

theorem load_next (value : Nat → Byte) (small : n < 0x10000) :
    Function.update (load mem vbuff n value) (vbuff + BitVec.ofNat 16 n) (value n) = load mem vbuff (n + 1) value := by
  have joined : load (load mem vbuff n value) (vbuff + BitVec.ofNat 16 n) 1 (fun _ => value n) =
      load mem vbuff (n + 1) value := by
    apply load_load (by omega)
    intro j inside
    rw [Nat.lt_one_iff.mp inside]
    rfl
  rw [← joined]
  funext x
  rw [Function.update_apply, load]
  refine if_congr ?_ rfl rfl
  rw [Nat.lt_one_iff]
  constructor
  · rintro rfl
    rw [BitVec.sub_self, BitVec.toNat_ofNat, Nat.zero_mod]
  · intro none
    exact sub_eq_zero.mp (BitVec.eq_of_toNat_eq none)

variable {buffOffset buffSize len : Word} {file : TarFile} {c : TarCursor}

section

variable (fits : buffSize.toNat + buffOffset.toNat < 0x10000)
include fits

theorem foldl_sdReceive (n : Nat) (small : n ≤ 512) :
    (List.range n).foldl (sdReceive card sector buffSize buffOffset) (mem, vbuff) =
      (load mem vbuff (min buffSize.toNat (n - buffOffset.toNat)) (fun j => card sector.toNat (buffOffset.toNat + j)),
        vbuff + BitVec.ofNat 16 (min buffSize.toNat (n - buffOffset.toNat))) := by
  induction n with
  | zero => simp
  | succ n ih =>
    have test : (buffOffset ≤ BitVec.ofNat 16 n ∧ BitVec.ofNat 16 n < buffSize + buffOffset) ↔
        buffOffset.toNat ≤ n ∧ n < buffSize.toNat + buffOffset.toNat := by
      rw [BitVec.le_def, BitVec.lt_def, word_ofNat_toNat (by omega), word_add_toNat fits]
    rw [List.range_succ, List.foldl_append, ih (by omega), List.foldl_cons, List.foldl_nil, sdReceive]
    split
    · rename_i inside
      rw [test] at inside
      obtain ⟨j, rfl⟩ := Nat.exists_eq_add_of_le inside.1
      have now : min buffSize.toNat (buffOffset.toNat + j - buffOffset.toNat) = j := by omega
      have next : min buffSize.toNat (buffOffset.toNat + j + 1 - buffOffset.toNat) = j + 1 := by omega
      dsimp only
      rw [now, next, load_next (fun j => card sector.toNat (buffOffset.toNat + j)) (by omega),
        BitVec.ofNat_add, BitVec.add_assoc]
      rfl
    · rename_i outside
      rw [test] at outside
      have same : min buffSize.toNat (n + 1 - buffOffset.toNat) = min buffSize.toNat (n - buffOffset.toNat) := by
        omega
      rw [same]

theorem sdReadBlock_eq :
    sdReadBlock card mem vbuff sector buffSize buffOffset = load mem vbuff (min buffSize.toNat (512 - buffOffset.toNat))
        fun j => card sector.toNat (buffOffset.toNat + j) := by
  rw [sdReadBlock, foldl_sdReceive fits 512 (Nat.le_refl _)]

theorem sdReadBlock_onCard :
    sdReadBlock card mem vbuff sector buffSize buffOffset = load mem vbuff (min buffSize.toNat (512 - buffOffset.toNat))
        fun j => onCard card sector (buffOffset.toNat + j) := by
  rw [sdReadBlock_eq fits]
  apply load_congr
  intro j inside
  have sameSector : (buffOffset.toNat + j) / 512 = 0 := by omega
  have place : (buffOffset.toNat + j) % 512 = buffOffset.toNat + j := by omega
  rw [onCard, sameSector, place, BitVec.add_zero]

end

def advance (card : Card) (c : TarCursor) (n : Nat) : TarCursor where
  mem := load c.mem c.vbuff (512 * n) (onCard card c.sector)
  vbuff := c.vbuff + BitVec.ofNat 16 (512 * n)
  sector := c.sector + BitVec.ofNat 16 n
  newLen := BitVec.ofNat 16 (c.newLen.toNat - 512 * n)

theorem advance_zero (c : TarCursor) : advance card c 0 = c := by
  simp [advance]

theorem advance_succ (long : 512 * (n + 1) ≤ c.newLen.toNat) :
    advance card ⟨c.sdReadAdapter card sectorSize 0, c.vbuff + sectorSize, c.sector + 1, c.newLen - sectorSize⟩ n =
      advance card c (n + 1) := by
  have bound := c.newLen.isLt
  have shorter : (c.newLen - sectorSize).toNat = c.newLen.toNat - 512 := word_sub_toNat (by
    show 512 ≤ c.newLen.toNat
    omega)
  have whole : c.sdReadAdapter card sectorSize 0 = load c.mem c.vbuff 512 (onCard card c.sector) := by
    rw [TarCursor.sdReadAdapter, sdReadBlock_onCard (by decide)]
    apply load_congr
    intro j _
    rw [show (0 : Word).toNat = 0 from rfl, Nat.zero_add]
  have joined : load (c.sdReadAdapter card sectorSize 0) (c.vbuff + sectorSize) (512 * n) (onCard card (c.sector + 1)) =
      load c.mem c.vbuff (512 * (n + 1)) (onCard card c.sector) := by
    have length : 512 * (n + 1) = 512 + 512 * n := by omega
    rw [whole, length]
    exact load_load (by omega) fun j _ => onCard_add j 1
  have place : c.vbuff + sectorSize + BitVec.ofNat 16 (512 * n) = c.vbuff + BitVec.ofNat 16 (512 * (n + 1)) := by
    rw [Nat.mul_succ, Nat.add_comm, BitVec.ofNat_add, BitVec.add_assoc]
    rfl
  have number : c.sector + 1 + BitVec.ofNat 16 n = c.sector + BitVec.ofNat 16 (n + 1) := by
    rw [Nat.add_comm n 1, BitVec.ofNat_add, BitVec.add_assoc]
    rfl
  have length : c.newLen.toNat - 512 - 512 * n = c.newLen.toNat - 512 * (n + 1) := by omega
  rw [advance, advance, joined, place, number, shorter, length]

-- the counter grows while its bound falls, so the loop meets in the middle
theorem tarReadSectors_eq (fuel : Nat) {i : Word} (enough : (c.newLen.toNat / 512 - i.toNat + 1) / 2 ≤ fuel) :
    tarReadSectors card fuel i c = advance card c ((c.newLen.toNat / 512 - i.toNat + 1) / 2) := by
  have bound := c.newLen.isLt
  have test : i < c.newLen / 512 ↔ i.toNat < c.newLen.toNat / 512 := by
    rw [BitVec.lt_def, BitVec.toNat_udiv]
    rfl
  induction fuel generalizing i c with
  | zero => rw [Nat.le_zero.mp enough, advance_zero, tarReadSectors]
  | succ fuel ih =>
    rw [tarReadSectors]
    split
    · rename_i more
      rw [test] at more
      have shorter : (c.newLen - sectorSize).toNat = c.newLen.toNat - 512 := word_sub_toNat (by
        show 512 ≤ c.newLen.toNat
        omega)
      have next : (i + 1).toNat = i.toNat + 1 := word_add_toNat (by
        show i.toNat + 1 < 0x10000
        omega)
      have left : (c.newLen.toNat / 512 - i.toNat + 1) / 2 =
          ((c.newLen - sectorSize).toNat / 512 - (i + 1).toNat + 1) / 2 + 1 := by
        omega
      rw [left, ← advance_succ (by omega)]
      apply ih
      · show ((c.newLen - sectorSize).toNat / 512 - (i + 1).toNat + 1) / 2 ≤ fuel
        omega
      · exact BitVec.isLt _
      · rw [BitVec.lt_def, BitVec.toNat_udiv]
        rfl
    · rename_i done
      rw [test] at done
      have none : (c.newLen.toNat / 512 - i.toNat + 1) / 2 = 0 := by omega
      rw [none, advance_zero]

def arriving (rest : Nat) : Nat :=
  let whole := 512 * ((rest / 512 + 1) / 2)
  whole + min (rest - whole) 512

theorem arriving_le (rest : Nat) : arriving rest ≤ rest := by
  dsimp only [arriving]
  omega

theorem arriving_eq_iff {rest : Nat} : arriving rest = rest ↔ rest ≤ 1024 ∨ rest = 1536 := by
  have split := Nat.div_add_mod rest 512
  have part := Nat.mod_lt rest (show 0 < 512 by decide)
  dsimp only [arriving]
  generalize rest / 512 = whole at *
  have half : 2 * ((whole + 1) / 2) = whole ∨ 2 * ((whole + 1) / 2) = whole + 1 := by omega
  omega

def clamped (file : TarFile) (len : Word) : Word :=
  if file.size < file.offset + len then file.size - file.offset else len

def firstPart (offset len : Nat) : Nat := min len (512 - offset % 512)

theorem tail_eq (c : TarCursor) : (if c.newLen = 0 then c.mem else c.sdReadAdapter card c.newLen 0) =
      load c.mem c.vbuff (min c.newLen.toNat 512) (onCard card c.sector) := by
  split
  · rename_i none
    rw [none]
    exact load_zero.symm
  · rw [TarCursor.sdReadAdapter, sdReadBlock_onCard (by exact c.newLen.isLt)]
    apply load_congr
    intro j _
    rw [show (0 : Word).toNat = 0 from rfl, Nat.zero_add]

theorem tarReadRest_eq (c : TarCursor) :
    tarReadRest card c = load c.mem c.vbuff (arriving c.newLen.toNat) (onCard card c.sector) := by
  have bound := c.newLen.isLt
  unfold tarReadRest
  split
  · rename_i none
    rw [none]
    exact load_zero.symm
  · dsimp only
    rw [tail_eq, tarReadSectors_eq 128 (by omega), show (0 : Word).toNat = 0 from rfl, Nat.sub_zero]
    dsimp only [advance]
    rw [word_ofNat_toNat (by omega)]
    apply load_load
    · omega
    · exact fun j _ => onCard_add j _

theorem tarReadBlocking_eq (inside : file.offset < file.size) :
    tarReadBlocking card mem file vbuff len = (clamped file len, load mem vbuff
        (firstPart file.offset.toNat (clamped file len).toNat +
          arriving ((clamped file len).toNat - firstPart file.offset.toNat (clamped file len).toNat))
        (fun j => onCard card (file.fid + 1) (file.offset.toNat + j)),
      { file with offset := file.offset + clamped file len }) := by
  have outside : ¬file.size ≤ file.offset := Nat.not_le.mpr inside
  have bound := file.offset.isLt
  have pos : (file.offset % sectorSize).toNat = file.offset.toNat % 512 := BitVec.toNat_umod
  have number : file.fid + file.offset / sectorSize + 1 =
      file.fid + 1 + BitVec.ofNat 16 (file.offset.toNat / 512) := by
    have quotient : file.offset / sectorSize = BitVec.ofNat 16 (file.offset.toNat / 512) := by
      apply BitVec.eq_of_toNat_eq
      rw [BitVec.toNat_udiv, word_ofNat_toNat (by omega)]
      rfl
    rw [quotient, BitVec.add_assoc, BitVec.add_comm _ 1, BitVec.add_assoc]
  have toEnd : (sectorSize - file.offset % sectorSize).toNat = 512 - file.offset.toNat % 512 := by
    rw [word_sub_toNat, pos]
    · rfl
    · rw [pos]
      show file.offset.toNat % 512 ≤ 512
      omega
  rw [tarReadBlocking, if_neg outside]
  change (clamped file len, tarReadRest card ⟨sdReadBlock card mem vbuff (file.fid + file.offset / sectorSize + 1)
    (wordMin (clamped file len) (sectorSize - file.offset % sectorSize)) (file.offset % sectorSize),
    vbuff + wordMin (clamped file len) (sectorSize - file.offset % sectorSize), _,
    clamped file len - wordMin (clamped file len) (sectorSize - file.offset % sectorSize)⟩,
    { file with offset := file.offset + clamped file len }) = _
  generalize clamped file len = len
  have size := len.isLt
  have first := wordMin_toNat len (sectorSize - file.offset % sectorSize)
  rw [toEnd, ← firstPart] at first
  generalize wordMin len (sectorSize - file.offset % sectorSize) = readlen at *
  have part : firstPart file.offset.toNat len.toNat = min len.toNat (512 - file.offset.toNat % 512) := rfl
  have rest : (len - readlen).toNat = len.toNat - firstPart file.offset.toNat len.toNat := by
    rw [word_sub_toNat (by omega), first]
  have shorter := arriving_le (len.toNat - firstPart file.offset.toNat len.toNat)
  have whole : min readlen.toNat (512 - (file.offset % sectorSize).toNat) = firstPart file.offset.toNat len.toNat := by
    omega
  have place : readlen = BitVec.ofNat 16 (firstPart file.offset.toNat len.toNat) := by
    rw [← first, BitVec.ofNat_toNat, BitVec.setWidth_eq]
  have aligned : (fun j => onCard card (file.fid + 1 + BitVec.ofNat 16 (file.offset.toNat / 512))
      (file.offset.toNat % 512 + j)) = fun j => onCard card (file.fid + 1) (file.offset.toNat + j) := by
    funext j
    have split : file.offset.toNat + j = 512 * (file.offset.toNat / 512) + (file.offset.toNat % 512 + j) := by omega
    rw [split, onCard_add]
  rw [tarReadRest_eq, sdReadBlock_onCard (by omega), rest, number]
  dsimp only
  rw [whole, pos, aligned, place]
  refine Prod.ext rfl (Prod.ext (load_load ?_ ?_) rfl)
  · omega
  · intro j inside
    have next : file.offset.toNat + (firstPart file.offset.toNat len.toNat + j) =
        512 * (file.offset.toNat / 512 + 1) + j := by
      omega
    rw [next, ← onCard_add, BitVec.ofNat_add, BitVec.add_assoc]
    rfl

theorem tarReadBlocking_past (past : file.size ≤ file.offset) :
    tarReadBlocking card mem file vbuff len = (0, mem, file) := by
  rw [tarReadBlocking, if_pos past]

def fileByte (card : Card) (file : TarFile) (j : Nat) : Byte := card (file.fid.toNat + 1 + j / 512) (j % 512)

def toRead (file : TarFile) (len : Word) : Nat := min len.toNat (file.size.toNat - file.offset.toNat)

structure ReadsFile (card : Card) (mem : UserMemory) (file : TarFile) (vbuff len : Word) : Prop where
  returned : (tarReadBlocking card mem file vbuff len).1.toInt = toRead file len
  buffer : ∀ j < toRead file len,
    (tarReadBlocking card mem file vbuff len).2.1 (vbuff + BitVec.ofNat 16 j) =
      fileByte card file (file.offset.toNat + j)
  beyond : ∀ x, toRead file len ≤ (x - vbuff).toNat →
    (tarReadBlocking card mem file vbuff len).2.1 x = mem x
  offset : (tarReadBlocking card mem file vbuff len).2.2.offset.toNat = file.offset.toNat + toRead file len

/-- Nothing to read, or a read whose end is counted in 16 bits, whose sectors have 16-bit numbers, and
which is over with at most two sectors, or exactly three, behind the one it begins in. -/
def Readable (file : TarFile) (len : Word) : Prop :=
  file.size ≤ file.offset ∨
    file.offset.toNat + len.toNat < 0x10000 ∧
      (toRead file len = 0 ∨ file.fid.toNat + 1 + (file.offset.toNat + toRead file len - 1) / 512 < 0x10000) ∧
      (toRead file len - firstPart file.offset.toNat (toRead file len) ≤ 1024 ∨
        toRead file len - firstPart file.offset.toNat (toRead file len) = 1536)

theorem toRead_eq_zero (len : Word) (past : file.size ≤ file.offset) : toRead file len = 0 := by
  have le : file.size.toNat ≤ file.offset.toNat := past
  unfold toRead
  omega

theorem clamped_toNat (inside : file.offset < file.size)
    (fits : file.offset.toNat + len.toNat < 0x10000) : (clamped file len).toNat = toRead file len := by
  have lt : file.offset.toNat < file.size.toNat := inside
  have sum := word_add_toNat fits
  unfold clamped toRead
  split
  · rename_i longer
    have more : file.size.toNat < (file.offset + len).toNat := longer
    rw [word_sub_toNat (Nat.le_of_lt lt)]
    omega
  · rename_i shorter
    have less : ¬file.size.toNat < (file.offset + len).toNat := shorter
    omega

theorem clamped_of_wrap (inside : file.offset < file.size)
    (wraps : 0x10000 ≤ file.offset.toNat + len.toNat) : clamped file len = len := by
  have lt : file.offset.toNat < file.size.toNat := inside
  have bound := len.isLt
  have bound' := file.offset.isLt
  have sum : (file.offset + len).toNat = file.offset.toNat + len.toNat - 0x10000 := by
    rw [BitVec.toNat_add]
    omega
  have less : ¬file.size < file.offset + len := by
    show ¬file.size.toNat < (file.offset + len).toNat
    omega
  rw [clamped, if_neg less]

theorem onCard_eq_fileByte {j : Nat} (small : file.fid.toNat + 1 + j / 512 < 0x10000) :
    onCard card (file.fid + 1) j = fileByte card file j := by
  rw [onCard, fileByte, BitVec.toNat_add, BitVec.toNat_add, BitVec.toNat_ofNat]
  congr 1
  show ((file.fid.toNat + 1) % 0x10000 + j / 512 % 0x10000) % 0x10000 = _
  omega

def obtained (file : TarFile) (len : Word) : Nat :=
  firstPart file.offset.toNat (toRead file len) +
    arriving (toRead file len - firstPart file.offset.toNat (toRead file len))

theorem obtained_le (file : TarFile) (len : Word) : obtained file len ≤ toRead file len := by
  have shorter := arriving_le (toRead file len - firstPart file.offset.toNat (toRead file len))
  have first : firstPart file.offset.toNat (toRead file len) ≤ toRead file len := Nat.min_le_left _ _
  unfold obtained
  omega

theorem obtained_eq_iff : obtained file len = toRead file len ↔
      toRead file len - firstPart file.offset.toNat (toRead file len) ≤ 1024 ∨
        toRead file len - firstPart file.offset.toNat (toRead file len) = 1536 := by
  have first : firstPart file.offset.toNat (toRead file len) ≤ toRead file len := Nat.min_le_left _ _
  rw [← arriving_eq_iff, obtained]
  omega

theorem tarReadBlocking_mem (inside : file.offset < file.size) (fits : file.offset.toNat + len.toNat < 0x10000) :
    (tarReadBlocking card mem file vbuff len).2.1 = load mem vbuff (obtained file len)
      fun j => onCard card (file.fid + 1) (file.offset.toNat + j) := by
  rw [tarReadBlocking_eq inside]
  dsimp only
  rw [clamped_toNat inside fits, obtained]

theorem readsFile_past (past : file.size ≤ file.offset) : ReadsFile card mem file vbuff len := by
  have none := toRead_eq_zero len past
  constructor <;> rw [tarReadBlocking_past past, none]
  · rfl
  · intro j inside
    exact absurd inside (Nat.not_lt_zero j)
  · intro x _
    rfl
  · rfl

theorem readsFile_inside (inside : file.offset < file.size)
    (fits : file.offset.toNat + len.toNat < 0x10000) (whole : obtained file len = toRead file len)
    (small : toRead file len < 0x8000)
    (numbered : ∀ j < toRead file len, file.fid.toNat + 1 + (file.offset.toNat + j) / 512 < 0x10000) :
    ReadsFile card mem file vbuff len where
  returned := by
    rw [tarReadBlocking_eq inside]
    dsimp only
    rw [BitVec.toInt_eq_toNat_of_lt, clamped_toNat inside fits]
    rw [clamped_toNat inside fits]
    omega
  buffer := by
    intro j inRead
    rw [tarReadBlocking_mem inside fits, whole, load_inside (by omega) inRead, onCard_eq_fileByte (numbered j inRead)]
  beyond := by
    intro x outside
    rw [tarReadBlocking_mem inside fits, whole, load, if_neg (Nat.not_lt.mpr outside)]
  offset := by
    have length := clamped_toNat inside fits
    have shorter : toRead file len ≤ len.toNat := Nat.min_le_left _ _
    rw [tarReadBlocking_eq inside]
    dsimp only
    rw [word_add_toNat (by omega), length]

theorem readsFile_of_readable (readable : Readable file len) : ReadsFile card mem file vbuff len := by
  by_cases past : file.size ≤ file.offset
  · exact readsFile_past past
  · obtain ⟨fits, numbered, ends⟩ := readable.resolve_left past
    apply readsFile_inside (BitVec.not_le.mp past) fits (obtained_eq_iff.mpr ends)
    · unfold firstPart at ends
      omega
    · intro j inRead
      have last : file.fid.toNat + 1 + (file.offset.toNat + toRead file len - 1) / 512 < 0x10000 :=
        numbered.resolve_left (by omega)
      have earlier : (file.offset.toNat + j) / 512 ≤ (file.offset.toNat + toRead file len - 1) / 512 :=
        Nat.div_le_div_right (by omega)
      omega

theorem fits_of_readsFile (inside : file.offset < file.size)
    (reads : ReadsFile card mem file vbuff len) : file.offset.toNat + len.toNat < 0x10000 := by
  by_contra wraps
  have returned := reads.returned
  have size := file.size.isLt
  have longer : toRead file len < len.toNat := by
    have lt : file.offset.toNat < file.size.toNat := inside
    unfold toRead
    omega
  rw [tarReadBlocking_eq inside] at returned
  dsimp only at returned
  rw [clamped_of_wrap inside (by omega), BitVec.toInt_eq_toNat_cond] at returned
  have bound := len.isLt
  split at returned <;> omega

theorem readable_of_readsFile (reads : ∀ card mem, ReadsFile card mem file vbuff len) : Readable file len := by
  by_cases past : file.size ≤ file.offset
  · exact .inl past
  have inside : file.offset < file.size := BitVec.not_le.mp past
  have fits := fits_of_readsFile inside (reads (fun _ _ => 0) fun _ => 0)
  have size : toRead file len < 0x10000 := Nat.lt_of_le_of_lt (Nat.min_le_left _ _) len.isLt
  have less := obtained_le file len
  -- over a buffer of ones and a card of zeros, a byte that does not arrive shows
  have whole : obtained file len = toRead file len := by
    by_contra short
    have byte := (reads (fun _ _ => 0) fun _ => 1).buffer (obtained file len) (by omega)
    rw [tarReadBlocking_mem inside fits, load_outside (by omega) (Nat.le_refl _), fileByte] at byte
    exact absurd byte (by decide)
  refine .inr ⟨fits, ?_, obtained_eq_iff.mp whole⟩
  -- and so does a sector whose number has more than 16 bits, on a card of ones from there on
  by_contra far
  rw [not_or, Nat.not_lt] at far
  have byte := (reads (fun s _ => if s < 0x10000 then 0 else 1) fun _ => 0).buffer (toRead file len - 1) (by omega)
  rw [tarReadBlocking_mem inside fits, load_inside (by omega) (by omega), onCard, if_pos (BitVec.isLt _), fileByte,
    if_neg (by rw [← Nat.add_sub_assoc (by omega)]; omega)] at byte
  exact absurd byte (by decide)

theorem tarReadBlocking_reads_iff (file : TarFile) (vbuff len : Word) :
    (∀ card mem, ReadsFile card mem file vbuff len) ↔ Readable file len :=
  ⟨readable_of_readsFile, fun readable _ _ => readsFile_of_readable readable⟩

def fiveSectors : TarFile := ⟨7, 2560, 0⟩

theorem fifth_sector_missing :
    (tarReadBlocking (fun _ _ => 0) (fun _ => 1) fiveSectors 0x2000 2560).1 = 2560 ∧
      (tarReadBlocking (fun _ _ => 0) (fun _ => 1) fiveSectors 0x2000 2560).2.1 (0x2000 + 2048) = 1 ∧
      ¬ReadsFile (fun _ _ => 0) (fun _ => 1) fiveSectors 0x2000 2560 := by
  have kept : (tarReadBlocking (fun _ _ => 0) (fun _ => 1) fiveSectors 0x2000 2560).2.1 (0x2000 + 2048) = 1 := by
    rw [tarReadBlocking_mem (by decide) (by decide)]
    decide
  refine ⟨by rw [tarReadBlocking_eq (by decide)]; decide, kept, ?_⟩
  intro reads
  have byte := reads.buffer 2048 (by decide)
  exact absurd (kept.symm.trans byte) (by decide)

end PiOS.Proof.TarRead
