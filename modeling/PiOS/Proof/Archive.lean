import PiOS.Kernel.Fs.Archive
import PiOS.Proof.DirNodes
import PiOS.Proof.TarRead

namespace PiOS.Proof.Archive
open Kernel Heap Transition DirTree

structure Header where
  name : List Byte
  size : Nat
  typeflag : Byte
  nonempty : name ≠ []
  zeros : 0 ∉ name
  fits : name.length ≤ 99
  encodable : size < 8 ^ 11

namespace Header

def path (m : Header) : CString := m.name.map byteChar

def type (m : Header) : InodeType := if m.typeflag = ascii '5' then .directory else .file

def dataSectors (m : Header) : Nat := (m.size + 511) / 512

end Header

def octalDigits : Nat → Nat → List Nat
  | 0, _ => []
  | n + 1, value => octalDigits n (value / 8) ++ [value % 8]

def digitByte (digit : Nat) : Byte := ascii '0' + BitVec.ofNat 8 digit

def onSector (card : Card) (sector offset count : Nat) : List Byte :=
  (List.range count).map fun i => card sector (offset + i)

structure HeaderAt (card : Card) (sector : Nat) (m : Header) : Prop where
  name : onSector card sector 0 m.name.length = m.name
  zero : card sector m.name.length = 0
  size : onSector card sector tarSizeOffset 11 = (octalDigits 11 m.size).map digitByte
  type : card sector tarTypeOffset = m.typeflag
  ustar : onSector card sector tarUstarOffset 5 = [ascii 'u', ascii 's', ascii 't', ascii 'a', ascii 'r']

def OnCard (card : Card) : Nat → List Header → Prop
  | sector, [] => ∀ i < 512, card sector i = 0 ∧ card (sector + 1) i = 0
  | sector, m :: members => HeaderAt card sector m ∧ OnCard card (sector + 1 + m.dataSectors) members

def sectorsOf (members : List Header) : Nat := (members.map fun m => 1 + m.dataSectors).sum

structure Image where
  card : Card
  members : List Header
  onCard : OnCard card 0 members
  small : ∀ m ∈ members, m.size ≤ 65024
  short : sectorsOf members + 2 < 32768

section Decode

variable {card : Card} {mem : SectorBuff} {sector : Word} {m : Header}

theorem foldl_octalDigits (n value : Nat) :
    (octalDigits n value).foldl (fun res digit => 8 * res + digit) 0 = value % 8 ^ n := by
  induction n generalizing value with
  | zero => simp [octalDigits, Nat.mod_one]
  | succ n ih =>
    rw [octalDigits, List.foldl_append, ih, List.foldl_cons, List.foldl_nil, Nat.pow_succ', Nat.mod_mul, Nat.add_comm]

theorem octalDigits_lt (n value : Nat) : ∀ digit ∈ octalDigits n value, digit < 8 := by
  induction n generalizing value with
  | zero => exact fun digit member => by cases member
  | succ n ih =>
    intro digit member
    rcases List.mem_append.mp member with earlier | last
    · exact ih _ digit earlier
    · rw [List.mem_singleton.mp last]
      exact Nat.mod_lt _ (by decide)

theorem digitByte_value {digit : Nat} (octal : digit < 8) :
    (digitByte digit).setWidth 16 - (ascii '0').setWidth 16 = BitVec.ofNat 16 digit := by
  revert digit
  decide

theorem convertOctal_digits {digits : List Nat} (octal : ∀ digit ∈ digits, digit < 8) :
    convertOctal (digits.map digitByte) = BitVec.ofNat 16 (digits.foldl (fun res digit => 8 * res + digit) 0) := by
  have loop : ∀ res : Nat, (digits.map digitByte).foldl
      (fun res c => res * 8 + (c.setWidth 16 - (ascii '0').setWidth 16)) (BitVec.ofNat 16 res) =
        BitVec.ofNat 16 (digits.foldl (fun res digit => 8 * res + digit) res) := by
    induction digits with
    | nil => exact fun _ => rfl
    | cons digit digits ih =>
      intro res
      obtain ⟨first, rest⟩ := List.forall_mem_cons.mp octal
      rw [List.map_cons, List.foldl_cons, List.foldl_cons, ← ih rest, digitByte_value first]
      congr 1
      rw [BitVec.ofNat_add, BitVec.ofNat_mul, BitVec.mul_comm]
      rfl
  exact loop 0

theorem convertOctal_size (value : Nat) (encodable : value < 8 ^ 11) :
    convertOctal ((octalDigits 11 value).map digitByte) = BitVec.ofNat 16 value := by
  rw [convertOctal_digits (octalDigits_lt 11 value), foldl_octalDigits, Nat.mod_eq_of_lt encodable]

theorem sectorsSkip_toNat (value : Nat) :
    (sectorsSkip (BitVec.ofNat 16 value)).toNat = (value % 65536 + 511) % 65536 / 512 + 1 := by
  have one : (1 : Word).toNat = 1 := rfl
  have sector : sectorSize.toNat = 512 := rfl
  rw [sectorsSkip, BitVec.toNat_add, BitVec.toNat_udiv, BitVec.toNat_sub, BitVec.toNat_add, one, sector,
    BitVec.toNat_ofNat]
  omega

theorem sectorsSkip_eq_iff {value : Nat} : (BitVec.ofNat 16 value).toNat = value ∧
    (sectorsSkip (BitVec.ofNat 16 value)).toNat = 1 + (value + 511) / 512 ↔ value ≤ 65024 := by
  rw [sectorsSkip_toNat, BitVec.toNat_ofNat]
  omega

theorem header_at {i : Nat} (inside : i < 500) :
    mem.sdReadAdapter card sector (BitVec.ofNat 16 i) = card sector.toNat i := by
  have whole : min sizeofTarT.toNat (512 - (0 : Word).toNat) = 500 := by decide
  have place : BitVec.ofNat 16 i = 0 + BitVec.ofNat 16 i := (BitVec.zero_add _).symm
  unfold SectorBuff.sdReadAdapter
  rw [TarRead.sdReadBlock_eq (by decide), whole, place, Memory.load_inside (by omega) inside]
  simp

theorem header_read {offset count : Nat} (inside : offset + count ≤ 500) :
    (mem.sdReadAdapter card sector).read offset count = onSector card sector.toNat offset count := by
  refine List.map_congr_left fun i member => ?_
  exact header_at (by have := List.mem_range.mp member; omega)

theorem read_add (buff : SectorBuff) (offset n k : Nat) :
    buff.read offset (n + k) = buff.read offset n ++ buff.read (offset + n) k := by
  simp only [SectorBuff.read, List.range_add, List.map_append, List.map_map, List.append_cancel_left_eq]
  refine List.map_congr_left fun i _ => ?_
  rw [Function.comp_apply, Nat.add_assoc]

theorem header_name (header : HeaderAt card sector.toNat m) : (mem.sdReadAdapter card sector).name = m.name := by
  have fits := m.fits
  have whole : 512 = m.name.length + (1 + (511 - m.name.length)) := by omega
  have clean : ∀ c ∈ m.name, c ≠ 0 := fun c member same => m.zeros (same ▸ member)
  have zero : (mem.sdReadAdapter card sector).read (0 + m.name.length) 1 = [0] := by
    rw [header_read (by omega), onSector, List.range_one, List.map_singleton, Nat.zero_add, Nat.add_zero, header.zero]
  rw [SectorBuff.name, whole, read_add, read_add, header_read (by omega), header.name, zero,
    List.takeWhile_append_of_pos (by simpa using clean)]
  simp

theorem HeaderAt.named (header : HeaderAt card sector.toNat m) : mem.sdReadAdapter card sector 0 ≠ 0 := by
  have first : mem.sdReadAdapter card sector 0 = card sector.toNat 0 := header_at (i := 0) (by decide)
  rw [first]
  intro zero
  cases name : m.name with
  | nil => exact m.nonempty name
  | cons c rest =>
    have read := header.name
    rw [name, List.length_cons, onSector, List.range_succ_eq_map, List.map_cons] at read
    refine m.zeros ?_
    rw [name, ← (List.cons.inj read).1, Nat.add_zero, zero]
    exact List.mem_cons_self

def enter (bytes : HeapBytes) (heap : HeapMemory) (tree : DirNode) (name : List Byte) :
    Except Stop (Nat × HeapMemory × DirNode) := do
  let (inode, heap) ← kmalloc heap (BitVec.ofNat 16 sizeofInode)
  let (_, heap) ← kmalloc heap (BitVec.ofNat 16 name.length)
  let (heap, tree) ← dirTreeAddPath bytes heap tree ⟨inode, name.map byteChar⟩
  .ok (inode, heap, tree)

def behind (card : Card) (s : TarScan) (m : Header) (out : Nat × HeapMemory × DirNode) : TarScan where
  emptySectors := s.emptySectors
  sector := s.sector + sectorsSkip (BitVec.ofNat 16 m.size)
  sectorBuff := s.sectorBuff.sdReadAdapter card s.sector
  heap := out.2.1
  tarDirTree := out.2.2
  passed := s.passed ++ [⟨out.1, s.sector, m.type, BitVec.ofNat 16 m.size, m.path⟩]

theorem tarTurn_member {s : TarScan} (bytes : HeapBytes) (header : HeaderAt card s.sector.toNat m) :
    tarTurn card bytes s = (enter bytes s.heap s.tarDirTree m.name).map (behind card s m) := by
  have ustar : (s.sectorBuff.sdReadAdapter card s.sector).isUstar = true := by
    rw [SectorBuff.isUstar, header_read (by decide), header.ustar]
    decide
  have size : convertOctal ((s.sectorBuff.sdReadAdapter card s.sector).read tarSizeOffset 11) =
      BitVec.ofNat 16 m.size := by
    rw [header_read (by decide), header.size, convertOctal_size _ m.encodable]
  have type : (s.sectorBuff.sdReadAdapter card s.sector).type = m.type := by
    rw [SectorBuff.type, header_at (by decide), header.type, Header.type]
  unfold tarTurn enter
  simp only [header.named, ustar, size, type, header_name header, Bool.not_true, Bool.false_eq_true, if_false]
  cases kmalloc s.heap (BitVec.ofNat 16 sizeofInode) with
  | error stop => rfl
  | ok inode =>
    simp only [bind, Except.bind]
    cases kmalloc inode.2 (BitVec.ofNat 16 m.name.length) with
    | error stop => rfl
    | ok name =>
      simp only
      cases added : dirTreeAddPath bytes name.2 s.tarDirTree ⟨inode.1, m.name.map byteChar⟩ <;> rfl

theorem tarTurn_empty {s : TarScan} (bytes : HeapBytes) (empty : card s.sector.toNat 0 = 0) :
    tarTurn card bytes s = .ok { s with
      emptySectors := s.emptySectors + 1
      sector := s.sector + 1
      sectorBuff := s.sectorBuff.sdReadAdapter card s.sector } := by
  have first : s.sectorBuff.sdReadAdapter card s.sector 0 = card s.sector.toNat 0 := header_at (i := 0) (by decide)
  simp only [tarTurn, first, empty, if_true]

end Decode

def Decoded (size : Nat) (s s' : TarScan) : Prop :=
  ∃ inode, s'.passed = s.passed ++ [inode] ∧ inode.size.toNat = size ∧
    s'.sector = s.sector + sectorsSkip inode.size ∧ (sectorsSkip inode.size).toNat = 1 + (size + 511) / 512

section Sizes

variable {card : Card} {m : Header} {sector : Nat}

theorem octalDigits_length (n value : Nat) : (octalDigits n value).length = n := by
  induction n generalizing value with
  | zero => rfl
  | succ n ih => rw [octalDigits, List.length_append, ih, List.length_singleton]

def headerByte (m : Header) (i : Nat) : Byte :=
  if i < 100 then
    m.name.getD i 0
  else if i < tarTypeOffset then
    ((octalDigits 11 m.size).map digitByte).getD (i - tarSizeOffset) 0
  else if i = tarTypeOffset then
    m.typeflag
  else
    [ascii 'u', ascii 's', ascii 't', ascii 'a', ascii 'r'].getD (i - tarUstarOffset) 0

theorem headerAt_bytes (same : card sector = headerByte m) : HeaderAt card sector m := by
  have fits := m.fits
  have digits := octalDigits_length 11 m.size
  constructor
  · refine List.ext_getElem (by simp [onSector]) fun i _ inside => ?_
    have small : i < 100 := by omega
    simp [onSector, same, headerByte, small, inside]
  · have small : m.name.length < 100 := by omega
    simp [same, headerByte, small]
  · refine List.ext_getElem (by simp [onSector, digits]) fun i inside _ => ?_
    have small : i < 11 := by simpa [onSector] using inside
    have low : ¬ tarSizeOffset + i < 100 := by unfold tarSizeOffset; omega
    have high : tarSizeOffset + i < tarTypeOffset := by unfold tarSizeOffset tarTypeOffset; omega
    simp [onSector, same, headerByte, low, high, digits, small]
  · rw [same]
    rfl
  · rw [onSector, same]
    rfl

theorem tarTurn_decoded {s : TarScan} {bytes : HeapBytes} (header : HeaderAt card s.sector.toNat m) (small : m.size ≤ 65024) :
    Ensures (tarTurn card bytes s) (Decoded m.size s) fun _ => True := by
  rw [tarTurn_member bytes header]
  cases enter bytes s.heap s.tarDirTree m.name with
  | error stop => trivial
  | ok out =>
    obtain ⟨size, skip⟩ := sectorsSkip_eq_iff.mpr small
    exact ⟨_, rfl, size, rfl, skip⟩

def fileHeader (size : Nat) (encodable : size < 8 ^ 11) : Header :=
  ⟨[ascii 'f'], size, ascii '0', by decide, by decide, by decide, encodable⟩

def atStart : TarScan := ⟨0, 0, fun _ => 0, initMalloc, emptyTree 0, []⟩

theorem enter_file : (enter (fun _ => 0) initMalloc (emptyTree 0) [ascii 'f']).isOk = true := by
  decide +kernel

theorem not_decoded {size : Nat} (encodable : size < 8 ^ 11) (large : 65024 < size) :
    ¬ Ensures (tarTurn (fun _ => headerByte (fileHeader size encodable)) (fun _ => 0) atStart) (Decoded size atStart)
      fun _ => True := by
  rw [tarTurn_member (m := fileHeader size encodable) _ (headerAt_bytes rfl)]
  intro ensured
  cases entered : enter (fun _ => 0) initMalloc (emptyTree 0) [ascii 'f'] with
  | error stop =>
    have ok := enter_file
    rw [entered] at ok
    cases ok
  | ok out =>
    obtain ⟨inode, passed, value, -, skip⟩ := ensured.returned (congrArg (Except.map _) entered)
    obtain rfl := List.singleton_inj.mp passed
    exact Nat.not_le.mpr large (sectorsSkip_eq_iff.mp ⟨value, skip⟩)

end Sizes

theorem member_decoded_iff (size : Fin (8 ^ 11)) :
    (∀ card bytes s, ∀ m : Header, m.size = size.val → HeaderAt card s.sector.toNat m →
      Ensures (tarTurn card bytes s) (Decoded size.val s) fun _ => True) ↔ size.val ≤ 65024 := by
  constructor
  · intro decoded
    by_contra large
    refine not_decoded size.isLt (Nat.not_le.mp large) ?_
    exact decoded _ _ atStart (fileHeader size.val size.isLt) rfl (headerAt_bytes rfl)
  · intro small card bytes s m same header
    rw [← same] at small ⊢
    exact tarTurn_decoded header small

theorem file_of_65536_not_decoded :
    HeaderAt (fun _ => headerByte (fileHeader 65536 (by decide))) 0 (fileHeader 65536 (by decide)) ∧
    ¬ Ensures (tarTurn (fun _ => headerByte (fileHeader 65536 (by decide))) (fun _ => 0) atStart) (Decoded 65536 atStart)
      fun _ => True :=
  ⟨headerAt_bytes rfl, not_decoded (by decide) (by decide)⟩

end PiOS.Proof.Archive
