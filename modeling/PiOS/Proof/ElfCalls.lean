import PiOS.Proof.ElfContents

namespace PiOS.Proof.ElfPages
open Kernel Transition ElfImage

structure PageCall where
  vaddr : Word
  off : Word
  endAddr : Word

def PageCall.count (c : PageCall) : Nat := c.endAddr.toNat + 1 - c.off.toNat

def PageCall.address (c : PageCall) : Nat := pageBase c.vaddr + c.off.toNat

def loadCalls (prog : Bool) (calls : List PageCall) (next : Load) : Load :=
  calls.foldr (fun c next => loadToPage c.off c.endAddr c.vaddr prog next) next

theorem loadCalls_append (prog : Bool) (calls calls' : List PageCall) (next : Load) :
    loadCalls prog (calls ++ calls') next = loadCalls prog calls (loadCalls prog calls' next) := List.foldr_append ..

def countOf (calls : List PageCall) : Nat := (calls.map PageCall.count).sum

section Places

variable {calls calls' : List PageCall} {c : PageCall}

theorem countOf_cons : countOf (c :: calls) = c.count + countOf calls := by simp [countOf]

def addresses (calls : List PageCall) : List Nat := calls.flatMap fun c => List.range' c.address c.count

theorem addresses_cons : addresses (c :: calls) = List.range' c.address c.count ++ addresses calls := rfl

theorem addresses_cons_eq {low count : Nat} (same : addresses (c :: calls) = List.range' low count) :
    (c.count = 0 ∨ c.address = low) ∧ c.count ≤ count ∧
      addresses calls = List.range' (low + c.count) (count - c.count) := by
  have length := congrArg List.length same
  rw [addresses_cons, List.length_append, List.length_range', List.length_range'] at length
  have whole : count = c.count + (count - c.count) := by omega
  rw [addresses_cons, whole, ← List.range'_append_1] at same
  obtain ⟨first, rest⟩ := List.append_inj same (by rw [List.length_range', List.length_range'])
  exact ⟨(List.range'_inj.mp first).2, by omega, rest⟩

theorem addresses_append : addresses (calls ++ calls') = addresses calls ++ addresses calls' := List.flatMap_append ..

theorem addresses_length : (addresses calls).length = countOf calls := by
  induction calls with
  | nil => rfl
  | cons c calls ih => rw [addresses_cons, countOf_cons, List.length_append, List.length_range', ih]

end Places

def fullPages : Nat → Word → List PageCall
  | 0, _ => []
  | count + 1, vaddr => ⟨vaddr, 0, pageBytes - 1⟩ :: fullPages count (vaddr + pageBytes)

def afterPages : Nat → Word → Word
  | 0, vaddr => vaddr
  | count + 1, vaddr => afterPages count (vaddr + pageBytes)

theorem loadFullPages_eq (prog : Bool) (next : Word → Load) (count : Nat) (vaddr : Word) :
    loadFullPages prog next count vaddr = loadCalls prog (fullPages count vaddr) (next (afterPages count vaddr)) := by
  induction count generalizing vaddr with
  | zero => rfl
  | succ count ih =>
    rw [loadFullPages, ih]
    rfl

section Segment

variable (memSize vaddr : Word)

def lastByte : Word := vaddr + memSize - 1

def pagesOf : Nat := ((memSize + pageBytes - 1) / pageBytes).toNat

def secondPage : Word := vaddr + wordMin (pageBytes - vaddr % pageBytes) (lastByte memSize vaddr + 1)

def firstCall : PageCall :=
  ⟨vaddr, vaddr % pageBytes, wordMin (pageBytes - 1) (lastByte memSize vaddr - vaddr)⟩

def laterCalls : List PageCall :=
  fullPages (pagesOf memSize - 2) (secondPage memSize vaddr) ++
    if pagesOf memSize > 1 then
      [⟨afterPages (pagesOf memSize - 2) (secondPage memSize vaddr), 0, lastByte memSize vaddr % pageBytes⟩]
    else
      []

def segmentCalls : List PageCall :=
  if memSize = 0 then [] else firstCall memSize vaddr :: laterCalls memSize vaddr

def afterSegment : Word :=
  if memSize = 0 then
    vaddr
  else if pagesOf memSize > 1 then
    afterPages (pagesOf memSize - 2) (secondPage memSize vaddr) + lastByte memSize vaddr % pageBytes + 1
  else
    afterPages (pagesOf memSize - 2) (secondPage memSize vaddr)

variable {memSize vaddr}

theorem mod_pageBytes_lt (w : Word) : (w % pageBytes).toNat < 0x1000 := by
  rw [start_toNat]
  exact Nat.mod_lt _ (by decide)

theorem firstCall_last : (firstCall memSize vaddr).endAddr.toNat < 0x1000 := by
  change (wordMin (pageBytes - 1) _).toNat < 0x1000
  rw [wordMin_toNat]
  exact Nat.lt_of_le_of_lt (Nat.min_le_left ..) (by decide)

theorem mem_fullPages {count : Nat} {c : PageCall} (member : c ∈ fullPages count vaddr) :
    c.off = 0 ∧ c.endAddr = pageBytes - 1 := by
  induction count generalizing vaddr with
  | zero => cases member
  | succ count ih =>
    rcases List.mem_cons.1 member with rfl | later
    · exact ⟨rfl, rfl⟩
    · exact ih later

theorem laterCalls_off {c : PageCall} (member : c ∈ laterCalls memSize vaddr) : c.off = 0 := by
  rcases List.mem_append.1 member with full | final
  · exact (mem_fullPages full).1
  · split at final
    · rw [List.mem_singleton.1 final]
    · cases final

theorem laterCalls_last : ∀ c ∈ laterCalls memSize vaddr, c.endAddr.toNat < 0x1000 := by
  intro c member
  rcases List.mem_append.1 member with full | final
  · rw [(mem_fullPages full).2]
    decide
  · split at final
    · rw [List.mem_singleton.1 final]
      exact mod_pageBytes_lt _
    · cases final

theorem address_zero (vaddr endAddr : Word) : (PageCall.mk vaddr 0 endAddr).address = pageBase vaddr := by
  have zero : (0 : Word).toNat = 0 := rfl
  rw [PageCall.address, zero, Nat.add_zero]

theorem count_zero (vaddr endAddr : Word) : (PageCall.mk vaddr 0 endAddr).count = endAddr.toNat + 1 := by
  have zero : (0 : Word).toNat = 0 := rfl
  rw [PageCall.count, zero, Nat.sub_zero]

theorem fullPages_addresses (count : Nat) {vaddr : Word} (aligned : vaddr.toNat % 0x1000 = 0)
    (fits : vaddr.toNat + count * 0x1000 < 0x10000) :
    addresses (fullPages count vaddr) = List.range' vaddr.toNat (count * 0x1000) ∧
      (afterPages count vaddr).toNat = vaddr.toNat + count * 0x1000 := by
  induction count generalizing vaddr with
  | zero => exact ⟨rfl, rfl⟩
  | succ count ih =>
    have page : (pageBytes - 1).toNat + 1 = 0x1000 := rfl
    have next_toNat : (vaddr + pageBytes).toNat = vaddr.toNat + 0x1000 := word_add_toNat (by
      change vaddr.toNat + 0x1000 < 0x10000
      omega)
    obtain ⟨rest, behind⟩ := ih (show (vaddr + pageBytes).toNat % 0x1000 = 0 by omega) (by omega)
    have total : (count + 1) * 0x1000 = 0x1000 + count * 0x1000 := by omega
    constructor
    · rw [fullPages, addresses_cons, rest, count_zero, address_zero, pageBase_of_aligned aligned, page, next_toNat,
        total, List.range'_append_1]
    · rw [afterPages, behind, next_toNat]
      omega

theorem firstCall_address : (firstCall memSize vaddr).address = vaddr.toNat := by
  change pageBase vaddr + (vaddr % pageBytes).toNat = _
  rw [start_toNat, pageBase, virtPagePart_toNat]
  omega

theorem firstCall_endAddr (positive : 0 < memSize.toNat) :
    (firstCall memSize vaddr).endAddr.toNat + 1 = min 0x1000 memSize.toNat := by
  have span : lastByte memSize vaddr - vaddr = memSize - 1 := by
    unfold lastByte
    bv_omega
  have less : (memSize - 1).toNat = memSize.toNat - 1 := word_sub_toNat positive
  have page : (pageBytes - 1).toNat = 0xfff := rfl
  change (wordMin (pageBytes - 1) (lastByte memSize vaddr - vaddr)).toNat + 1 = _
  rw [span, wordMin_toNat, less, page]
  omega

theorem firstCall_count (positive : 0 < memSize.toNat) :
    (firstCall memSize vaddr).count = min 0x1000 memSize.toNat - vaddr.toNat % 0x1000 := by
  rw [PageCall.count, firstCall_endAddr positive]
  exact congrArg _ start_toNat

theorem pagesOf_small (small : memSize.toNat ≤ 0xf000) : pagesOf memSize = (memSize.toNat + 0xfff) / 0x1000 := by
  have one : (1 : Word).toNat = 1 := rfl
  have page : pageBytes.toNat = 0x1000 := rfl
  have padded : (memSize + pageBytes - 1).toNat = memSize.toNat + 0xfff := by
    by_cases top : memSize.toNat = 0xf000
    · have value : memSize = 0xf000 := BitVec.eq_of_toNat_eq top
      rw [value]
      rfl
    · have rounded : (memSize + pageBytes).toNat = memSize.toNat + 0x1000 := word_add_toNat (by omega)
      rw [word_sub_toNat (by omega), rounded, one]
      omega
  rw [pagesOf, BitVec.toNat_udiv, padded, page]

theorem pagesOf_large (large : 0xf000 < memSize.toNat) : pagesOf memSize = 0 := by
  have bound := memSize.isLt
  have padded : (memSize + pageBytes - 1).toNat = memSize.toNat + 0xfff - 0x10000 := by
    have page : pageBytes.toNat = 0x1000 := rfl
    rw [BitVec.toNat_sub, BitVec.toNat_add, page]
    change (2 ^ 16 - 1 + (memSize.toNat + 0x1000) % 2 ^ 16) % 2 ^ 16 = _
    omega
  have page : pageBytes.toNat = 0x1000 := rfl
  rw [pagesOf, BitVec.toNat_udiv, padded, page]
  omega

theorem lastByte_toNat (positive : 0 < memSize.toNat) (fits : vaddr.toNat + memSize.toNat ≤ 0x10000) :
    (lastByte memSize vaddr).toNat = vaddr.toNat + memSize.toNat - 1 := by
  have one : (1 : Word).toNat = 1 := rfl
  rw [lastByte, BitVec.toNat_sub, BitVec.toNat_add, one]
  omega

theorem lastByte_mod (positive : 0 < memSize.toNat) (fits : vaddr.toNat + memSize.toNat ≤ 0x10000) :
    (lastByte memSize vaddr % pageBytes).toNat = (vaddr.toNat + memSize.toNat - 1) % 0x1000 := by
  rw [start_toNat, lastByte_toNat positive fits]

theorem secondPage_toNat (positive : 0x1000 < memSize.toNat) (fits : vaddr.toNat + memSize.toNat < 0x10000) :
    (secondPage memSize vaddr).toNat = vaddr.toNat - vaddr.toNat % 0x1000 + 0x1000 := by
  have behind : (lastByte memSize vaddr + 1).toNat = vaddr.toNat + memSize.toNat := by
    rw [lastByte, BitVec.sub_add_cancel]
    exact word_add_toNat fits
  rw [secondPage, word_add_toNat] <;> rw [wordMin_toNat, behind, room_toNat] <;> omega

theorem secondPage_end (fits : vaddr.toNat + memSize.toNat = 0x10000) : secondPage memSize vaddr = vaddr := by
  have behind : lastByte memSize vaddr + 1 = 0 := by
    rw [lastByte, BitVec.sub_add_cancel]
    apply BitVec.eq_of_toNat_eq
    rw [BitVec.toNat_add, fits]
    rfl
  have least : wordMin (pageBytes - vaddr % pageBytes) 0 = 0 := by
    apply BitVec.eq_of_toNat_eq
    rw [wordMin_toNat]
    exact Nat.min_zero _
  rw [secondPage, behind, least]
  exact BitVec.add_zero vaddr

structure SplitsWell (vaddr fileSize : Nat) : Prop where
  pages : fileSize ≤ 0xf000
  single : fileSize ≤ 0x1000 → vaddr % 0x1000 = 0
  several : 0x1000 < fileSize → vaddr + fileSize < 0x10000 ∧ vaddr % 0x1000 + (fileSize - 1) % 0x1000 < 0x1000

theorem laterCalls_none (few : pagesOf memSize ≤ 1) : laterCalls memSize vaddr = [] := by
  have none : pagesOf memSize - 2 = 0 := by omega
  rw [laterCalls, none, if_neg (by omega)]
  rfl

theorem laterCalls_again (several : 1 < pagesOf memSize) (fits : vaddr.toNat + memSize.toNat = 0x10000) :
    pageBase vaddr ∈ addresses (laterCalls memSize vaddr) := by
  rw [laterCalls, secondPage_end fits, if_pos several, addresses_append]
  cases count : pagesOf memSize - 2 with
  | zero =>
    refine List.mem_append_right _ ?_
    rw [addresses_cons, List.mem_append, List.mem_range'_1, address_zero, count_zero]
    exact Or.inl ⟨Nat.le_refl _, by rw [afterPages]; omega⟩
  | succ count =>
    refine List.mem_append_left _ ?_
    rw [fullPages, addresses_cons, List.mem_append, List.mem_range'_1, address_zero, count_zero]
    exact Or.inl ⟨Nat.le_refl _, by omega⟩

theorem laterCalls_addresses (several : 0x1000 < memSize.toNat) (small : memSize.toNat ≤ 0xf000)
    (fits : vaddr.toNat + memSize.toNat < 0x10000) :
    addresses (laterCalls memSize vaddr) = List.range' (vaddr.toNat - vaddr.toNat % 0x1000 + 0x1000)
      (((memSize.toNat + 0xfff) / 0x1000 - 2) * 0x1000 + ((vaddr.toNat + memSize.toNat - 1) % 0x1000 + 1)) := by
  have pages := pagesOf_small small
  have second := secondPage_toNat several fits
  obtain ⟨full, behind⟩ := fullPages_addresses (pagesOf memSize - 2)
    (show (secondPage memSize vaddr).toNat % 0x1000 = 0 by omega) (by omega)
  have last := @lastByte_mod memSize vaddr (by omega) (by omega)
  have start : pageBase (afterPages (pagesOf memSize - 2) (secondPage memSize vaddr)) =
      (secondPage memSize vaddr).toNat + (pagesOf memSize - 2) * 0x1000 := by
    rw [pageBase_of_aligned (by omega), behind]
  rw [laterCalls, if_pos (by omega), addresses_append, full, addresses_cons, address_zero, count_zero, start, last]
  change _ ++ (_ ++ []) = _
  rw [List.append_nil, List.range'_append_1, pages, second]

theorem addresses_iff (positive : 0 < memSize.toNat) (fits : vaddr.toNat + memSize.toNat ≤ 0x10000) :
    addresses (segmentCalls memSize vaddr) = List.range' vaddr.toNat memSize.toNat ↔
      SplitsWell vaddr.toNat memSize.toNat := by
  have nonempty := word_ne_zero positive
  rw [segmentCalls, if_neg nonempty, addresses_cons, firstCall_address, firstCall_count positive]
  by_cases large : 0xf000 < memSize.toNat
  · constructor
    · intro same
      have length := congrArg List.length same
      rw [laterCalls_none (by rw [pagesOf_large large]; omega)] at length
      change (_ ++ []).length = _ at length
      rw [List.append_nil, List.length_range', List.length_range'] at length
      omega
    · intro split
      have pages := split.pages
      omega
  · have pages := pagesOf_small (Nat.le_of_not_lt large)
    by_cases single : memSize.toNat ≤ 0x1000
    · rw [laterCalls_none (by omega)]
      change _ ++ [] = _ ↔ _
      rw [List.append_nil, List.range'_inj]
      constructor
      · rintro ⟨same, -⟩
        exact ⟨by omega, fun _ => by omega, fun _ => by omega⟩
      · intro split
        have aligned := split.single single
        exact ⟨by omega, Or.inr rfl⟩
    · have first : min 0x1000 memSize.toNat - vaddr.toNat % 0x1000 = 0x1000 - vaddr.toNat % 0x1000 := by omega
      rw [first]
      by_cases inside : vaddr.toNat + memSize.toNat < 0x10000
      · have join : vaddr.toNat + (0x1000 - vaddr.toNat % 0x1000) =
            vaddr.toNat - vaddr.toNat % 0x1000 + 0x1000 := by omega
        rw [laterCalls_addresses (by omega) (by omega) inside, ← join, List.range'_append_1, List.range'_inj]
        constructor
        · rintro ⟨same, -⟩
          exact ⟨by omega, fun _ => by omega, fun _ => ⟨inside, by omega⟩⟩
        · intro split
          have reach := (split.several (by omega)).2
          exact ⟨by omega, Or.inr rfl⟩
      · constructor
        · intro same
          have again : pageBase vaddr ∈ addresses (laterCalls memSize vaddr) := laterCalls_again (by omega) (by omega)
          have sorted : (List.range' vaddr.toNat memSize.toNat).Pairwise (· < ·) := List.pairwise_lt_range' ..
          rw [← same, List.pairwise_append] at sorted
          have before := sorted.2.2 vaddr.toNat (List.mem_range'_1.2 ⟨Nat.le_refl _, by omega⟩) _ again
          rw [pageBase, virtPagePart_toNat] at before
          omega
        · intro split
          have below := (split.several (by omega)).1
          omega

theorem whole_iff (positive : 0 < memSize.toNat)
    (fits : vaddr.toNat + memSize.toNat ≤ 0x10000) (split : SplitsWell vaddr.toNat memSize.toNat) :
    (∀ c ∈ segmentCalls memSize vaddr, c.count % 4 = 0) ↔ vaddr.toNat % 4 = 0 ∧ memSize.toNat % 4 = 0 := by
  have nonempty := word_ne_zero positive
  have pages := pagesOf_small split.pages
  have first : (firstCall memSize vaddr).count = _ := firstCall_count positive
  have last := lastByte_mod positive fits
  rw [segmentCalls, if_neg nonempty, List.forall_mem_cons, first]
  by_cases single : memSize.toNat ≤ 0x1000
  · have aligned := split.single single
    rw [laterCalls_none (by omega)]
    constructor
    · rintro ⟨whole, -⟩
      omega
    · rintro ⟨-, whole⟩
      exact ⟨by omega, fun c member => absurd member List.not_mem_nil⟩
  · have reach := (split.several (by omega)).2
    rw [laterCalls, if_pos (by omega), List.forall_mem_append, List.forall_mem_singleton, count_zero, last]
    constructor
    · rintro ⟨whole, -, whole'⟩
      omega
    · rintro ⟨whole, whole'⟩
      refine ⟨by omega, fun c member => ?_, by omega⟩
      obtain ⟨off, endAddr⟩ := mem_fullPages member
      rw [PageCall.count, off, endAddr]
      decide

theorem afterPages_eq (count : Nat) (vaddr : Word) :
    afterPages count vaddr = vaddr + BitVec.ofNat 16 count * pageBytes := by
  induction count generalizing vaddr with
  | zero => rw [BitVec.zero_mul, BitVec.add_zero, afterPages]
  | succ count ih =>
    have one : BitVec.ofNat 16 1 * pageBytes = pageBytes := by decide
    rw [afterPages, ih, BitVec.ofNat_add, BitVec.add_mul, one, BitVec.add_assoc, BitVec.add_comm pageBytes]

theorem afterSegment_one_page (positive : 0 < memSize.toNat) (small : memSize.toNat ≤ 0x1000)
    (fits : vaddr.toNat + memSize.toNat < 0x10000) : (afterSegment memSize vaddr).toNat =
      (vaddr.toNat + min (0x1000 - vaddr.toNat % 0x1000) (vaddr.toNat + memSize.toNat)) % 0x10000 := by
  have one : pagesOf memSize = 1 := by
    rw [pagesOf_small (by omega)]
    omega
  rw [afterSegment, if_neg (word_ne_zero positive), one, if_neg (by omega), afterPages, secondPage, lastByte, BitVec.sub_add_cancel,
    BitVec.toNat_add, wordMin_toNat, room_toNat, word_add_toNat fits]

theorem afterSegment_many_pages (large : 0x1000 < memSize.toNat) (fits : vaddr.toNat + memSize.toNat < 0x10000) :
    (afterSegment memSize vaddr).toNat ≤ vaddr.toNat + memSize.toNat ∧
      (vaddr.toNat % 0x1000 = 0 → memSize.toNat ≤ 0xf000 →
        (afterSegment memSize vaddr).toNat = vaddr.toNat + memSize.toNat) := by
  have second := secondPage_toNat large fits
  rw [afterSegment, if_neg (word_ne_zero (by omega)), afterPages_eq]
  by_cases more : 0xf000 < memSize.toNat
  · rw [pagesOf_large more, if_neg (by omega), BitVec.zero_mul, BitVec.add_zero, second]
    omega
  · have pages := pagesOf_small (Nat.le_of_not_lt more)
    have last := @lastByte_mod memSize vaddr (by omega) (by omega)
    have one : (1 : Word).toNat = 1 := rfl
    have page : pageBytes.toNat = 0x1000 := rfl
    rw [if_pos (by omega), BitVec.toNat_add, BitVec.toNat_add, BitVec.toNat_add, BitVec.toNat_mul, BitVec.toNat_ofNat,
      second, last, one, page, pages]
    omega

variable {prog : Bool} {next : Word → Load}

theorem loadFilePart_eq (some : memSize ≠ 0) : ∃ later : List Byte → Load, loadFilePart prog memSize vaddr next =
      loadCalls prog [firstCall memSize vaddr] (.fetch .phBuff phSize.toNat later) ∧
    ∀ ph, getU16 ph phOffVaddr = vaddr →
      later ph = loadCalls prog (laterCalls memSize vaddr) (next (afterSegment memSize vaddr)) := by
  refine ⟨_, if_neg some, ?_⟩
  intro ph same
  rw [same, loadFullPages_eq, laterCalls, loadCalls_append, afterSegment, if_neg some]
  by_cases several : pagesOf memSize > 1
  · rw [if_pos several, if_pos several]
    exact congrArg (loadCalls prog _) (if_pos several)
  · rw [if_neg several, if_neg several]
    exact congrArg (loadCalls prog _) (if_neg several)

end Segment

end PiOS.Proof.ElfPages
