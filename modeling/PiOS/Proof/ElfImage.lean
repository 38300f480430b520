import PiOS.Proof.ElfCalls
import PiOS.Proof.Loads

namespace PiOS.Proof.ElfImage
open Kernel Transition Loads ElfPages

def pageOf (x : Nat) : Fin 16 := ⟨x / 0x1000 % 16, by omega⟩

def contentsOf (image : Image) : Contents := fun prog x =>
  image.bytes prog (pageOf x) (BitVec.ofNat 16 (x % 0x1000))

def Holds (image : Image) (c : Contents) : Prop := ∀ prog x, x < 0x10000 → contentsOf image prog x = c prog x

variable {image : Image} {c : Contents}

theorem holds_map (holds : Holds image c) (prog : Bool) (virtPage : Fin 16) :
    Holds (image.map prog virtPage) c := holds

theorem mapped_map (image : Image) (prog : Bool) (virtPage : Fin 16) :
    (image.map prog virtPage).mapped prog virtPage = true := by
  simp [Image.map]

theorem holds_write (holds : Holds image c) {prog : Bool} {vaddr : Word}
    (mapped : image.mapped prog (virtPagePart vaddr) = true) (start : Word) (data : List Byte) :
    Holds (image.write prog (virtPagePart vaddr) start data)
      (c.fill prog (pageBase vaddr + start.toNat) (pageBase vaddr + min 0x1000 (start.toNat + data.length))
        fun x => data.getD (x - (pageBase vaddr + start.toNat)) 0) := by
  unfold pageBase
  generalize virtPagePart vaddr = virtPage at mapped ⊢
  intro prog' x small
  have old := holds prog' x small
  have local_toNat : (BitVec.ofNat 16 (x % 0x1000)).toNat = x % 0x1000 := word_ofNat_toNat (by omega)
  have page : pageOf x = virtPage ↔ x / 0x1000 = virtPage := by
    rw [Fin.ext_iff]
    simp only [pageOf]
    omega
  simp only [contentsOf, Image.write, mapped, true_and, local_toNat, page, Contents.fill] at old ⊢
  by_cases here : prog' = prog ∧ x / 0x1000 = virtPage ∧ start.toNat ≤ x % 0x1000
  · rw [if_pos here]
    rcases Nat.lt_or_ge (x % 0x1000 - start.toNat) data.length with inside | outside
    · have range : virtPage * 0x1000 + start.toNat ≤ x ∧
          x < virtPage * 0x1000 + min 0x1000 (start.toNat + data.length) := by omega
      have place : x - (virtPage * 0x1000 + start.toNat) = x % 0x1000 - start.toNat := by omega
      rw [if_pos ⟨here.1, range⟩, place, List.getD_eq_getElem?_getD, List.getElem?_eq_getElem inside]
      rfl
    · have range : ¬(prog' = prog ∧ virtPage * 0x1000 + start.toNat ≤ x ∧
          x < virtPage * 0x1000 + min 0x1000 (start.toNat + data.length)) := by
        rintro ⟨-, inside⟩
        omega
      rw [if_neg range, List.getElem?_eq_none outside, Option.none_or]
      exact old
  · have range : ¬(prog' = prog ∧ virtPage * 0x1000 + start.toNat ≤ x ∧
        x < virtPage * 0x1000 + min 0x1000 (start.toNat + data.length)) := by
      rintro ⟨same, inside⟩
      exact here ⟨same, by omega, by omega⟩
    rw [if_neg here, if_neg range]
    exact old

section Buffers

variable {buffers : Buffers} {b b' : Buffer} {data : List Byte} {count : Nat}

theorem first_fill (length : data.length = count) : (buffers.fill b data).first b count = data := by
  subst length
  apply List.ext_getElem
  · simp [Buffers.first]
  · intro n _ inside
    simp [Buffers.first, Buffers.fill, List.getD_eq_getElem?_getD, List.getElem?_eq_getElem inside]

theorem first_fill_of_ne (other : b' ≠ b) : (buffers.fill b data).first b' count = buffers.first b' count := by
  simp [Buffers.first, Buffers.fill, Function.update_of_ne other]

end Buffers

def headerRead : LoadOp → Alone → List Word
  | .vfsReadBlocking .phBuff _, a => [a.offset]
  | _, _ => []

def ready : LoadOp → Alone × List Word → Prop
  | .schedInitUserThread, a => a.1.image = none
  | .setPc _, a | .physPageToLoad _ _, a | .store _ _ _ _, a | .setLoadBrk _, a => a.1.image.isSome
  | _, _ => True

abbrev Yields (post : LoadEnd → Alone × List Word → Prop) (script : Load) (a : Alone × List Word) : Prop :=
  script.Meets (logging headerRead handle) ready post a

structure Reading (file ph : List Byte) (offset : Nat) (c : Contents) (log : List Word) (a : Alone × List Word) :
    Prop where
  file_eq : a.1.file = file
  offset_eq : a.1.offset.toNat = offset
  header : a.1.buffers.first .buff 56 = file.take 56
  ph_eq : a.1.buffers.first .phBuff 32 = ph
  image : ∃ image, a.1.image = some image ∧ Holds image c
  log_eq : a.2 = log

def PageMapped (prog : Bool) (vaddr : Word) (a : Alone × List Word) : Prop :=
  ∀ image, a.1.image = some image → image.mapped prog (virtPagePart vaddr) = true

section Loader

variable {post : LoadEnd → Alone × List Word → Prop} {file ph : List Byte} {offset : Nat} {c : Contents}
  {log : List Word} {a : Alone × List Word} {next : Load}

theorem yields_assert {condition : Bool} {text : String} (holds : condition = true) (rest : Yields post next a) :
    Yields post (.assert condition text next) a := by
  rw [Load.assert, if_pos holds]
  exact rest

variable {size start vaddr : Word} {prog : Bool} {endAddr : Word} {b : Buffer} {brk : Word}

theorem readFile_length (inside : start.toNat + size.toNat ≤ file.length) :
    (readFile file start size).length = size.toNat := by
  simp only [readFile, List.length_take, List.length_drop]
  omega

theorem yields_vfsReadBlocking {next : Word → Load} (inside : a.1.offset.toNat + size.toNat ≤ a.1.file.length)
    (rest : Yields post (next size) ({ a.1 with
          offset := a.1.offset + size, buffers := a.1.buffers.fill b (readFile a.1.file a.1.offset size) },
        a.2 ++ headerRead (.vfsReadBlocking b size) a.1)) : Yields post (.vfsReadBlocking b size next) a := by
  have length : BitVec.ofNat 16 (readFile a.1.file a.1.offset size).length = size := by
    rw [readFile_length inside, BitVec.ofNat_toNat, BitVec.setWidth_eq]
  refine ⟨trivial, ?_⟩
  simp only [logging, handle, length]
  exact rest

theorem getD_readFile {n : Nat} (inside : n < size.toNat) :
    (readFile file start size).getD n 0 = file.getD (start.toNat + n) 0 := by
  simp only [readFile, List.getD_eq_getElem?_getD, List.getElem?_take, List.getElem?_drop, if_pos inside]

theorem yields_chunk {next : Word → Load} (reading : Reading file ph offset c log a)
    (mapped : PageMapped prog vaddr a) (short : file.length < 0x8000)
    (inside : offset + size.toNat ≤ file.length) (positive : size ≠ 0)
    (fits : start.toNat + size.toNat ≤ 0x1000) (whole : prog = true → size.toNat % 4 = 0)
    (rest : ∀ a', Reading file ph (offset + size.toNat)
        (c.fill prog (pageBase vaddr + start.toNat) (pageBase vaddr + (start.toNat + size.toNat))
          (fromFile file offset (pageBase vaddr + start.toNat))) log a' →
      PageMapped prog vaddr a' → Yields post (next size) a') :
    Yields post (.vfsReadBlocking .loadBuff size fun read =>
      .assert (read ≠ 0) "read" <| loadIntoUserspace vaddr prog read start (next read)) a := by
  obtain ⟨image, at_image, holds⟩ := reading.image
  have range : a.1.offset.toNat + size.toNat ≤ a.1.file.length := by
    rw [reading.offset_eq, reading.file_eq]
    exact inside
  have length := readFile_length range
  have page := mapped image at_image
  have filled := holds_write holds page start (readFile a.1.file a.1.offset size)
  rw [length, Nat.min_eq_right fits] at filled
  refine yields_vfsReadBlocking range (yields_assert (by simpa using positive) ?_)
  refine yields_assert ?_ (yields_assert ?_ ⟨trivial, ?_, rest _ ⟨?_, ?_, ?_, ?_, ?_, ?_⟩ ?_⟩)
  · have bound : (start + size).toNat ≤ 0x1000 := by rwa [word_add_toNat (by omega)]
    simpa [BitVec.le_def, pageBytes] using bound
  · cases prog with
    | false => rfl
    | true =>
      have bits : (size &&& 3).toNat = 0 := by
        rw [BitVec.toNat_and]
        exact (Nat.and_two_pow_sub_one_eq_mod size.toNat 2).trans (whole rfl)
      simpa using BitVec.eq_of_toNat_eq bits
  · simp [ready, logging, handle, at_image]
  · exact reading.file_eq
  · show (a.1.offset + size).toNat = _
    rw [word_add_toNat (by rw [reading.offset_eq]; omega), reading.offset_eq]
  · exact (first_fill_of_ne (by decide)).trans reading.header
  · exact (first_fill_of_ne (by decide)).trans reading.ph_eq
  · refine ⟨image.write prog (virtPagePart vaddr) start (readFile a.1.file a.1.offset size), ?_, ?_⟩
    · simp [logging, handle, at_image, first_fill length]
    · have same : ∀ x, pageBase vaddr + start.toNat ≤ x → x < pageBase vaddr + (start.toNat + size.toNat) →
          (readFile a.1.file a.1.offset size).getD (x - (pageBase vaddr + start.toNat)) 0 =
            fromFile file offset (pageBase vaddr + start.toNat) x := by
        intro x low high
        rw [getD_readFile (by omega), reading.offset_eq, reading.file_eq, fromFile]
      rw [← fill_congr same]
      exact filled
  · simp [logging, headerRead, reading.log_eq]
  · intro image' at_image'
    simp only [logging, handle, at_image, Option.map_some, Option.some.injEq] at at_image'
    subst at_image'
    exact page

theorem yields_loadToPageLoop (short : file.length < 0x8000) (last : endAddr.toNat < 0x1000) :
    ∀ (fuel : Nat) {mAddr : Word} {offset : Nat} {c : Contents} {a : Alone × List Word},
      Reading file ph offset c log a → PageMapped prog vaddr a → mAddr.toNat ≤ endAddr.toNat + 1 →
      endAddr.toNat + 1 - mAddr.toNat ≤ fuel → offset + (endAddr.toNat + 1 - mAddr.toNat) ≤ file.length →
      (prog = true → (endAddr.toNat + 1 - mAddr.toNat) % 4 = 0) →
      (∀ a', Reading file ph (offset + (endAddr.toNat + 1 - mAddr.toNat))
          (c.fill prog (pageBase vaddr + mAddr.toNat) (pageBase vaddr + (endAddr.toNat + 1))
            (fromFile file offset (pageBase vaddr + mAddr.toNat))) log a' → Yields post next a') →
      Yields post (loadToPageLoop endAddr vaddr prog next fuel mAddr) a := by
  intro fuel
  induction fuel with
  | zero =>
    intro mAddr offset c a reading _ low enough _ _ rest
    have finished : endAddr.toNat + 1 - mAddr.toNat = 0 := by omega
    have after := rest a
    rw [finished, fill_empty (by omega)] at after
    exact after reading
  | succ fuel ih =>
    intro mAddr offset c a reading mapped low enough inside whole rest
    unfold loadToPageLoop
    by_cases more : mAddr ≤ endAddr
    · have order : mAddr.toNat ≤ endAddr.toNat := more
      have size := readSize_toNat more last
      generalize wordMin loadBuffSize (endAddr - mAddr + 1) = count at size
      have next_toNat : (mAddr + count).toNat = mAddr.toNat + count.toNat := word_add_toNat (by omega)
      rw [if_pos more]
      refine yields_chunk reading mapped short (by omega) ?_ (by omega) ?_ ?_
      · rintro rfl
        simp at size
        omega
      · intro prog_eq
        have multiple := whole prog_eq
        omega
      · intro a' reading' mapped'
        refine ih reading' mapped' (by omega) (by omega) (by omega) ?_ ?_
        · intro prog_eq
          have multiple := whole prog_eq
          omega
        · intro a'' reading''
          refine rest a'' ?_
          rw [next_toNat, fill_fill (by omega) (by omega)
            fun x after => fromFile_shift (by omega) (by omega) after] at reading''
          convert reading'' using 1
          omega
    · have finished : endAddr.toNat + 1 - mAddr.toNat = 0 := by
        have order : ¬mAddr.toNat ≤ endAddr.toNat := more
        omega
      rw [if_neg more]
      have after := rest a
      rw [finished, fill_empty (by omega)] at after
      exact after reading

theorem yields_fetch {count : Nat} {data : List Byte} {next : List Byte → Load}
    (fetched : a.1.buffers.first b count = data) (rest : Yields post (next data) a) :
    Yields post (.fetch b count next) a := by
  subst fetched
  refine ⟨trivial, ?_⟩
  simpa [logging, handle, headerRead] using rest

theorem yields_physPageToLoad (reading : Reading file ph offset c log a)
    (rest : ∀ a', Reading file ph offset c log a' → PageMapped prog vaddr a' → Yields post next a') :
    Yields post (.physPageToLoad vaddr prog next) a := by
  obtain ⟨image, at_image, holds⟩ := reading.image
  refine ⟨by simp [ready, at_image], rest _ ⟨reading.file_eq, reading.offset_eq, reading.header, reading.ph_eq, ?_, ?_⟩ ?_⟩
  · exact ⟨_, by simp [logging, handle, at_image], holds_map holds prog (virtPagePart vaddr)⟩
  · simp [logging, headerRead, reading.log_eq]
  · intro image' at_image'
    simp only [logging, handle, at_image, Option.map_some, Option.some.injEq] at at_image'
    subst at_image'
    exact mapped_map image prog (virtPagePart vaddr)

section

variable (short : file.length < 0x8000) (reading : Reading file ph offset c log a)
include short reading

theorem yields_loadToPage (last : endAddr.toNat < 0x1000)
    (inside : offset + (endAddr.toNat + 1) ≤ file.length) (whole : prog = true → (endAddr.toNat + 1) % 4 = 0)
    (rest : ∀ a', Reading file ph (offset + (endAddr.toNat + 1)) (c.fill prog (pageBase vaddr)
        (pageBase vaddr + (endAddr.toNat + 1)) (fromFile file offset (pageBase vaddr))) log a' → Yields post next a') :
    Yields post (loadToPage 0 endAddr vaddr prog next) a := by
  refine yields_physPageToLoad reading fun a' reading' mapped => yields_assert ?_ ?_
  · simpa [BitVec.lt_def, pageBytes] using last
  · refine yields_loadToPageLoop short last _ reading' mapped (by simp) ?_ (by simpa using inside) (by simpa using whole) ?_
    · simp only [BitVec.ofNat_eq_ofNat, BitVec.toNat_ofNat, Nat.zero_mod, Nat.sub_zero, pageSize]
      omega
    · intro a'' reading''
      simp only [BitVec.ofNat_eq_ofNat, BitVec.toNat_ofNat, Nat.zero_mod, Nat.sub_zero, Nat.add_zero] at reading''
      exact rest a'' reading''

theorem yields_loadCalls {calls : List PageCall} {low count : Nat} (start : ∀ d ∈ calls, d.off = 0)
    (last : ∀ d ∈ calls, d.endAddr.toNat < 0x1000) (whole : prog = true → ∀ d ∈ calls, d.count % 4 = 0)
    (places : addresses calls = List.range' low count) (inside : offset + count ≤ file.length)
    (rest : ∀ a', Reading file ph (offset + count) (c.fill prog low (low + count) (fromFile file offset low)) log a' →
      Yields post next a') : Yields post (loadCalls prog calls next) a := by
  induction calls generalizing low count offset c a with
  | nil =>
    obtain rfl : count = 0 := by simpa [addresses] using congrArg List.length places.symm
    refine rest a ?_
    rwa [fill_empty (by omega)]
  | cons d calls ih =>
    obtain ⟨vaddr, off, endAddr⟩ := d
    obtain rfl : off = 0 := start _ List.mem_cons_self
    obtain ⟨here, fits, behind⟩ := addresses_cons_eq places
    rw [count_zero] at here fits behind
    rw [address_zero] at here
    obtain rfl := here.resolve_left (by omega)
    have bound : endAddr.toNat < 0x1000 := last _ List.mem_cons_self
    change Yields post (loadToPage 0 endAddr vaddr prog (loadCalls prog calls next)) a
    refine yields_loadToPage short reading bound (by omega) ?_ ?_
    · intro code
      have multiple := whole code _ List.mem_cons_self
      rwa [count_zero] at multiple
    · intro a' reading'
      refine ih reading' (fun d member => start d (.tail _ member)) (fun d member => last d (.tail _ member))
        (fun code d member => whole code d (.tail _ member)) behind (by omega) ?_
      intro a'' reading''
      have total : endAddr.toNat + 1 + (count - (endAddr.toNat + 1)) = count := by omega
      rw [fill_fill (by omega) (by omega) fun x after => fromFile_shift (by omega) (by omega) after,
        Nat.add_assoc offset, Nat.add_assoc (pageBase vaddr), total] at reading''
      exact rest a'' reading''

theorem yields_loadFilePart {memSize : Word} {next : Word → Load} (same : getU16 ph phOffVaddr = vaddr)
    (aligned : vaddr.toNat % 0x1000 = 0) (fits : vaddr.toNat + memSize.toNat < 0x10000)
    (inside : memSize ≠ 0 → offset + memSize.toNat ≤ file.length) (whole : prog = true → memSize.toNat % 4 = 0)
    (rest : ∀ a' offset' vaddr', vaddr'.toNat = bssStart memSize.toNat vaddr.toNat → Reading file ph offset'
        (c.fill prog vaddr.toNat (vaddr.toNat + memSize.toNat) (fromFile file offset vaddr.toNat)) log a' →
      Yields post (next vaddr') a') : Yields post (loadFilePart prog memSize vaddr next) a := by
  by_cases empty : memSize = 0
  · subst empty
    refine rest a offset vaddr rfl ?_
    rwa [fill_empty (by simp)]
  · have positive : 0 < memSize.toNat := word_pos empty
    have within := inside empty
    have split : SplitsWell vaddr.toNat memSize.toNat :=
      ⟨by omega, fun _ => aligned, fun _ => ⟨fits, by omega⟩⟩
    have places := (addresses_iff positive (by omega)).2 split
    have wholes : prog = true → ∀ d ∈ segmentCalls memSize vaddr, d.count % 4 = 0 := fun code =>
      (whole_iff positive (by omega) split).2 ⟨by omega, whole code⟩
    rw [segmentCalls, if_neg empty] at places wholes
    obtain ⟨-, size, behind⟩ := addresses_cons_eq places
    obtain ⟨later, script, looked⟩ := @loadFilePart_eq memSize vaddr prog next empty
    rw [script]
    have starts : (firstCall memSize vaddr).off = 0 := BitVec.eq_of_toNat_eq (start_toNat.trans aligned)
    have first : addresses [firstCall memSize vaddr] = List.range' vaddr.toNat (firstCall memSize vaddr).count := by
      rw [addresses_cons, firstCall_address]
      exact List.append_nil _
    refine yields_loadCalls short reading (by simpa using starts) (by simpa using firstCall_last)
      (fun code => by simpa using wholes code _ List.mem_cons_self) first (by omega) fun a' reading' => ?_
    refine yields_fetch reading'.ph_eq ?_
    rw [looked ph same]
    refine yields_loadCalls short reading' (fun d => laterCalls_off) laterCalls_last
      (fun code d member => wholes code d (.tail _ member)) behind (by omega) fun a'' reading'' => ?_
    have total : vaddr.toNat + (firstCall memSize vaddr).count + (memSize.toNat - (firstCall memSize vaddr).count) =
        vaddr.toNat + memSize.toNat := by omega
    rw [fill_fill (by omega) (by omega) fun x after => fromFile_shift (by omega) (by omega) after, total] at reading''
    refine rest a'' _ _ ?_ reading''
    rw [bssStart, if_neg (by omega)]
    split_ifs with small
    · rw [afterSegment_one_page positive small fits, aligned, Nat.sub_zero]
    · exact (afterSegment_many_pages (by omega) fits).2 aligned split.pages

end

theorem yields_zeroPage {len : Word} (reading : Reading file ph offset c log a)
    (fits : vaddr.toNat % 0x1000 + len.toNat ≤ 0x1000) (positive : len ≠ 0)
    (rest : ∀ a', Reading file ph offset (c.zero vaddr.toNat (vaddr.toNat + len.toNat)) log a' → Yields post next a') :
    Yields post (zeroPage (vaddr % pageBytes) len vaddr next) a := by
  have start := @start_toNat vaddr
  have size : 0 < len.toNat := word_pos positive
  refine yields_physPageToLoad reading fun a' reading' mapped => yields_assert ?_ ?_
  · have bound : (vaddr % pageBytes + len).toNat ≤ 0x1000 := by
      rw [word_add_toNat (by omega), start]
      exact fits
    simpa [BitVec.le_def, pageBytes] using bound
  · obtain ⟨image, at_image, holds⟩ := reading'.image
    have page := mapped image at_image
    have base : pageBase vaddr + vaddr.toNat % 0x1000 = vaddr.toNat := by
      rw [pageBase, virtPagePart_toNat]
      omega
    have top : pageBase vaddr + min 0x1000 (vaddr.toNat % 0x1000 + (len.toNat + 1)) =
        if (vaddr.toNat + len.toNat) % 0x1000 = 0 then vaddr.toNat + len.toNat else vaddr.toNat + len.toNat + 1 := by
      split <;> omega
    have zeros : ∀ x, (List.replicate (len.toNat + 1) (0 : Byte)).getD (x - vaddr.toNat) 0 = 0 := by
      intro x
      rw [List.getD_eq_getElem?_getD, List.getElem?_replicate]
      split <;> rfl
    have filled := holds_write holds page (vaddr % pageBytes) (List.replicate (len.toNat + 1) 0)
    simp only [start, List.length_replicate, base, top, zeros] at filled
    rw [if_neg positive]
    refine ⟨by simp [ready, at_image], rest _ ⟨reading'.file_eq, reading'.offset_eq, reading'.header, reading'.ph_eq,
      ⟨image.write false (virtPagePart vaddr) (vaddr % pageBytes) (List.replicate (len.toNat + 1) 0),
        by simp [logging, handle, at_image], ?_⟩, by simp [logging, headerRead, reading'.log_eq]⟩⟩
    rw [Contents.zero, if_pos (by omega)]
    exact filled

theorem zero_zero {low mid high : Nat} (first : low < mid) (boundary : mid % 0x1000 = 0 ∨ mid = high)
    (second : mid ≤ high) : (c.zero low mid).zero mid high = c.zero low high := by
  rcases Nat.lt_or_eq_of_le second with more | rfl
  · have page : mid % 0x1000 = 0 := boundary.resolve_right (by omega)
    simp only [Contents.zero, if_pos first, if_pos more, if_pos page, if_pos (first.trans more)]
    refine fill_fill (by omega) ?_ fun _ _ => rfl
    split <;> omega
  · simp [Contents.zero]

theorem yields_loadBss {bssEnd : Word} :
    ∀ (fuel : Nat) {vaddr : Word} {c : Contents} {a : Alone × List Word}, Reading file ph offset c log a →
      (vaddr.toNat < bssEnd.toNat → (bssEnd.toNat + 0xfff) / 0x1000 - vaddr.toNat / 0x1000 ≤ fuel) →
      (∀ a', Reading file ph offset (c.zero vaddr.toNat bssEnd.toNat) log a' → Yields post next a') →
      Yields post (loadBss bssEnd next fuel vaddr) a := by
  intro fuel
  induction fuel with
  | zero =>
    intro vaddr c a reading enough rest
    refine rest a ?_
    rwa [Contents.zero, if_neg (by omega)]
  | succ fuel ih =>
    intro vaddr c a reading enough rest
    unfold loadBss
    by_cases more : vaddr < bssEnd
    · have order : vaddr.toNat < bssEnd.toNat := more
      have size := zeroSize_toNat more
      generalize wordMin (pageBytes - vaddr % pageBytes) (bssEnd - vaddr) = count at size
      have next_toNat : (vaddr + count).toNat = vaddr.toNat + count.toNat := word_add_toNat (by omega)
      rw [if_pos more]
      refine yields_zeroPage reading (by omega) ?_ ?_
      · rintro rfl
        simp at size
        omega
      · intro a' reading'
        refine ih reading' (by omega) ?_
        intro a'' reading''
        rw [next_toNat, zero_zero (by omega) (by omega) (by omega)] at reading''
        exact rest a'' reading''
    · have order : ¬vaddr.toNat < bssEnd.toNat := more
      rw [if_neg more]
      refine rest a ?_
      rwa [Contents.zero, if_neg order]

theorem toInt_neg_iff {w : Word} : w.toInt < 0 ↔ 0x8000 ≤ w.toNat := by
  rw [BitVec.toInt_eq_toNat_cond]
  split <;> omega

theorem yields_vfsSeekSet {target : Word} (reading : Reading file ph offset c log a)
    (rest : ∀ a' offset', (target.toNat < 0x8000 → offset' = target.toNat) → Reading file ph offset' c log a' →
      Yields post next a') : Yields post (.vfsSeekSet target next) a := by
  refine ⟨trivial, ?_⟩
  simp only [logging, handle, headerRead, List.append_nil]
  by_cases negative : target.toInt < 0
  · have large := toInt_neg_iff.1 negative
    rw [if_pos negative]
    exact rest _ offset (fun small => absurd small (by omega)) reading
  · rw [if_neg negative]
    exact rest _ target.toNat (fun _ => rfl)
      ⟨reading.file_eq, rfl, reading.header, reading.ph_eq, reading.image, reading.log_eq⟩

theorem yields_loadSegment {seg : Segment} {next : Word → Load} (short : file.length < 0x8000)
    (sound : seg.Sound file) (read : seg.ReadFrom ph) (reading : Reading file ph offset c log a)
    (rest : ∀ a' offset' brk', brk'.toNat = seg.raise brk.toNat →
      Reading file ph offset' (seg.place file c) log a' → Yields post (next brk') a') :
    Yields post (loadSegment ph brk next) a := by
  obtain ⟨aligned, fits, within, inside, whole⟩ := sound
  obtain ⟨prog, vaddr, fileSize, memSize, place⟩ := read
  have sum : (getU16 ph phOffVaddr + getU16 ph phOffMemsz).toNat = seg.vaddr + seg.memSize := by
    rw [word_add_toNat (by omega), vaddr, memSize]
  have raised : (if !seg.prog ∧ getU16 ph phOffMemsz ≠ 0 then
      wordMax brk (getU16 ph phOffVaddr + getU16 ph phOffMemsz) else brk).toNat = seg.raise brk.toNat := by
    have takes : getU16 ph phOffMemsz ≠ 0 ↔ seg.memSize ≠ 0 := by
      rw [← memSize]
      exact not_congr ⟨fun zero => congrArg BitVec.toNat zero, fun zero => BitVec.eq_of_toNat_eq zero⟩
    rw [apply_ite BitVec.toNat, wordMax_toNat, sum]
    exact if_congr (and_congr (by simp) takes) rfl rfl
  unfold loadSegment
  dsimp only
  rw [prog]
  refine yields_vfsSeekSet reading fun a' offset' sought reading' => ?_
  have sought' : seg.fileSize ≠ 0 → offset' = seg.offset := by
    intro nonempty
    have bound := inside nonempty
    rw [← place nonempty] at bound ⊢
    exact sought (by omega)
  refine yields_loadFilePart short reading' rfl (by omega) (by omega) ?_ (by rw [fileSize]; exact whole) ?_
  · intro nonempty
    have positive : seg.fileSize ≠ 0 := fun zero => nonempty (BitVec.eq_of_toNat_eq (fileSize.trans zero))
    rw [sought' positive, fileSize]
    exact inside positive
  · intro a'' offset'' bss bss_toNat reading''
    have bytes : c.fill seg.prog seg.vaddr (seg.vaddr + seg.fileSize) (fromFile file offset' seg.vaddr) =
        c.fill seg.prog seg.vaddr (seg.vaddr + seg.fileSize) (fromFile file seg.offset seg.vaddr) := by
      by_cases empty : seg.fileSize = 0
      · rw [fill_empty (by omega), fill_empty (by omega)]
      · rw [sought' empty]
    rw [vaddr, fileSize, bytes] at reading''
    have test : (!seg.prog ∧ getU16 ph phOffFilesz < getU16 ph phOffMemsz) ↔
        seg.prog = false ∧ seg.fileSize < seg.memSize := by
      rw [BitVec.lt_def, fileSize, memSize]
      simp
    by_cases longer : seg.prog = false ∧ seg.fileSize < seg.memSize
    · rw [if_pos (test.2 longer)]
      refine yields_loadBss 17 reading'' (fun _ => by omega) ?_
      intro a₃ reading₃
      refine rest a₃ offset'' _ raised ?_
      rw [sum, bss_toNat, vaddr, fileSize] at reading₃
      rw [Segment.place, if_pos longer]
      exact reading₃
    · rw [if_neg fun both => longer (test.1 both)]
      refine rest a'' offset'' _ raised ?_
      rw [Segment.place, if_neg longer]
      exact reading''

structure LoadDone (c : Contents) (brk : Nat) (log : List Word) (a : Alone × List Word) : Prop where
  image : ∃ image, a.1.image = some image ∧ Holds image c ∧ image.loadBrk.toNat = brk
  log_eq : a.2 = log

def placesOf (file : List Byte) (js : List Nat) : List Word := js.map fun j => BitVec.ofNat 16 (headerPlace file j)

theorem yields_finish (reading : Reading file ph offset c log a)
    (rest : ∀ a', LoadDone c brk.toNat log a' → post .proc a') : Yields post (.setLoadBrk brk <| .done .proc) a := by
  obtain ⟨image, at_image, holds⟩ := reading.image
  refine ⟨by simp [ready, at_image], rest _ ⟨⟨{ image with loadBrk := brk }, ?_, holds, rfl⟩, ?_⟩⟩
  · simp [logging, handle, at_image]
  · simp [logging, headerRead, reading.log_eq]

theorem yields_header {j : Nat} {next : Word → List Byte → Load} (short : file.length < 0x8000)
    (inside : headerPlace file j + 32 ≤ file.length) (reading : Reading file ph (headerPlace file j) c log a)
    (rest : ∀ a' nextPh, nextPh.toNat = headerPlace file j + 32 →
      Reading file (headerAt file j) (headerPlace file j + 32) c
        (log ++ [BitVec.ofNat 16 (headerPlace file j)]) a' →
      Yields post (next nextPh (headerAt file j)) a') :
    Yields post (.vfsReadBlocking .phBuff phSize fun _ => .vfsSeekCur fun nextPh =>
      .fetch .phBuff phSize.toNat fun ph => next nextPh ph) a := by
  have size : phSize.toNat = 32 := rfl
  have range : a.1.offset.toNat + phSize.toNat ≤ a.1.file.length := by
    rw [reading.offset_eq, reading.file_eq]
    exact inside
  have after : (a.1.offset + phSize).toNat = headerPlace file j + 32 := by
    rw [word_add_toNat (by rw [reading.offset_eq]; omega), reading.offset_eq, size]
  have data : readFile a.1.file a.1.offset phSize = headerAt file j := by
    rw [readFile, reading.offset_eq, reading.file_eq]
    rfl
  have length : (headerAt file j).length = 32 := data ▸ readFile_length range
  refine yields_vfsReadBlocking range ⟨trivial, ?_⟩
  rw [data]
  have read : (a.1.buffers.fill .phBuff (headerAt file j)).first .phBuff phSize.toNat = headerAt file j :=
    first_fill length
  have after_read := rest ({ a.1 with
    offset := a.1.offset + phSize, buffers := a.1.buffers.fill .phBuff (headerAt file j) },
    a.2 ++ [a.1.offset]) (a.1.offset + phSize) after
    ⟨reading.file_eq, after, (first_fill_of_ne (by decide)).trans reading.header, read, reading.image, by
      rw [reading.log_eq, ← reading.offset_eq, BitVec.ofNat_toNat, BitVec.setWidth_eq]⟩
  refine yields_fetch read ?_
  simpa [logging, handle, headerRead] using after_read

theorem segmentsAt_cons (file : List Byte) (j : Nat) (js : List Nat) :
    segmentsAt file (j :: js) = if field (headerAt file j) phOffType = 1 then
      segmentOf (headerAt file j) :: segmentsAt file js else segmentsAt file js := by
  unfold segmentsAt
  split <;> simp_all

theorem yields_loadPh (loadable : Loadable file) (typed : Typed file) :
    ∀ (fuel count : Nat) {i brk : Word} {ph : List Byte} {offset : Nat} {c : Contents} {log : List Word}
      {a : Alone × List Word}, Reading file ph offset c log a → i.toNat + count = phnum file → count ≤ fuel →
      (0 < count → offset = headerPlace file i.toNat) →
      (∀ a', LoadDone ((segmentsAt file (List.range' i.toNat count)).foldl (Segment.place file) c)
          ((segmentsAt file (List.range' i.toNat count)).foldl Segment.raise brk.toNat)
          (log ++ placesOf file (List.range' i.toNat count)) a' → post .proc a') →
      Yields post (loadPh fuel i brk) a := by
  intro fuel
  induction fuel with
  | zero =>
    intro count i brk ph offset c log a reading total enough _ rest
    obtain rfl : count = 0 := by omega
    exact yields_finish reading (by simpa [segmentsAt, placesOf] using rest)
  | succ fuel ih =>
    intro count i brk ph offset c log a reading total enough at_place rest
    refine yields_fetch reading.header ?_
    cases count with
    | zero =>
      have last : ¬i < getU16 (file.take 56) ehOffPhnum := by
        rw [BitVec.lt_def]
        exact Nat.not_lt.2 (Nat.le_of_eq total.symm)
      rw [if_neg last]
      exact yields_finish reading (by simpa [segmentsAt, placesOf] using rest)
    | succ count =>
      have more : i < getU16 (file.take 56) ehOffPhnum := by
        rw [BitVec.lt_def]
        show i.toNat < phnum file
        omega
      have place := at_place (Nat.succ_pos count)
      have bound := loadable.table i.toNat more
      have short := loadable.short
      rw [if_pos more]
      subst place
      refine yields_header short bound reading fun a' nextPh nextPh_toNat reading' => ?_
      have next_i : (i + 1).toNat = i.toNat + 1 := by
        have below : phnum file < 0x10000 := (getU16 (file.take 56) ehOffPhnum).isLt
        have one : (1 : Word).toNat = 1 := rfl
        rw [word_add_toNat (by omega), one]
      have go : ∀ {ph brk' c' a'' offset'}, Reading file ph offset' c'
          (log ++ [BitVec.ofNat 16 (headerPlace file i.toNat)]) a'' →
          (segmentsAt file (List.range' (i.toNat + 1) count)).foldl (Segment.place file) c' =
            (segmentsAt file (List.range' i.toNat (count + 1))).foldl (Segment.place file) c →
          (segmentsAt file (List.range' (i.toNat + 1) count)).foldl Segment.raise brk'.toNat =
            (segmentsAt file (List.range' i.toNat (count + 1))).foldl Segment.raise brk.toNat →
          Yields post (.vfsSeekSet nextPh <| loadPh fuel (i + 1) brk') a'' := by
        intro ph brk' c' a'' offset' reading'' contents breaks
        refine yields_vfsSeekSet reading'' fun a₃ offset₃ sought reading₃ => ?_
        refine ih count reading₃ (by omega) (by omega) ?_ ?_
        · intro _
          rw [sought (by omega), nextPh_toNat, next_i]
          simp only [headerPlace]
          omega
        · intro a₄ loaded
          rw [next_i, contents, breaks, List.append_assoc] at loaded
          exact rest a₄ loaded
      have unfolded := segmentsAt_cons file i.toNat (List.range' (i.toNat + 1) count)
      rw [← List.range'_succ] at unfolded
      by_cases load : getU16 (headerAt file i.toNat) phOffType = 1
      · have type := typed i.toNat more load
        rw [if_pos type] at unfolded
        rw [if_pos load]
        have member : segmentOf (headerAt file i.toNat) ∈ segmentsOf file := by
          simp only [segmentsOf, segmentsAt, List.mem_map, List.mem_filter, List.mem_range]
          exact ⟨_, ⟨⟨i.toNat, more, rfl⟩, by simpa using type⟩, rfl⟩
        have sound := loadable.sounds _ member
        refine yields_loadSegment short sound (readFrom_segmentOf short sound) reading' ?_
        intro a'' offset' brk' raised reading''
        exact go reading'' (by rw [unfolded, List.foldl_cons]) (by rw [unfolded, List.foldl_cons, raised])
      · have type : field (headerAt file i.toNat) phOffType ≠ 1 := by
          intro one
          have low : (getU16 (headerAt file i.toNat) phOffType).toNat = field (headerAt file i.toNat) phOffType :=
            field_of_small (by omega)
          exact load (BitVec.eq_of_toNat_eq (low.trans one))
        rw [if_neg type] at unfolded
        rw [if_neg load]
        exact go reading' (by rw [unfolded]) (by rw [unfolded])

theorem yields_elfLoad (loadable : Loadable file) (typed : Typed file) (at_file : a.1.file = file) (at_start : a.1.offset = 0)
    (fresh : a.1.image = none) (empty : a.2 = [])
    (rest : ∀ a', LoadDone ((segmentsOf file).foldl (Segment.place file) fun _ _ => none)
      ((segmentsOf file).foldl Segment.raise 0) (placesOf file (List.range (phnum file))) a' → post .proc a') :
    Yields post elfLoad a := by
  have size : elfHeaderSize.toNat = 56 := rfl
  have short := loadable.short
  have header := loadable.header
  have range : a.1.offset.toNat + elfHeaderSize.toNat ≤ a.1.file.length := by
    rw [at_start, at_file]
    exact header
  have data : readFile a.1.file a.1.offset elfHeaderSize = file.take 56 := by
    rw [readFile, at_start, at_file]
    rfl
  have length : (file.take 56).length = 56 := data ▸ readFile_length range
  refine yields_vfsReadBlocking range ?_
  rw [data, if_neg (by simp)]
  have fetched : (a.1.buffers.fill .buff (file.take 56)).first .buff 56 = file.take 56 := first_fill length
  refine yields_fetch fetched ?_
  rw [if_pos loadable.valid]
  refine ⟨fresh, by simp [ready, logging, handle], ?_⟩
  refine yields_vfsSeekSet (?_ : Reading file (a.1.buffers.first .phBuff 32) 56 (fun _ _ => none) [] _) ?_
  · refine ⟨at_file, ?_, fetched, first_fill_of_ne (by decide), ⟨_, rfl, fun _ _ _ => rfl⟩, ?_⟩
    · show (a.1.offset + elfHeaderSize).toNat = 56
      rw [at_start]
      rfl
    · simp [logging, headerRead, empty]
  · intro a' offset sought reading
    refine yields_loadPh loadable typed (2 ^ 16) (phnum file) reading ?_ ?_ ?_ ?_
    · simp
    · exact Nat.le_of_lt (getU16 (file.take 56) ehOffPhnum).isLt
    · intro positive
      have inside := loadable.table 0 positive
      have place : headerPlace file 0 = field (file.take 56) ehOffPhoff := rfl
      have low : (getU16 (file.take 56) ehOffPhoff).toNat = field (file.take 56) ehOffPhoff :=
        field_of_small (by omega)
      rw [sought (by omega), low]
      exact place.symm
    · intro a'' loaded
      refine rest a'' ?_
      simpa [segmentsOf, List.range_eq_range'] using loaded

end Loader

end PiOS.Proof.ElfImage
