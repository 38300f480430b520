import PiOS.Proof.ElfLoad
import PiOS.Proof.ElfPages

namespace PiOS.Proof.ElfPlacement
open Kernel Transition ElfImage ElfPages

section Places

variable {offset address count : Nat} {calls calls' : List PageCall} {c : PageCall}

theorem placements_fst : (placements offset address count).map Prod.fst = List.range' offset count := by
  rw [placements, List.map_map, List.range'_eq_map_range]
  rfl

theorem placements_snd : (placements offset address count).map Prod.snd = List.range' address count := by
  rw [placements, List.map_map, List.range'_eq_map_range]
  rfl

theorem bytesPlaced_fst : (bytesPlaced offset calls).map Prod.fst = List.range' offset (countOf calls) := by
  induction calls generalizing offset with
  | nil => rfl
  | cons c calls ih =>
    rw [bytesPlaced, List.map_append, placements_fst, ih, countOf_cons, ← List.range'_append_1]

theorem bytesPlaced_snd : (bytesPlaced offset calls).map Prod.snd = addresses calls := by
  induction calls generalizing offset with
  | nil => rfl
  | cons c calls ih => rw [bytesPlaced, List.map_append, placements_snd, ih, addresses_cons]

theorem bytesPlaced_eq_iff {place low : Nat} (positive : count ≠ 0) : bytesPlaced offset calls = placements place low count ↔
    offset = place ∧ addresses calls = List.range' low count := by
  constructor
  · intro same
    have firsts := congrArg (List.map Prod.fst) same
    have seconds := congrArg (List.map Prod.snd) same
    rw [bytesPlaced_fst, placements_fst, List.range'_inj] at firsts
    rw [bytesPlaced_snd, placements_snd] at seconds
    exact ⟨firsts.2.resolve_left (by omega), seconds⟩
  · rintro ⟨rfl, same⟩
    have length := congrArg List.length same
    rw [addresses_length, List.length_range'] at length
    have firsts : (bytesPlaced offset calls).map Prod.fst = List.range' offset count := by rw [bytesPlaced_fst, length]
    have seconds : (bytesPlaced offset calls).map Prod.snd = List.range' low count := by rw [bytesPlaced_snd, same]
    rw [List.zip_of_prod firsts seconds, List.zip_of_prod placements_fst placements_snd]

end Places

def headerOf (s : FaultyLoad) : List Byte := s.shared.buffers.first .phBuff 32

def segmentFilePart (ph : List Byte) (next : Word → Load) : Load :=
  .vfsSeekSet (getU16 ph phOffOffset) <|
  loadFilePart (getU16 ph phOffFlags &&& 1 ≠ 0) (getU16 ph phOffFilesz) (getU16 ph phOffVaddr) next

def Placed (s : FaultyLoad) : Prop :=
  ∃ s', (segmentFilePart (headerOf s) fun _ => .done .proc).Ends (serveFaulty fun _ => none) s .proc s' ∧
    s'.placed = s.placed ++ placements (segmentOf (headerOf s)).offset (segmentOf (headerOf s)).vaddr
      (segmentOf (headerOf s)).fileSize

structure Placeable (file : List Byte) (offset : Nat) (seg : Segment) : Prop where
  split : SplitsWell seg.vaddr seg.fileSize
  whole : seg.prog = true → seg.vaddr % 4 = 0 ∧ seg.fileSize % 4 = 0
  sought : seg.offset < 0x8000 ∨ offset = seg.offset
  inside : seg.offset + seg.fileSize ≤ file.length

section Placed

variable {s : FaultyLoad}

theorem ends_of_outcome {faults : ReadFaults} {script : Load} {fits : Prop} {count reads : Nat}
    {placed expected : List (Nat × Nat)} (outcome : Outcome faults script s fits count reads placed (.done .proc)) :
    (∃ s', script.Ends (serveFaulty faults) s .proc s' ∧ s'.placed = s.placed ++ expected) ↔
      fits ∧ placed = expected := by
  constructor
  · rintro ⟨s', ends, same⟩
    have plays := Script.play_eq_some.2 ends
    by_cases holds : fits
    · obtain ⟨s'', moved, plays'⟩ := outcome.goes holds
      rw [show script.play (serveFaulty faults) s = some (.proc, s'') from plays'] at plays
      cases plays
      rw [moved.placed] at same
      exact ⟨holds, List.append_cancel_left same⟩
    · obtain ⟨stop, stopped⟩ := outcome.fails holds _ _ plays
      cases stopped
  · rintro ⟨holds, rfl⟩
    obtain ⟨s', moved, plays⟩ := outcome.goes holds
    exact ⟨s', Script.play_eq_some.1 plays, moved.placed⟩

theorem placed_iff_calls (small : (fileOf s).length < 2 ^ 16) (made : Made s) : Placed s ↔
    CallsLoad (fun _ => none) (fileOf s) (segmentOf (headerOf s)).prog
        (soughtFrom (offsetOf s) (getU16 (headerOf s) phOffOffset)) s.reads
        (segmentCalls (getU16 (headerOf s) phOffFilesz) (getU16 (headerOf s) phOffVaddr)) ∧
      bytesPlaced (soughtFrom (offsetOf s) (getU16 (headerOf s) phOffOffset))
          (segmentCalls (getU16 (headerOf s) phOffFilesz) (getU16 (headerOf s) phOffVaddr)) =
        placements (segmentOf (headerOf s)).offset (segmentOf (headerOf s)).vaddr (segmentOf (headerOf s)).fileSize := by
  have header : getU16 ((seekTo s (getU16 (headerOf s) phOffOffset)).shared.buffers.first .phBuff 32) phOffVaddr =
      getU16 (headerOf s) phOffVaddr := by
    rw [buffers_seekTo]
    rfl
  have short : (fileOf (seekTo s (getU16 (headerOf s) phOffOffset))).length < 2 ^ 16 := by
    rw [fileOf_seekTo]
    exact small
  have outcome : Outcome (fun _ => none) (loadFilePart (getU16 (headerOf s) phOffFlags &&& 1 ≠ 0)
      (getU16 (headerOf s) phOffFilesz) (getU16 (headerOf s) phOffVaddr) fun _ => .done .proc)
      (seekTo s (getU16 (headerOf s) phOffOffset)) _ _ _ _ (.done .proc) :=
    outcome_loadFilePart header short (made_seekTo made _)
  rw [← prog_segmentOf, ← offsetOf_seekTo, ← fileOf_seekTo (getU16 (headerOf s) phOffOffset)]
  refine Iff.trans ?_ (ends_of_outcome outcome)
  unfold Placed
  apply exists_congr
  intro s'
  have seeks : (segmentFilePart (headerOf s) fun _ => .done .proc).play (serveFaulty fun _ => none) s = _ :=
    play_seek _ _
  rw [← Script.play_eq_some, ← Script.play_eq_some, seeks]
  rfl

theorem segment_placed_iff (small : (fileOf s).length < 2 ^ 16) (made : Made s)
    (nonempty : 0 < (segmentOf (headerOf s)).fileSize)
    (fits : (segmentOf (headerOf s)).vaddr + (segmentOf (headerOf s)).fileSize ≤ 0x10000) :
    Placed s ↔ Placeable (fileOf s) (offsetOf s) (segmentOf (headerOf s)) := by
  rw [placed_iff_calls small made]
  have vaddr : (getU16 (headerOf s) phOffVaddr).toNat = (segmentOf (headerOf s)).vaddr :=
    field_of_small (show (segmentOf (headerOf s)).vaddr < 0x10000 by omega)
  have size : (segmentOf (headerOf s)).fileSize = (getU16 (headerOf s) phOffFilesz).toNat +
      0x10000 * (getU16 (headerOf s) (phOffFilesz + 2)).toNat := rfl
  have place : (segmentOf (headerOf s)).offset = (getU16 (headerOf s) phOffOffset).toNat +
      0x10000 * (getU16 (headerOf s) (phOffOffset + 2)).toNat := rfl
  rw [bytesPlaced_eq_iff (by omega)]
  generalize segmentOf (headerOf s) = seg at *
  generalize getU16 (headerOf s) phOffVaddr = start at *
  generalize getU16 (headerOf s) phOffFilesz = memSize at *
  generalize getU16 (headerOf s) phOffOffset = target at *
  have bound := target.isLt
  have here : offsetOf s < 2 ^ 16 := (s.shared.call ()).offset.isLt
  rw [← vaddr] at fits ⊢
  by_cases whole : seg.fileSize = 0x10000
  · -- the size is a `u16`, so nothing is loaded
    have zero : memSize = 0 := BitVec.eq_of_toNat_eq (show memSize.toNat = 0 by omega)
    constructor
    · rintro ⟨-, -, filled⟩
      have length := congrArg List.length filled
      rw [zero, addresses_length, List.length_range', whole] at length
      cases length
    · intro placeable
      have pages := placeable.split.pages
      omega
  · have same : memSize.toNat = seg.fileSize := by omega
    rw [← same] at fits nonempty ⊢
    rw [addresses_iff nonempty fits]
    have count (split : SplitsWell start.toNat memSize.toNat) : countOf (segmentCalls memSize start) = memSize.toNat := by
      rw [← addresses_length, (addresses_iff nonempty fits).2 split, List.length_range']
    unfold soughtFrom
    constructor
    · rintro ⟨loads, sought, split⟩
      have total := count split
      have inside := loads.inside (by omega)
      rw [total, sought, same] at inside
      refine ⟨?_, fun code => ?_, ?_, inside⟩
      · rwa [← vaddr, ← same]
      · rw [← vaddr, ← same]
        exact (whole_iff nonempty fits split).1 (loads.whole code)
      · split at sought
        · exact Or.inl (by omega)
        · exact Or.inr sought
    · rintro ⟨split, code, sought, inside⟩
      rw [← vaddr, ← same] at split code
      have total := count split
      have reached : (if target.toNat < 0x8000 then target.toNat else offsetOf s) = seg.offset := by
        split
        · omega
        · omega
      rw [reached]
      refine ⟨⟨fun _ => ?_, fun prog => (whole_iff nonempty fits split).2 (code prog), fun _ _ => rfl⟩, rfl, split⟩
      rw [total, same]
      exact inside

end Placed

def atHeader (file ph : List Byte) : FaultyLoad :=
  let buffers := noBytes.fill .phBuff ph
  ⟨⟨{ bootKernel fun _ _ => 0 with procs := [.zero] }, buffers, fun _ => ⟨file, 0, .zero, some 0, buffers⟩⟩, 0, []⟩

theorem made_atHeader (file ph : List Byte) : Made (atHeader file ph) := ⟨0, rfl, Nat.zero_lt_one⟩

theorem segment_placed_iff_aligned :
    Placeable [1, 2, 3, 4] 0 ⟨false, 0, 0x2000, 4, 4⟩ ∧ Placed (atHeader [1, 2, 3, 4] (ElfLoad.loadHeader 0 0x20 4 4 6)) := by
  have placeable : Placeable [1, 2, 3, 4] 0 ⟨false, 0, 0x2000, 4, 4⟩ :=
    ⟨⟨by decide, fun _ => rfl, fun large => absurd large (by decide)⟩, fun code => (nomatch code),
      Or.inl (by decide), by decide⟩
  have seg : segmentOf (headerOf (atHeader [1, 2, 3, 4] (ElfLoad.loadHeader 0 0x20 4 4 6))) =
      ⟨false, 0, 0x2000, 4, 4⟩ := by decide +kernel
  refine ⟨placeable, (segment_placed_iff (by decide) (made_atHeader _ _) ?_ ?_).2 ?_⟩
  · rw [seg]
    decide
  · rw [seg]
    decide
  · rw [seg]
    exact placeable

def unalignedHeader : List Byte :=
  [1, 0, 0, 0, 0, 0, 0, 0, 0x10, 0, 0, 0, 0, 0, 0, 0, 0x20, 0, 0, 0, 0x20, 0, 0, 0, 6, 0, 0, 0, 0, 0, 0, 0]

theorem unaligned_half_placed :
    segmentOf (headerOf (atHeader (List.replicate 32 1) unalignedHeader)) = ⟨false, 0, 0x10, 0x20, 0x20⟩ ∧
      (∃ s', (segmentFilePart (headerOf (atHeader (List.replicate 32 1) unalignedHeader)) fun _ => .done .proc).Ends
        (serveFaulty fun _ => none) (atHeader (List.replicate 32 1) unalignedHeader) .proc s' ∧
          s'.placed = placements 0 0x10 0x10) ∧
      ¬Placed (atHeader (List.replicate 32 1) unalignedHeader) := by
  have seg : segmentOf (headerOf (atHeader (List.replicate 32 1) unalignedHeader)) =
      ⟨false, 0, 0x10, 0x20, 0x20⟩ := by decide +kernel
  have observed : ((segmentFilePart (headerOf (atHeader (List.replicate 32 1) unalignedHeader)) fun _ => .done .proc).play
      (serveFaulty fun _ => none) (atHeader (List.replicate 32 1) unalignedHeader)).map
        (fun out => (out.1, out.2.placed)) = some (.proc, placements 0 0x10 0x10) := by decide +kernel
  obtain ⟨⟨result, s'⟩, plays, same⟩ := Option.map_eq_some_iff.1 observed
  obtain ⟨rfl, placed⟩ := Prod.mk.inj same
  refine ⟨seg, ⟨s', Script.play_eq_some.1 plays, placed⟩, ?_⟩
  rintro ⟨s'', ends, placed'⟩
  have plays' := Script.play_eq_some.2 ends
  rw [plays] at plays'
  cases plays'
  rw [seg] at placed'
  have length := congrArg List.length (placed.symm.trans placed')
  exact absurd length (by decide)

end PiOS.Proof.ElfPlacement
