import PiOS.Kernel.Proc.ElfFaults
import PiOS.Proof.ElfImage

namespace PiOS.Proof.ElfPages
open Kernel Transition ElfImage

section Placements

variable {offset address count more : Nat}

theorem placements_append : placements offset address count ++ placements (offset + count) (address + count) more =
    placements offset address (count + more) := by
  simp only [placements, List.range_add, List.map_append, List.map_map, Function.comp_def, Nat.add_assoc]

end Placements

def fileOf (s : FaultyLoad) : List Byte := (s.shared.call ()).file

def offsetOf (s : FaultyLoad) : Nat := (s.shared.call ()).offset.toNat

def Made (s : FaultyLoad) : Prop := ∃ c, (s.shared.call ()).child = some c ∧ c < s.shared.kernel.procs.length

abbrev play (faults : ReadFaults) (script : Load) (s : FaultyLoad) : Option (LoadEnd × FaultyLoad) :=
  script.play (serveFaulty faults) s

structure Moved (s s' : FaultyLoad) (count reads : Nat) (placed : List (Nat × Nat)) : Prop where
  file : fileOf s' = fileOf s
  offset : offsetOf s' = offsetOf s + count
  reads : s'.reads = s.reads + reads
  header : s'.shared.buffers.first .buff 56 = s.shared.buffers.first .buff 56
  ph : s'.shared.buffers.first .phBuff 32 = s.shared.buffers.first .phBuff 32
  placed : s'.placed = s.placed ++ placed
  made : Made s'

theorem Moved.refl {s : FaultyLoad} (made : Made s) : Moved s s 0 0 [] :=
  ⟨rfl, rfl, rfl, rfl, rfl, (List.append_nil _).symm, made⟩

theorem Moved.trans {s s' s'' : FaultyLoad} {count count' reads reads' : Nat} {placed placed' : List (Nat × Nat)}
    (first : Moved s s' count reads placed) (second : Moved s' s'' count' reads' placed') :
    Moved s s'' (count + count') (reads + reads') (placed ++ placed') where
  file := second.file.trans first.file
  offset := by rw [second.offset, first.offset, Nat.add_assoc]
  reads := by rw [second.reads, first.reads, Nat.add_assoc]
  header := second.header.trans first.header
  ph := second.ph.trans first.ph
  placed := by rw [second.placed, first.placed, List.append_assoc]
  made := second.made

def Fails (out : Option (LoadEnd × FaultyLoad)) : Prop := ∀ result s', out = some (result, s') → ∃ stop, result = .stop stop

structure Outcome (faults : ReadFaults) (script : Load) (s : FaultyLoad) (fits : Prop) (count reads : Nat)
    (placed : List (Nat × Nat)) (next : Load) : Prop where
  goes : fits → ∃ s', Moved s s' count reads placed ∧ play faults script s = play faults next s'
  fails : ¬fits → Fails (play faults script s)

section Outcome

variable {faults : ReadFaults} {script mid next : Load} {s : FaultyLoad} {fits fits' : Prop}
  {count count' reads reads' : Nat} {placed placed' : List (Nat × Nat)}

theorem fails_stop {stop : Stop} : Fails (some (.stop stop, s)) := by
  intro result s' same
  cases same
  exact ⟨stop, rfl⟩

theorem fails_none : Fails none := by
  intro result s' same
  cases same

theorem Outcome.refl (made : Made s) : Outcome faults next s True 0 0 [] next :=
  ⟨fun _ => ⟨s, .refl made, rfl⟩, fun never => absurd trivial never⟩

theorem Outcome.iff (outcome : Outcome faults script s fits count reads placed next) (same : fits' ↔ fits) :
    Outcome faults script s fits' count reads placed next :=
  ⟨fun holds => outcome.goes (same.1 holds), fun fails => outcome.fails (mt same.2 fails)⟩

theorem Outcome.seq (first : Outcome faults script s fits count reads placed mid)
    (second : ∀ s', Moved s s' count reads placed → Outcome faults mid s' fits' count' reads' placed' next) :
    Outcome faults script s (fits ∧ fits') (count + count') (reads + reads') (placed ++ placed') next := by
  constructor
  · rintro ⟨holds, holds'⟩
    obtain ⟨s', moved, plays⟩ := first.goes holds
    obtain ⟨s'', moved', plays'⟩ := (second s' moved).goes holds'
    exact ⟨s'', moved.trans moved', plays.trans plays'⟩
  · intro not_both
    by_cases holds : fits
    · obtain ⟨s', moved, plays⟩ := first.goes holds
      rw [plays]
      exact (second s' moved).fails fun holds' => not_both ⟨holds, holds'⟩
    · exact first.fails holds

theorem Outcome.after {s' : FaultyLoad} (moved : Moved s s' 0 0 []) (plays : play faults script s = play faults mid s')
    (outcome : Outcome faults mid s' fits count reads placed next) :
    Outcome faults script s fits count reads placed next := by
  constructor
  · intro holds
    obtain ⟨s'', moved', plays'⟩ := outcome.goes holds
    have both := moved.trans moved'
    rw [Nat.zero_add, Nat.zero_add, List.nil_append] at both
    exact ⟨s'', both, plays.trans plays'⟩
  · intro holds
    rw [plays]
    exact outcome.fails holds

end Outcome

section Operations

variable {faults : ReadFaults} {s : FaultyLoad} {o : LoadOp} {b : Buffer}

theorem play_op {next : o.Answer → Load} {out : o.Answer × FaultyLoad}
    (served : serveFaulty faults s o = some out) : play faults (.op o next) s = play faults (next out.1) out.2 := by
  change (serveFaulty faults s o).bind _ = _
  rw [served]
  rfl

theorem play_stuck {next : o.Answer → Load} (stuck : serveFaulty faults s o = none) :
    play faults (.op o next) s = none := by
  change (serveFaulty faults s o).bind _ = _
  rw [stuck]
  rfl

theorem play_assert {condition : Bool} {text : String} {next : Load} : play faults (.assert condition text next) s =
    if condition then play faults next s else some (.stop (.assertion text), s) := by
  unfold Load.assert
  split
  · rfl
  · rfl

theorem play_fetch {count : Nat} {next : List Byte → Load} (inside : ¬(b = .loadBuff ∧ 0x100 < count)) :
    play faults (.fetch b count next) s = play faults (next (s.shared.buffers.first b count)) s := by
  have served : serveFaulty faults s (.fetch b count) = some (s.shared.buffers.first b count, s) := if_neg inside
  exact play_op served

theorem Made.childOf (made : Made s) : ∃ c p, s.shared.childOf () = some (c, p) := by
  obtain ⟨c, child, inside⟩ := made
  refine ⟨c, s.shared.kernel.procs[c], ?_⟩
  simp only [LoadShared.childOf, child, Option.bind_some, List.getElem?_eq_getElem inside, Option.map_some]

theorem physPageToLoad_length (k : KernelState) (i : Nat) (p : Proc) (vaddr : Word) (prog : Bool) :
    (physPageToLoad k i p vaddr prog).2.procs.length = k.procs.length := by
  unfold physPageToLoad
  dsimp only
  split
  · split
    · exact List.length_modify ..
    · rfl
  · split
    · exact List.length_modify ..
    · rfl

theorem Moved.kernel {k : KernelState} (made : Made s) (length : k.procs.length = s.shared.kernel.procs.length)
    (placed : List (Nat × Nat)) :
    Moved s { s with shared := { s.shared with kernel := k }, placed := s.placed ++ placed } 0 0 placed := by
  obtain ⟨c, child, inside⟩ := made
  exact ⟨rfl, rfl, rfl, rfl, rfl, rfl, c, child, by rw [← length] at inside; exact inside⟩

theorem play_physPageToLoad (vaddr : Word) (prog : Bool) (made : Made s) :
    ∃ s', Moved s s' 0 0 [] ∧ ∀ next, play faults (.physPageToLoad vaddr prog next) s = play faults next s' := by
  obtain ⟨c, p, child⟩ := made.childOf
  have moved := Moved.kernel made (physPageToLoad_length s.shared.kernel c p vaddr prog) []
  rw [List.append_nil] at moved
  have served : serveFaulty faults s (.physPageToLoad vaddr prog) = some ((), { s with
      shared := { s.shared with kernel := (physPageToLoad s.shared.kernel c p vaddr prog).2 } }) := by
    simp only [serveFaulty, serveLoad, child, Option.map_some]
    rfl
  exact ⟨_, moved, fun _ => play_op served⟩

theorem play_store (vaddr start : Word) (prog : Bool) (bytes : List Byte) (next : Load) (made : Made s) :
    ∃ s', Moved s s' 0 0 (s.stores vaddr start bytes) ∧
      play faults (.store vaddr prog start bytes next) s = play faults next s' := by
  obtain ⟨c, p, child⟩ := made.childOf
  have served : serveFaulty faults s (.store vaddr prog start bytes) = some ((), { s with
      shared := { s.shared with kernel := { s.shared.kernel with
        phys := writePage s.shared.kernel.phys (pageAt p prog (virtPagePart vaddr)) start bytes } }
      placed := s.placed ++ s.stores vaddr start bytes }) := by
    simp only [serveFaulty, serveLoad, child, Option.map_some]
    rfl
  have moved : Moved s _ 0 0 (s.stores vaddr start bytes) := Moved.kernel made
    (show ({ s.shared.kernel with
      phys := writePage s.shared.kernel.phys (pageAt p prog (virtPagePart vaddr)) start bytes } :
        KernelState).procs.length = _ from rfl) _
  exact ⟨_, moved, play_op served⟩

def readInto (s : FaultyLoad) (b : Buffer) (size : Word) : FaultyLoad :=
  let call := s.shared.call ()
  let data := readFile call.file call.offset size
  { s with
    shared := { s.shared.setCall () { call with
        offset := call.offset + BitVec.ofNat 16 data.length, own := call.own.fill b data } with
      buffers := s.shared.buffers.fill b data }
    reads := s.reads + 1 }

def found (s : FaultyLoad) (size : Nat) : Nat := min size ((fileOf s).length - offsetOf s)

theorem readFile_found (s : FaultyLoad) (size : Word) :
    (readFile (s.shared.call ()).file (s.shared.call ()).offset size).length = found s size.toNat := by
  simp only [readFile, List.length_take, List.length_drop]
  rfl

theorem play_read (b : Buffer) (size : Word) (next : Word → Load) (sound : faults s.reads = none) :
    play faults (.vfsReadBlocking b size next) s =
      play faults (next (BitVec.ofNat 16 (found s size.toNat))) (readInto s b size) := by
  have served : serveFaulty faults s (.vfsReadBlocking b size) =
      some (BitVec.ofNat 16 (readFile (s.shared.call ()).file (s.shared.call ()).offset size).length,
        readInto s b size) := by
    simp only [serveFaulty, sound]
    rfl
  rw [← readFile_found]
  exact play_op served

theorem play_read_error {size : Word} {next : Word → Load} {error : ErrorCode}
    (fault : faults s.reads = some error) : play faults (.vfsReadBlocking b size next) s =
      play faults (next error.val) { s with reads := s.reads + 1 } := by
  have served : serveFaulty faults s (.vfsReadBlocking b size) =
      some (error.val, { s with reads := s.reads + 1 }) := by
    simp only [serveFaulty, fault]
    rfl
  exact play_op served

theorem offsetOf_readInto (b : Buffer) (size : Word) (small : (fileOf s).length < 2 ^ 16) :
    offsetOf (readInto s b size) = offsetOf s + found s size.toNat := by
  change ((s.shared.call ()).offset + BitVec.ofNat 16 (readFile _ _ _).length).toNat = _
  have bound := (s.shared.call ()).offset.isLt
  rw [readFile_found, BitVec.toNat_add, BitVec.toNat_ofNat]
  unfold offsetOf found offsetOf
  omega

theorem moved_read (size : Word) (small : (fileOf s).length < 2 ^ 16) (made : Made s) :
    Moved s (readInto s .loadBuff size) (found s size.toNat) 1 [] where
  file := rfl
  offset := offsetOf_readInto .loadBuff size small
  reads := rfl
  header := first_fill_of_ne (by decide)
  ph := first_fill_of_ne (by decide)
  placed := (List.append_nil _).symm
  made := made

def seekTo (s : FaultyLoad) (target : Word) : FaultyLoad :=
  { s with shared :=
      if target.toInt < 0 then s.shared else s.shared.setCall () { s.shared.call () with offset := target } }

theorem play_seek (target : Word) (next : Load) : play faults (.vfsSeekSet target next) s = play faults next (seekTo s target) := by
  have served : serveFaulty faults s (.vfsSeekSet target) = some ((), seekTo s target) := rfl
  exact play_op served

def soughtFrom (offset : Nat) (target : Word) : Nat := if target.toNat < 0x8000 then target.toNat else offset

theorem offsetOf_seekTo (target : Word) : offsetOf (seekTo s target) = soughtFrom (offsetOf s) target := by
  unfold seekTo soughtFrom
  by_cases negative : target.toInt < 0
  · have large := toInt_neg_iff.1 negative
    rw [if_pos negative, if_neg (by omega)]
  · have small : target.toNat < 0x8000 := Nat.lt_of_not_le (mt toInt_neg_iff.2 negative)
    rw [if_neg negative, if_pos small]
    rfl

theorem fileOf_seekTo (target : Word) : fileOf (seekTo s target) = fileOf s := by
  unfold seekTo fileOf
  dsimp only
  split
  · rfl
  · rfl

theorem buffers_seekTo (target : Word) : (seekTo s target).shared.buffers = s.shared.buffers := by
  unfold seekTo
  dsimp only
  split
  · rfl
  · rfl

theorem made_seekTo (made : Made s) (target : Word) : Made (seekTo s target) := by
  unfold seekTo Made
  dsimp only
  split
  · exact made
  · exact made

end Operations

def chunk (vaddr size start : Word) (prog : Bool) (next : Word → Load) : Load :=
  .vfsReadBlocking .loadBuff size fun read =>
  .assert (read ≠ 0) "read" <|
  loadIntoUserspace vaddr prog read start (next read)

section Chunk

variable {faults : ReadFaults} {s : FaultyLoad} {vaddr size start : Word} {prog : Bool} {next : Word → Load}

theorem chunk_error {error : ErrorCode} (fault : faults s.reads = some error) :
    Fails (play faults (chunk vaddr size start prog next) s) := by
  have large : 0x8000 ≤ error.val.toNat := toInt_neg_iff.1 error.property
  rw [chunk, play_read_error fault, play_assert]
  split
  · rw [loadIntoUserspace, play_assert]
    split
    · rw [play_assert]
      split
      · have served : serveFaulty faults { s with reads := s.reads + 1 } (.fetch .loadBuff error.val.toNat) = none :=
          if_pos ⟨rfl, show 0x100 < error.val.toNat by omega⟩
        have stuck : play faults (.fetch .loadBuff error.val.toNat fun data =>
            .store vaddr prog start data (next error.val)) { s with reads := s.reads + 1 } = none := play_stuck served
        rw [stuck]
        exact fails_none
      · exact fails_stop
    · exact fails_stop
  · exact fails_stop

theorem multiple_iff (prog : Bool) {count : Nat} (small : count < 2 ^ 16) :
    (!prog || BitVec.ofNat 16 count &&& (3 : Word) = 0) = true ↔ (prog = true → count % 4 = 0) := by
  have bits : (BitVec.ofNat 16 count &&& (3 : Word)).toNat = count % 4 := by
    rw [BitVec.toNat_and, word_ofNat_toNat small]
    exact Nat.and_two_pow_sub_one_eq_mod count 2
  have zero : BitVec.ofNat 16 count &&& (3 : Word) = 0 ↔ count % 4 = 0 := by
    rw [← bits]
    exact ⟨fun same => congrArg BitVec.toNat same, fun same => BitVec.eq_of_toNat_eq same⟩
  cases prog with
  | false => simp
  | true => simpa using zero

theorem outcome_chunk (vaddr : Word) (prog : Bool) (next : Word → Load) (small : (fileOf s).length < 2 ^ 16) (made : Made s) (sound : faults s.reads = none)
    (most : size.toNat ≤ 0x100) (fits : start.toNat + size.toNat ≤ 0x1000) :
    Outcome faults (chunk vaddr size start prog next) s
      (found s size.toNat ≠ 0 ∧ (prog = true → found s size.toNat % 4 = 0)) (found s size.toNat) 1
      (placements (offsetOf s) (pageBase vaddr + start.toNat) (found s size.toNat))
      (next (BitVec.ofNat 16 (found s size.toNat))) := by
  have moved := moved_read size small made
  have limit : found s size.toNat ≤ size.toNat := Nat.min_le_left ..
  have length := readFile_found s size
  have offset := offsetOf_readInto .loadBuff size small
  have plays := play_read .loadBuff size
    (fun read => .assert (read ≠ 0) "read" <| loadIntoUserspace vaddr prog read start (next read)) sound
  generalize found s size.toNat = count at *
  have value : (BitVec.ofNat 16 count).toNat = count := by
    rw [BitVec.toNat_ofNat]
    omega
  have nonzero : decide (BitVec.ofNat 16 count ≠ 0) = true ↔ count ≠ 0 := by
    rw [decide_eq_true_iff]
    exact not_congr ⟨fun zero => by rw [← value, zero]; rfl, fun zero => by rw [zero]; rfl⟩
  have within : decide (start + BitVec.ofNat 16 count ≤ pageBytes) = true := by
    rw [decide_eq_true_iff, BitVec.le_def, word_add_toNat (by omega), value]
    exact Nat.le_trans (Nat.add_le_add_left limit _) fits
  have whole := multiple_iff prog (show count < 2 ^ 16 by omega)
  have fetched : (readInto s .loadBuff size).shared.buffers.first .loadBuff count =
      readFile (s.shared.call ()).file (s.shared.call ()).offset size := first_fill length
  have stored : (readInto s .loadBuff size).stores vaddr start
      (readFile (s.shared.call ()).file (s.shared.call ()).offset size) =
      placements (offsetOf s) (pageBase vaddr + start.toNat) count := by
    change placements (offsetOf (readInto s .loadBuff size) - _) _ _ = _
    rw [length, offset, Nat.add_sub_cancel]
    rfl
  constructor
  · rintro ⟨some, multiple⟩
    obtain ⟨s', moved', stores⟩ := play_store vaddr start prog
      (readFile (s.shared.call ()).file (s.shared.call ()).offset size) (next (BitVec.ofNat 16 count)) moved.made
    have both := moved.trans moved'
    rw [List.nil_append, stored] at both
    refine ⟨s', both, plays.trans ?_⟩
    rw [play_assert, if_pos (nonzero.2 some), loadIntoUserspace, play_assert, if_pos within, play_assert,
      if_pos (whole.2 multiple), value, play_fetch (by omega), fetched]
    exact stores
  · intro stops
    rw [chunk, plays, play_assert]
    split
    · rename_i some
      rw [loadIntoUserspace, play_assert, if_pos within, play_assert]
      split
      · rename_i multiple
        exact absurd ⟨nonzero.1 some, whole.1 multiple⟩ stops
      · exact fails_stop
    · exact fails_stop

end Chunk

def chunks (count : Nat) : Nat := (count + 0xff) / 0x100

structure Loads (faults : ReadFaults) (file : List Byte) (prog : Bool) (offset reads count : Nat) : Prop where
  inside : count ≠ 0 → offset + count ≤ file.length
  whole : prog = true → count % 4 = 0
  sound : ∀ j < chunks count, faults (reads + j) = none

section Pages

variable {faults : ReadFaults} {vaddr endAddr : Word} {prog : Bool} {next : Load} {s : FaultyLoad}

theorem chunks_step {count : Nat} (positive : count ≠ 0) : chunks count = 1 + chunks (count - min 0x100 count) := by
  unfold chunks
  omega

theorem loads_zero {file : List Byte} {offset reads : Nat} : Loads faults file prog offset reads 0 :=
  ⟨fun positive => absurd rfl positive, fun _ => rfl, fun _ none => absurd none (Nat.not_lt_zero _)⟩

theorem loads_step (prog : Bool) (file : List Byte) (offset : Nat) {reads count : Nat} (positive : count ≠ 0)
    (sound : faults reads = none) : Loads faults file prog offset reads count ↔
      (min (min 0x100 count) (file.length - offset) ≠ 0 ∧
        (prog = true → min (min 0x100 count) (file.length - offset) % 4 = 0)) ∧
      Loads faults file prog (offset + min (min 0x100 count) (file.length - offset)) (reads + 1)
        (count - min (min 0x100 count) (file.length - offset)) := by
  have steps := chunks_step positive
  constructor
  · intro loads
    have inside := loads.inside positive
    have all : min (min 0x100 count) (file.length - offset) = min 0x100 count := by omega
    rw [all]
    refine ⟨⟨by omega, fun code => ?_⟩, fun _ => by omega, fun code => ?_, fun j below => ?_⟩
    · have multiple := loads.whole code
      omega
    · have multiple := loads.whole code
      omega
    · rw [Nat.add_assoc, Nat.add_comm 1 j]
      exact loads.sound (j + 1) (by omega)
  · rintro ⟨⟨some, code⟩, rest⟩
    by_cases all : min (min 0x100 count) (file.length - offset) = min 0x100 count
    · rw [all] at code rest
      refine ⟨fun _ => ?_, fun prog_eq => ?_, fun j below => ?_⟩
      · by_cases last : count - min 0x100 count = 0
        · omega
        · have inside := rest.inside last
          omega
      · have first := code prog_eq
        have second := rest.whole prog_eq
        omega
      · cases j with
        | zero => exact sound
        | succ j =>
          rw [Nat.add_comm j 1, ← Nat.add_assoc]
          exact rest.sound j (by omega)
    · have inside := rest.inside (by omega)
      omega

theorem outcome_loadToPageLoop (last : endAddr.toNat < 0x1000) (fuel : Nat) {mAddr : Word}
    (small : (fileOf s).length < 2 ^ 16) (made : Made s) (enough : endAddr.toNat + 1 - mAddr.toNat ≤ fuel) :
    Outcome faults (loadToPageLoop endAddr vaddr prog next fuel mAddr) s
      (Loads faults (fileOf s) prog (offsetOf s) s.reads (endAddr.toNat + 1 - mAddr.toNat))
      (endAddr.toNat + 1 - mAddr.toNat) (chunks (endAddr.toNat + 1 - mAddr.toNat))
      (placements (offsetOf s) (pageBase vaddr + mAddr.toNat) (endAddr.toNat + 1 - mAddr.toNat)) next := by
  induction fuel generalizing mAddr s with
  | zero =>
    have finished : endAddr.toNat + 1 - mAddr.toNat = 0 := by omega
    rw [finished]
    exact (Outcome.refl made).iff (iff_true_intro loads_zero)
  | succ fuel ih =>
    unfold loadToPageLoop
    by_cases more : mAddr ≤ endAddr
    · have order : mAddr.toNat ≤ endAddr.toNat := more
      have size := readSize_toNat more last
      rw [if_pos more]
      generalize wordMin loadBuffSize (endAddr - mAddr + 1) = size' at size
      change Outcome faults (chunk vaddr size' mAddr prog fun read =>
        loadToPageLoop endAddr vaddr prog next fuel (mAddr + read)) s _ _ _ _ next
      have positive : endAddr.toNat + 1 - mAddr.toNat ≠ 0 := by omega
      cases fault : faults s.reads with
      | some error =>
        refine ⟨fun loads => ?_, fun _ => chunk_error fault⟩
        have sound := loads.sound 0 (by rw [chunks_step positive]; omega)
        rw [Nat.add_zero, fault] at sound
        cases sound
      | none =>
        have first := outcome_chunk vaddr prog (fun read => loadToPageLoop endAddr vaddr prog next fuel (mAddr + read))
          small made fault (show size'.toNat ≤ 0x100 by omega) (show mAddr.toNat + size'.toNat ≤ 0x1000 by omega)
        have count : found s size'.toNat =
            min (min 0x100 (endAddr.toNat + 1 - mAddr.toNat)) ((fileOf s).length - offsetOf s) := by
          rw [found, size]
        have step := loads_step prog (fileOf s) (offsetOf s) positive fault
        rw [← count] at step
        generalize found s size'.toNat = got at first count step
        have next_toNat : (mAddr + BitVec.ofNat 16 got).toNat = mAddr.toNat + got := by
          rw [BitVec.toNat_add, BitVec.toNat_ofNat]
          omega
        have remaining : endAddr.toNat + 1 - (mAddr.toNat + got) = endAddr.toNat + 1 - mAddr.toNat - got := by omega
        by_cases some : got = 0
        · refine ⟨fun loads => absurd some (step.1 loads).1.1, fun _ => first.fails fun both => both.1 some⟩
        · have whole : Outcome faults _ s (_ ∧ Loads faults (fileOf s) prog (offsetOf s + got) (s.reads + 1)
              (endAddr.toNat + 1 - mAddr.toNat - got)) _ _ _ next := first.seq fun s' moved => by
            have short : (fileOf s').length < 2 ^ 16 := by rw [moved.file]; exact small
            have enough' : endAddr.toNat + 1 - (mAddr + BitVec.ofNat 16 got).toNat ≤ fuel := by
              rw [next_toNat]
              omega
            have rest := ih short moved.made enough'
            rw [next_toNat, remaining, moved.file, moved.offset, moved.reads, ← Nat.add_assoc] at rest
            exact rest
          by_cases all : got = min 0x100 (endAddr.toNat + 1 - mAddr.toNat)
          · have length : got + (endAddr.toNat + 1 - mAddr.toNat - got) = endAddr.toNat + 1 - mAddr.toNat := by omega
            have reads : 1 + chunks (endAddr.toNat + 1 - mAddr.toNat - got) =
                chunks (endAddr.toNat + 1 - mAddr.toNat) := by rw [chunks_step positive, ← all]
            rw [placements_append, length, reads] at whole
            exact whole.iff step
          · -- fewer bytes than asked for are the last ones of the file
            refine ⟨fun loads => ?_, fun stops => whole.fails fun both => stops (step.2 both)⟩
            have inside := loads.inside positive
            omega
    · have finished : endAddr.toNat + 1 - mAddr.toNat = 0 := by
        have order : ¬mAddr.toNat ≤ endAddr.toNat := more
        omega
      rw [if_neg more, finished]
      exact (Outcome.refl made).iff (iff_true_intro loads_zero)

theorem outcome_loadToPage (off : Word) (last : endAddr.toNat < 0x1000)
    (small : (fileOf s).length < 2 ^ 16) (made : Made s) : Outcome faults (loadToPage off endAddr vaddr prog next) s
      (Loads faults (fileOf s) prog (offsetOf s) s.reads (endAddr.toNat + 1 - off.toNat))
      (endAddr.toNat + 1 - off.toNat) (chunks (endAddr.toNat + 1 - off.toNat))
      (placements (offsetOf s) (pageBase vaddr + off.toNat) (endAddr.toNat + 1 - off.toNat)) next := by
  obtain ⟨s', moved, plays⟩ := play_physPageToLoad vaddr prog made
  have within : decide (endAddr < pageBytes) = true := decide_eq_true (BitVec.lt_def.2 last)
  have short : (fileOf s').length < 2 ^ 16 := by rw [moved.file]; exact small
  have offset : offsetOf s' = offsetOf s := moved.offset
  have reads : s'.reads = s.reads := moved.reads
  rw [← moved.file, ← offset, ← reads]
  refine .after moved ?_ (outcome_loadToPageLoop last pageSize short moved.made ?_)
  · rw [loadToPage, plays, play_assert, if_pos within]
  · change endAddr.toNat + 1 - off.toNat ≤ 0x1000
    omega

end Pages

def readsOf (calls : List PageCall) : Nat := (calls.map fun c => chunks c.count).sum

def bytesPlaced (offset : Nat) : List PageCall → List (Nat × Nat)
  | [] => []
  | c :: calls => placements offset c.address c.count ++ bytesPlaced (offset + c.count) calls

structure CallsLoad (faults : ReadFaults) (file : List Byte) (prog : Bool) (offset reads : Nat)
    (calls : List PageCall) : Prop where
  inside : countOf calls ≠ 0 → offset + countOf calls ≤ file.length
  whole : prog = true → ∀ c ∈ calls, c.count % 4 = 0
  sound : ∀ j < readsOf calls, faults (reads + j) = none

section Calls

variable {faults : ReadFaults} {file : List Byte} {prog : Bool} {offset reads : Nat} {c : PageCall}
  {calls : List PageCall} {next : Load} {s : FaultyLoad}

theorem readsOf_cons : readsOf (c :: calls) = chunks c.count + readsOf calls := by simp [readsOf]

theorem callsLoad_nil : CallsLoad faults file prog offset reads [] :=
  ⟨fun positive => absurd rfl positive, fun _ _ member => absurd member List.not_mem_nil,
    fun _ none => absurd none (Nat.not_lt_zero _)⟩

theorem callsLoad_cons : CallsLoad faults file prog offset reads (c :: calls) ↔
    Loads faults file prog offset reads c.count ∧
      CallsLoad faults file prog (offset + c.count) (reads + chunks c.count) calls := by
  constructor
  · rintro ⟨inside, whole, sound⟩
    rw [countOf_cons] at inside
    rw [readsOf_cons] at sound
    refine ⟨⟨fun positive => ?_, fun code => whole code c List.mem_cons_self, fun j below => sound j (by omega)⟩,
      fun positive => ?_, fun code c' member => whole code c' (List.mem_cons_of_mem c member), fun j below => ?_⟩
    · have all := inside (by omega)
      omega
    · have all := inside (by omega)
      omega
    · rw [Nat.add_assoc]
      exact sound _ (by omega)
  · rintro ⟨first, rest⟩
    refine ⟨fun positive => ?_, fun code c' member => ?_, fun j below => ?_⟩
    · rw [countOf_cons] at positive ⊢
      by_cases none : countOf calls = 0
      · have inside := first.inside (by omega)
        omega
      · have inside := rest.inside none
        omega
    · rcases List.mem_cons.1 member with rfl | later
      · exact first.whole code
      · exact rest.whole code c' later
    · rw [readsOf_cons] at below
      by_cases early : j < chunks c.count
      · exact first.sound j early
      · have later := rest.sound (j - chunks c.count) (by omega)
        have place : reads + chunks c.count + (j - chunks c.count) = reads + j := by omega
        rwa [place] at later

theorem outcome_loadCalls (last : ∀ c ∈ calls, c.endAddr.toNat < 0x1000) (small : (fileOf s).length < 2 ^ 16)
    (made : Made s) :
    Outcome faults (loadCalls prog calls next) s (CallsLoad faults (fileOf s) prog (offsetOf s) s.reads calls)
      (countOf calls) (readsOf calls) (bytesPlaced (offsetOf s) calls) next := by
  induction calls generalizing s with
  | nil => exact (Outcome.refl made).iff (iff_true_intro callsLoad_nil)
  | cons c calls ih =>
    rw [countOf_cons, readsOf_cons]
    refine Outcome.iff (Outcome.seq (outcome_loadToPage c.off (last c List.mem_cons_self) small made) ?_) callsLoad_cons
    intro s' moved
    have rest := ih (fun c' member => last c' (List.mem_cons_of_mem c member))
      (show (fileOf s').length < 2 ^ 16 by rw [moved.file]; exact small) moved.made
    rw [moved.file, moved.offset, moved.reads] at rest
    exact rest

end Calls

section Segment

variable {memSize vaddr : Word} {faults : ReadFaults} {prog : Bool} {next : Word → Load} {s : FaultyLoad}

theorem outcome_loadFilePart (header : getU16 (s.shared.buffers.first .phBuff 32) phOffVaddr = vaddr)
    (small : (fileOf s).length < 2 ^ 16) (made : Made s) : Outcome faults (loadFilePart prog memSize vaddr next) s
      (CallsLoad faults (fileOf s) prog (offsetOf s) s.reads (segmentCalls memSize vaddr))
      (countOf (segmentCalls memSize vaddr)) (readsOf (segmentCalls memSize vaddr))
      (bytesPlaced (offsetOf s) (segmentCalls memSize vaddr)) (next (afterSegment memSize vaddr)) := by
  by_cases empty : memSize = 0
  · simp only [loadFilePart, segmentCalls, afterSegment, if_pos empty]
    exact (Outcome.refl made).iff (iff_true_intro callsLoad_nil)
  · obtain ⟨later, script, looked⟩ := @loadFilePart_eq memSize vaddr prog next empty
    rw [script, segmentCalls, if_neg empty, countOf_cons, readsOf_cons]
    refine Outcome.iff (Outcome.seq (outcome_loadToPage _ firstCall_last small made) ?_) callsLoad_cons
    intro s' moved
    have short : (fileOf s').length < 2 ^ 16 := by rw [moved.file]; exact small
    have rest := @outcome_loadCalls faults prog (laterCalls memSize vaddr) (next (afterSegment memSize vaddr)) s'
      laterCalls_last short moved.made
    rw [moved.file, moved.offset, moved.reads] at rest
    refine .after (.refl moved.made) ?_ rest
    rw [List.foldr_nil, show phSize.toNat = 32 from rfl, play_fetch (by simp), moved.ph, looked _ header]

end Segment

end PiOS.Proof.ElfPages
