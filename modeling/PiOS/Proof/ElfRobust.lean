import PiOS.Proof.ElfPlacement

namespace PiOS.Proof.ElfRobust
open Kernel Transition ElfImage ElfPages ElfPlacement

structure Walk where
  offset : Nat
  ph : List Byte
  reads : Nat

namespace Walk

variable (faults : ReadFaults) (file : List Byte) (w : Walk)

def header : Walk :=
  match faults w.reads with
  | some _ => { w with reads := w.reads + 1 }
  | none =>
    let data := (file.drop w.offset).take 32
    ⟨w.offset + data.length, data ++ w.ph.drop data.length, w.reads + 1⟩

def calls : List PageCall := segmentCalls (getU16 w.ph phOffFilesz) (getU16 w.ph phOffVaddr)

def start : Nat := soughtFrom w.offset (getU16 w.ph phOffOffset)

def Loads : Prop := CallsLoad faults file (segmentOf w.ph).prog w.start w.reads w.calls

def behind : Walk :=
  { w with
    offset := if w.offset < 0x8000 then w.offset else w.start + countOf w.calls
    reads := w.reads + readsOf w.calls }

end Walk

def TableLoads (faults : ReadFaults) (file : List Byte) : Nat → Walk → Prop
  | 0, _ => True
  | count + 1, w =>
    let w := w.header faults file
    if getU16 w.ph phOffType = 1 then w.Loads faults file ∧ TableLoads faults file count w.behind
    else TableLoads faults file count w

def Accepted (faults : ReadFaults) (file : List Byte) : Prop :=
  faults 0 = none ∧ 56 ≤ file.length ∧ elfHeaderValid (file.take 56) = true

/-- The header is refused, or all segments that `load_ph` finds can be loaded. `ph` is what `ph_buff` held
before. -/
def FileLoads (faults : ReadFaults) (file ph : List Byte) : Prop :=
  Accepted faults file →
    TableLoads faults file (phnum file) ⟨soughtFrom 56 (getU16 (file.take 56) ehOffPhoff), ph, 1⟩

/-- `elf_load` returns `NULL` and the kernel is as it was, or it returns a process. -/
def Robust (faults : ReadFaults) (k : KernelState) (buffers : Buffers) (file : List Byte) (stale : Proc) : Prop :=
  ∃ result s', elfLoad.Ends (serveFaulty faults) (faultyStart k buffers file stale) result s' ∧
    (result = .null ∧ s'.shared.kernel = k ∨ result = .proc)

structure Finishes (faults : ReadFaults) (script : Load) (s : FaultyLoad) (fits : Prop) : Prop where
  returns : fits → ∃ s', play faults script s = some (.proc, s')
  fails : ¬fits → Fails (play faults script s)

section Finishes

variable {faults : ReadFaults} {script next : Load} {s s' : FaultyLoad} {fits fits' : Prop}

theorem Finishes.after (plays : play faults script s = play faults next s') (finishes : Finishes faults next s' fits) :
    Finishes faults script s fits := by
  constructor
  · rw [plays]
    exact finishes.returns
  · rw [plays]
    exact finishes.fails

theorem Outcome.finishes {count reads : Nat} {placed : List (Nat × Nat)}
    (outcome : Outcome faults script s fits count reads placed next)
    (rest : ∀ s', Moved s s' count reads placed → Finishes faults next s' fits') :
    Finishes faults script s (fits ∧ fits') := by
  constructor
  · rintro ⟨holds, holds'⟩
    obtain ⟨s', moved, plays⟩ := outcome.goes holds
    rw [plays]
    exact (rest s' moved).returns holds'
  · intro not_both
    by_cases holds : fits
    · obtain ⟨s', moved, plays⟩ := outcome.goes holds
      rw [plays]
      exact (rest s' moved).fails fun holds' => not_both ⟨holds, holds'⟩
    · exact outcome.fails holds

end Finishes

def Cleared (s s' : FaultyLoad) : Prop := ∃ placed, Moved s s' 0 0 placed

section Bss

variable {faults : ReadFaults} {next : Load} {s : FaultyLoad}

theorem play_zeroPage (vaddr : Word) {len : Word} (fits : vaddr.toNat % 0x1000 + len.toNat ≤ 0x1000) (made : Made s) :
    ∃ s', Cleared s s' ∧ play faults (zeroPage (vaddr % pageBytes) len vaddr next) s = play faults next s' := by
  obtain ⟨s', moved, plays⟩ := play_physPageToLoad vaddr false made
  obtain ⟨s'', moved', stores⟩ := play_store vaddr (vaddr % pageBytes) false
    (if len = 0 then [] else List.replicate (len.toNat + 1) 0) next moved.made
  have start := @start_toNat vaddr
  have within : decide (vaddr % pageBytes + len ≤ pageBytes) = true := by
    rw [decide_eq_true_iff, BitVec.le_def, word_add_toNat (by omega), start]
    exact fits
  refine ⟨s'', ⟨_, moved.trans moved'⟩, ?_⟩
  rw [zeroPage, plays, play_assert, if_pos within]
  exact stores

theorem play_loadBss (bssEnd : Word) (fuel : Nat) (vaddr : Word) (made : Made s) :
    ∃ s', Cleared s s' ∧ play faults (loadBss bssEnd next fuel vaddr) s = play faults next s' := by
  induction fuel generalizing vaddr s with
  | zero => exact ⟨s, ⟨[], .refl made⟩, rfl⟩
  | succ fuel ih =>
    unfold loadBss
    split
    · have size : (wordMin (pageBytes - vaddr % pageBytes) (bssEnd - vaddr)).toNat ≤ 0x1000 - vaddr.toNat % 0x1000 := by
        rw [wordMin_toNat, room_toNat]
        exact Nat.min_le_left ..
      obtain ⟨s', ⟨placed, moved⟩, plays⟩ := play_zeroPage vaddr
        (show vaddr.toNat % 0x1000 + (wordMin (pageBytes - vaddr % pageBytes) (bssEnd - vaddr)).toNat ≤ 0x1000 by omega)
        made
      obtain ⟨s'', ⟨placed', moved'⟩, plays'⟩ := ih _ moved.made
      exact ⟨s'', ⟨_, moved.trans moved'⟩, plays.trans plays'⟩
    · exact ⟨s, ⟨[], .refl made⟩, rfl⟩

end Bss

structure Stands (file : List Byte) (w : Walk) (s : FaultyLoad) : Prop where
  file_eq : fileOf s = file
  offset : offsetOf s = w.offset
  reads : s.reads = w.reads
  header : s.shared.buffers.first .buff 56 = file.take 56
  ph : headerOf s = w.ph
  made : Made s

section Table

variable {faults : ReadFaults} {file : List Byte} {w : Walk} {s : FaultyLoad} {next : Word → Load}

theorem Stands.seek (stands : Stands file w s) (target : Word) :
    Stands file { w with offset := soughtFrom w.offset target } (seekTo s target) where
  file_eq := (fileOf_seekTo target).trans stands.file_eq
  offset := by rw [offsetOf_seekTo, stands.offset]
  reads := stands.reads
  header := by rw [buffers_seekTo]; exact stands.header
  ph := by rw [headerOf, buffers_seekTo]; exact stands.ph
  made := made_seekTo stands.made target

theorem Stands.moved {s' : FaultyLoad} {count reads : Nat} {placed : List (Nat × Nat)} (stands : Stands file w s)
    (moved : Moved s s' count reads placed) :
    Stands file { w with offset := w.offset + count, reads := w.reads + reads } s' where
  file_eq := moved.file.trans stands.file_eq
  offset := by rw [moved.offset, stands.offset]
  reads := by rw [moved.reads, stands.reads]
  header := moved.header.trans stands.header
  ph := moved.ph.trans stands.ph
  made := moved.made

theorem finishes_loadSegment {fits : Prop} (small : file.length < 2 ^ 16) (stands : Stands file w s) (brk : Word)
    (rest : ∀ s' brk', Stands file { w with offset := w.start + countOf w.calls, reads := w.reads + readsOf w.calls } s' →
      Finishes faults (next brk') s' fits) :
    Finishes faults (loadSegment w.ph brk next) s (w.Loads faults file ∧ fits) := by
  have stands' := stands.seek (getU16 w.ph phOffOffset)
  have header : getU16 ((seekTo s (getU16 w.ph phOffOffset)).shared.buffers.first .phBuff 32) phOffVaddr =
      getU16 w.ph phOffVaddr := congrArg (getU16 · phOffVaddr) stands'.ph
  have short : (fileOf (seekTo s (getU16 w.ph phOffOffset))).length < 2 ^ 16 := by
    rw [stands'.file_eq]
    exact small
  have loads : w.Loads faults file ↔ CallsLoad faults (fileOf (seekTo s (getU16 w.ph phOffOffset)))
      (getU16 w.ph phOffFlags &&& 1 ≠ 0) (offsetOf (seekTo s (getU16 w.ph phOffOffset)))
      (seekTo s (getU16 w.ph phOffOffset)).reads w.calls := by
    rw [stands'.file_eq, stands'.offset, stands'.reads, prog_segmentOf]
    rfl
  refine .after (play_seek _ _) ?_
  rw [loads]
  refine Outcome.finishes (outcome_loadFilePart header short stands'.made) fun s' moved => ?_
  have stands'' := stands'.moved moved
  split
  · obtain ⟨s'', ⟨placed, cleared⟩, plays⟩ := play_loadBss (getU16 w.ph phOffVaddr + getU16 w.ph phOffMemsz) 17 _ moved.made
    exact .after plays (rest s'' _ (stands''.moved cleared))
  · exact rest s' _ stands''

theorem first_fill_over {buffers : Buffers} {b : Buffer} {data : List Byte} {count : Nat} (most : data.length ≤ count) :
    (buffers.fill b data).first b count = data ++ (buffers.first b count).drop data.length := by
  apply List.ext_getElem
  · simp [Buffers.first]
    omega
  · intro n inside inside'
    have below : n < count := by simpa [Buffers.first] using inside
    by_cases early : n < data.length
    · simp [Buffers.first, Buffers.fill, List.getD_eq_getElem?_getD, List.getElem?_eq_getElem early,
        List.getElem_append_left early]
    · have place : data.length + (n - data.length) = n := by omega
      simp [Buffers.first, Buffers.fill, List.getD_eq_getElem?_getD, List.getElem?_eq_none (Nat.le_of_not_lt early),
        List.getElem_append_right (Nat.le_of_not_lt early), place]

theorem play_header (small : file.length < 2 ^ 16) (stands : Stands file w s) :
    ∃ s', Stands file (w.header faults file) s' ∧
      ∀ next : Load, play faults (.vfsReadBlocking .phBuff phSize fun _ => next) s = play faults next s' := by
  have size : phSize.toNat = 32 := rfl
  unfold Walk.header
  cases fault : faults w.reads with
  | some error =>
    rw [← stands.reads] at fault
    refine ⟨{ s with reads := s.reads + 1 }, ⟨stands.file_eq, stands.offset, ?_, stands.header, stands.ph,
      stands.made⟩, fun next => play_read_error fault⟩
    exact congrArg (· + 1) stands.reads
  | none =>
    rw [← stands.reads] at fault
    have data : readFile (s.shared.call ()).file (s.shared.call ()).offset phSize =
        (file.drop w.offset).take 32 := by
      rw [readFile, size, ← stands.file_eq, ← stands.offset]
      rfl
    have length : ((file.drop w.offset).take 32).length = found s phSize.toNat := by
      rw [← data, readFile_found]
    have short : (fileOf s).length < 2 ^ 16 := by
      rw [stands.file_eq]
      exact small
    refine ⟨readInto s .phBuff phSize, ⟨stands.file_eq, ?_, ?_, ?_, ?_, stands.made⟩, fun next => play_read _ _ _ fault⟩
    · rw [offsetOf_readInto .phBuff phSize short, stands.offset]
      exact congrArg (w.offset + ·) length.symm
    · exact congrArg (· + 1) stands.reads
    · exact (first_fill_of_ne (by decide)).trans stands.header
    · change (s.shared.buffers.fill .phBuff (readFile _ _ _)).first .phBuff 32 = _
      have most : ((file.drop w.offset).take 32).length ≤ 32 := List.length_take_le ..
      rw [data, first_fill_over most]
      exact congrArg (_ ++ List.drop _ ·) stands.ph

theorem play_seekCur (next : Word → Load) :
    play faults (.vfsSeekCur next) s = play faults (next (s.shared.call ()).offset) s := by
  have served : serveFaulty faults s .vfsSeekCur = some ((s.shared.call ()).offset, s) := rfl
  exact play_op served

theorem finishes_setLoadBrk (made : Made s) (brk : Word) : Finishes faults (.setLoadBrk brk <| .done .proc) s True := by
  obtain ⟨c, p, child⟩ := made.childOf
  have served : serveFaulty faults s (.setLoadBrk brk) = some ((), { s with shared := { s.shared with
      kernel := s.shared.kernel.modifyProc c fun p => { p with loadBrk := brk } } }) := by
    simp only [serveFaulty, serveLoad, child, Option.map_some]
    rfl
  exact ⟨fun _ => ⟨_, play_op served⟩, fun never => absurd trivial never⟩

theorem finishes_loadPh (small : file.length < 2 ^ 16) (fuel count : Nat) {i brk : Word} {w : Walk} {s : FaultyLoad}
    (stands : Stands file w s) (total : i.toNat + count = phnum file) (enough : count ≤ fuel) :
    Finishes faults (loadPh fuel i brk) s (TableLoads faults file count w) := by
  induction fuel generalizing count i brk w s with
  | zero =>
    obtain rfl : count = 0 := by omega
    exact finishes_setLoadBrk stands.made brk
  | succ fuel ih =>
    have inside : ¬(Buffer.buff = .loadBuff ∧ 0x100 < elfHeaderSize.toNat) := fun both => nomatch both.1
    refine .after (play_fetch inside) ?_
    have header : s.shared.buffers.first .buff elfHeaderSize.toNat = file.take 56 := stands.header
    rw [header]
    cases count with
    | zero =>
      have last : ¬i < getU16 (file.take 56) ehOffPhnum := by
        rw [BitVec.lt_def]
        exact Nat.not_lt.2 (Nat.le_of_eq total.symm)
      rw [if_neg last]
      exact finishes_setLoadBrk stands.made brk
    | succ count =>
      have more : i < getU16 (file.take 56) ehOffPhnum := by
        rw [BitVec.lt_def]
        change i.toNat < phnum file
        omega
      have next_i : (i + 1).toNat = i.toNat + 1 := by
        have below : phnum file < 0x10000 := (getU16 (file.take 56) ehOffPhnum).isLt
        have one : (1 : Word).toNat = 1 := rfl
        rw [word_add_toNat (by omega), one]
      obtain ⟨s', stands', plays⟩ := play_header small stands
      rw [if_pos more]
      refine .after (plays _) (.after (play_seekCur _) ?_)
      have inside' : ¬(Buffer.phBuff = .loadBuff ∧ 0x100 < phSize.toNat) := fun both => nomatch both.1
      refine .after (play_fetch inside') ?_
      have ph : s'.shared.buffers.first .phBuff phSize.toNat = (w.header faults file).ph := stands'.ph
      rw [ph]
      have back : (s'.shared.call ()).offset.toNat = (w.header faults file).offset := stands'.offset
      generalize (s'.shared.call ()).offset = nextPh at back
      unfold TableLoads
      generalize w.header faults file = v at stands' back
      dsimp only
      split
      · refine finishes_loadSegment small stands' brk fun s'' brk' stands'' => ?_
        refine .after (play_seek _ _) (ih count ?_ (by omega) (by omega))
        have returned := stands''.seek nextPh
        rw [soughtFrom, back] at returned
        exact returned
      · refine .after (play_seek _ _) (ih count ?_ (by omega) (by omega))
        have returned := stands'.seek nextPh
        rw [soughtFrom, back, ite_self] at returned
        exact returned

end Table

section Load

variable {faults : ReadFaults} {k k' : KernelState} {buffers : Buffers} {file : List Byte} {stale : Proc}

theorem schedInitUserThread_length (made : schedInitUserThread k stale = .ok k') :
    k'.procs.length = k.procs.length + 1 := by
  unfold schedInitUserThread at made
  obtain ⟨out, -, made⟩ := bind_eq_ok.mp made
  obtain ⟨node, -, made⟩ := bind_eq_ok.mp made
  cases made
  exact List.length_append

theorem finishes_newProcess {s : FaultyLoad} {fits : Prop} {next : Load} {w : Walk}
    (room : schedInitUserThread s.shared.kernel (s.shared.call ()).stale = .ok k') (pc : Word)
    (file_eq : fileOf s = file) (offset : offsetOf s = w.offset) (reads : s.reads = w.reads)
    (header : s.shared.buffers.first .buff 56 = file.take 56) (ph : headerOf s = w.ph)
    (rest : ∀ s', Stands file w s' → Finishes faults next s' fits) :
    Finishes faults (.schedInitUserThread <| .setPc pc next) s fits := by
  have served : serveFaulty faults s .schedInitUserThread = some ((), { s with shared :=
      { s.shared.setCall () { s.shared.call () with child := some s.shared.kernel.procs.length } with
        kernel := k' } }) := by
    simp only [serveFaulty, serveLoad, room]
    rfl
  refine .after (play_op served) ?_
  have stands : Stands file w { s with shared :=
      { s.shared.setCall () { s.shared.call () with child := some s.shared.kernel.procs.length } with
        kernel := k' } } :=
    ⟨file_eq, offset, reads, header, ph, s.shared.kernel.procs.length, rfl,
      by rw [schedInitUserThread_length room]; exact Nat.lt_succ_self _⟩
  generalize ({ s with shared := _ } : FaultyLoad) = s' at stands
  obtain ⟨c, p, child⟩ := stands.made.childOf
  have served' : serveFaulty faults s' (.setPc pc) = some ((), { s' with shared := { s'.shared with
      kernel := s'.shared.kernel.modifyProc c fun p => { p with procState := { p.procState with pc := pc } } } }) := by
    simp only [serveFaulty, serveLoad, child, Option.map_some]
    rfl
  refine .after (play_op served') (rest _ ?_)
  have moved := Moved.kernel stands.made (modifyProc_length s'.shared.kernel c fun p =>
    { p with procState := { p.procState with pc := pc } }) []
  rw [List.append_nil] at moved
  exact stands.moved moved

theorem robust_of_null {s' : FaultyLoad} (plays : play faults elfLoad (faultyStart k buffers file stale) = some (.null, s'))
    (same : s'.shared.kernel = k) : Robust faults k buffers file stale :=
  ⟨.null, s', Script.play_eq_some.1 plays, Or.inl ⟨rfl, same⟩⟩

theorem robust_iff_of_finishes {fits : Prop} (finishes : Finishes faults elfLoad (faultyStart k buffers file stale) fits) :
    Robust faults k buffers file stale ↔ fits := by
  constructor
  · rintro ⟨result, s', ends, good⟩
    by_contra fails
    obtain ⟨stop, rfl⟩ := finishes.fails fails _ _ (Script.play_eq_some.2 ends)
    rcases good with ⟨null, -⟩ | proc
    · cases null
    · cases proc
  · intro holds
    obtain ⟨s', plays⟩ := finishes.returns holds
    exact ⟨.proc, s', Script.play_eq_some.1 plays, Or.inr rfl⟩

theorem elf_load_robust_iff (small : file.length < 2 ^ 16) (room : schedInitUserThread k stale = .ok k') :
    Robust faults k buffers file stale ↔ FileLoads faults file (buffers.first .phBuff 32) := by
  unfold FileLoads
  cases fault : faults 0 with
  | some error =>
    have refused : ¬Accepted faults file := fun accepted => by rw [accepted.1] at fault; cases fault
    have other : error.val ≠ elfHeaderSize := by
      intro same
      have negative := error.property
      rw [same] at negative
      exact absurd negative (by decide)
    have plays : play faults elfLoad (faultyStart k buffers file stale) =
        some (.null, { faultyStart k buffers file stale with reads := 1 }) := by
      rw [elfLoad, play_read_error fault, if_pos other]
      rfl
    exact iff_of_true (robust_of_null plays rfl) fun accepted => absurd accepted refused
  | none =>
    have reads := play_read .buff elfHeaderSize (fun read => if read ≠ elfHeaderSize then .done .null else
      .fetch .buff elfHeaderSize.toNat fun buff => if elfHeaderValid buff then
        .schedInitUserThread <| .setPc (getU16 buff ehOffEntry) <| .vfsSeekSet (getU16 buff ehOffPhoff) <|
          loadPh (2 ^ 16) 0 0 else .done .null)
      (show faults (faultyStart k buffers file stale).reads = none from fault)
    have size : elfHeaderSize.toNat = 56 := rfl
    have count : found (faultyStart k buffers file stale) 56 = min 56 file.length := rfl
    rw [size, count] at reads
    by_cases short : file.length < 56
    · have other : BitVec.ofNat 16 (min 56 file.length) ≠ elfHeaderSize := by
        intro same
        have value := congrArg BitVec.toNat same
        rw [BitVec.toNat_ofNat, size] at value
        omega
      rw [if_pos other] at reads
      exact iff_of_true (robust_of_null reads rfl) fun accepted => absurd accepted.2.1 (Nat.not_le.2 short)
    · have whole : min 56 file.length = 56 := by omega
      have data : readFile file 0 elfHeaderSize = file.take 56 := rfl
      have length : (file.take 56).length = 56 := by
        rw [List.length_take]
        exact whole
      have fetched : (readInto (faultyStart k buffers file stale) .buff elfHeaderSize).shared.buffers.first .buff 56 =
          file.take 56 := first_fill length
      have inside : ¬(Buffer.buff = .loadBuff ∧ 0x100 < 56) := fun both => nomatch both.1
      have same : ¬BitVec.ofNat 16 56 ≠ elfHeaderSize := fun other => other rfl
      rw [whole, if_neg same, play_fetch inside, fetched] at reads
      by_cases valid : elfHeaderValid (file.take 56) = true
      · have accepted : Accepted faults file := ⟨fault, by omega, valid⟩
        rw [if_pos valid] at reads
        rw [robust_iff_of_finishes (.after reads (finishes_newProcess (w := ⟨56, buffers.first .phBuff 32, 1⟩) room _
          rfl ?_ rfl fetched (first_fill_of_ne (by decide)) fun s' stands => .after (play_seek _ _)
            (finishes_loadPh small (2 ^ 16) (phnum file) (stands.seek _) (by simp) ?_)))]
        · exact ⟨fun loads _ => loads, fun loads => loads accepted⟩
        · change (0 + BitVec.ofNat 16 (readFile file 0 elfHeaderSize).length).toNat = 56
          rw [data, length]
          rfl
        · exact Nat.le_of_lt (getU16 (file.take 56) ehOffPhnum).isLt
      · rw [if_neg valid] at reads
        exact iff_of_true (robust_of_null reads rfl) fun accepted => absurd accepted.2.2 valid

end Load

def cutOff : List Byte := ElfLoad.elfHeader 1 ++ ElfLoad.loadHeader 88 0x10 4 4 6 ++ [1, 2]

def whole : List Byte := cutOff ++ [3, 4]

theorem elf_load_robust_iff_whole : Accepted (fun _ => none) whole ∧ phnum whole = 1 ∧
    Robust (fun _ => none) Loads.callersState.kernel noBytes whole .zero ∧
      FileLoads (fun _ => none) whole (noBytes.first .phBuff 32) := by
  obtain ⟨k, made⟩ := ElfLoad.child_made
  have observed : (elfLoad.play (serveFaulty fun _ => none)
      (faultyStart Loads.callersState.kernel noBytes whole .zero)).map (·.1) = some .proc := by
    decide +kernel
  obtain ⟨⟨result, s'⟩, plays, rfl⟩ := Option.map_eq_some_iff.1 observed
  have robust : Robust (fun _ => none) Loads.callersState.kernel noBytes whole .zero :=
    ⟨.proc, s', Script.play_eq_some.1 plays, Or.inr rfl⟩
  exact ⟨⟨rfl, by decide, by decide +kernel⟩, by decide +kernel, robust, (elf_load_robust_iff (by decide) made).1 robust⟩

theorem cut_off_asserts :
    (∃ s', elfLoad.Ends (serveFaulty fun _ => none) (faultyStart Loads.callersState.kernel noBytes cutOff .zero)
        (.stop (.assertion "read")) s') ∧
      ¬Robust (fun _ => none) Loads.callersState.kernel noBytes cutOff .zero := by
  have observed : (elfLoad.play (serveFaulty fun _ => none)
      (faultyStart Loads.callersState.kernel noBytes cutOff .zero)).map (·.1) = some (.stop (.assertion "read")) := by
    decide +kernel
  obtain ⟨⟨result, s'⟩, plays, rfl⟩ := Option.map_eq_some_iff.1 observed
  refine ⟨⟨s', Script.play_eq_some.1 plays⟩, ?_⟩
  rintro ⟨result, s'', ends, good⟩
  have plays' := Script.play_eq_some.2 ends
  rw [plays] at plays'
  cases plays'
  rcases good with ⟨null, -⟩ | proc
  · cases null
  · cases proc

end PiOS.Proof.ElfRobust
