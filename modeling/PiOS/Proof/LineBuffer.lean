import PiOS.Proof.TtyCursor

namespace PiOS.Proof.LineBuffer
open Kernel Transition TtyCursor Function

structure Typed where
  lines : List (List Byte)
  current : List Byte

def Typed.type (d : Typed) (c : Byte) : Typed :=
  if c = ascii '\n' then ⟨d.lines ++ [d.current ++ [c]], []⟩
  else if c = 8 then ⟨d.lines, d.current.dropLast⟩
  else ⟨d.lines, d.current ++ [c]⟩

def typed (keys : List Byte) : Typed := keys.foldl Typed.type ⟨[], []⟩

def handed (events : List TtyEvent) : List (List Byte) :=
  events.filterMap fun
    | .submitLine line => some line
    | _ => none

def noteKey (keys : List Byte) (_ : TtyRun) (action : TtyAction) (_ : TtyRun) : List Byte :=
  match action with
  | .putc _ => keys
  | .submitChar c => keys ++ [c]

def keyStep : TtyRun × List Byte → TtyAction → Option (TtyRun × List Byte) := watch ttyStep noteKey

structure LineKept (w : TtyRun × List Byte) : Prop where
  length : 0 ≤ w.1.tty.lineBuffLen ∧ w.1.tty.lineBuffLen ≤ lineBuffSize
  inside : w.1.halted = none
  lines : handed w.1.tty.events = (typed w.2).lines

def HasRoom (w : TtyRun × List Byte) : TtyAction → Prop
  | .putc _ => True
  | .submitChar c => c ≠ 8 → w.1.tty.lineBuffLen < lineBuffSize

structure SameLine (t t' : Tty) : Prop where
  length : t'.lineBuffLen = t.lineBuffLen
  buff : t'.lineBuff = t.lineBuff
  input : t'.input = t.input
  lines : handed t'.events = handed t.events

section Output

variable {t t' t'' : Tty}

theorem SameLine.refl (t : Tty) : SameLine t t := ⟨rfl, rfl, rfl, rfl⟩

theorem SameLine.trans (first : SameLine t t') (second : SameLine t' t'') : SameLine t t'' :=
  ⟨second.length.trans first.length, second.buff.trans first.buff, second.input.trans first.input,
    second.lines.trans first.lines⟩

theorem sameLine_of_moved (moved : Moved t t') : SameLine t t' :=
  ⟨moved.line, moved.buff, moved.input, congrArg handed moved.events⟩

theorem handed_append (events : List TtyEvent) (e : TtyEvent) (other : ∀ line, e ≠ .submitLine line) :
    handed (events ++ [e]) = handed events := by
  cases e with
  | putCharAt | escArg => simp [handed]
  | submitLine line => exact absurd rfl (other line)

theorem put_sameLine (t : Tty) (c : Byte) (row col : Int) : SameLine t (t.vgaPutCharAt c row col) :=
  ⟨rfl, rfl, rfl, handed_append _ _ (by simp)⟩

theorem setArg_sameLine (t : Tty) (index value : Int) : SameLine t (t.setArg index value) :=
  ⟨rfl, rfl, rfl, handed_append _ _ (by simp)⟩

theorem parseArg_sameLine (t : Tty) (c : Byte) : SameLine t (t.parseArg c) := by
  unfold Tty.parseArg
  split
  · exact ⟨rfl, rfl, rfl, rfl⟩
  split
  · exact (setArg_sameLine _ _ _).trans (setArg_sameLine _ _ _)
  · exact ⟨rfl, rfl, rfl, rfl⟩

theorem handleEscapes_sameLine (t : Tty) (c : Byte) : SameLine t (t.handleEscapes c) := by
  unfold Tty.handleEscapes
  split
  · split
    · exact ⟨rfl, rfl, rfl, rfl⟩
    · have staged : SameLine t { t with escStage := 1 } := ⟨rfl, rfl, rfl, rfl⟩
      exact (staged.trans (setArg_sameLine _ _ _)).trans (setArg_sameLine _ _ _)
  · have parsed : SameLine t (if t.escStage = 1 ∨ t.escStage = 2 then t.parseArg c else t) := by
      split
      · exact parseArg_sameLine t c
      · exact .refl t
    simp only
    generalize (if t.escStage = 1 ∨ t.escStage = 2 then t.parseArg c else t) = t₁ at parsed ⊢
    split
    · have final := parsed.trans (sameLine_of_moved (finalByte_moved _ c))
      exact ⟨final.length, final.buff, final.input, final.lines⟩
    · exact parsed

theorem putPrintable_sameLine (t : Tty) (c : Byte) : SameLine t (t.putPrintable c) := by
  have put := put_sameLine t c t.cursorRow t.cursorCol
  have moved : ∀ col, SameLine t { t.vgaPutCharAt c t.cursorRow t.cursorCol with cursorCol := col } :=
    fun _ => ⟨put.length, put.buff, put.input, put.lines⟩
  unfold Tty.putPrintable
  simp only
  split
  · exact (moved 0).trans (sameLine_of_moved (newLine_moved _))
  · exact moved _

theorem lineFeed_sameLine (t : Tty) : SameLine t { t.newLine with cursorCol := 0 } := by
  have line := sameLine_of_moved (newLine_moved t)
  exact ⟨line.length, line.buff, line.input, line.lines⟩

theorem putControl_sameLine (t : Tty) (c : Byte) : SameLine t (t.putControl c) := by
  unfold Tty.putControl
  split
  · exact lineFeed_sameLine t
  split
  · split
    · exact ⟨rfl, rfl, rfl, rfl⟩
    · exact .refl t
  split
  · exact ⟨rfl, rfl, rfl, rfl⟩
  · exact .refl t

theorem putc_sameLine (t : Tty) (c : Byte) : SameLine t (t.putc c) := by
  unfold Tty.putc
  split
  · exact handleEscapes_sameLine t c
  split
  · exact putPrintable_sameLine t c
  · exact putControl_sameLine t c

end Output

structure Editing (t : Tty) (d : Typed) : Prop where
  length : t.lineBuffLen = d.current.length
  fits : d.current.length ≤ 128
  line : t.line = d.current
  lines : handed t.events = d.lines
  signal : t.input.dataSignal = 0 ∨ t.input.dataSignal = 1

section Keys

variable {t t' : Tty} {d : Typed} {c : Byte}

theorem SameLine.editing (same : SameLine t t') (editing : Editing t d) : Editing t' d where
  length := same.length.trans editing.length
  fits := editing.fits
  line := by
    have line : t'.line = t.line := by rw [Tty.line, Tty.line, same.length, same.buff]
    exact line.trans editing.line
  lines := same.lines.trans editing.lines
  signal := same.input ▸ editing.signal

theorem line_store (t : Tty) (c : Byte) (low : 0 ≤ t.lineBuffLen) :
    Tty.line { t with lineBuff := update t.lineBuff t.lineBuffLen c, lineBuffLen := t.lineBuffLen + 1 } =
      t.line ++ [c] := by
  have next : (t.lineBuffLen + 1).toNat = t.lineBuffLen.toNat + 1 := by omega
  have place : ((t.lineBuffLen.toNat : Nat) : Int) = t.lineBuffLen := Int.toNat_of_nonneg low
  simp only [Tty.line, next, List.range_succ, List.map_append, List.map_singleton]
  congr 1
  · apply List.map_congr_left
    intro j inside
    rw [List.mem_range] at inside
    exact update_of_ne (by omega) _ _
  · rw [place, update_self]

theorem line_erase (t : Tty) (some : 0 < t.lineBuffLen) :
    Tty.line { t with lineBuffLen := t.lineBuffLen - 1 } = t.line.dropLast := by
  obtain ⟨n, length⟩ : ∃ n, t.lineBuffLen.toNat = n + 1 := ⟨t.lineBuffLen.toNat - 1, by omega⟩
  have shorter : (t.lineBuffLen - 1).toNat = n := by omega
  simp only [Tty.line, shorter, length, List.range_succ, List.map_append, List.map_singleton, List.dropLast_concat]

theorem Editing.stored (editing : Editing t d) (room : d.current.length < 128) (c : Byte) :
    ∃ t', t.linebuffPutc c = .ok t' ∧ Editing t' ⟨d.lines, d.current ++ [c]⟩ := by
  have length := editing.length
  have guarded : t.lineBuffLen < ReadDevice.buffSize .tty := by
    simp only [ReadDevice.buffSize]
    omega
  have inside : 0 ≤ t.lineBuffLen ∧ t.lineBuffLen < lineBuffSize := by
    simp only [lineBuffSize]
    omega
  have result : t.linebuffPutc c = .ok { t with
      lineBuff := update t.lineBuff t.lineBuffLen c, lineBuffLen := t.lineBuffLen + 1 } := by
    rw [Tty.linebuffPutc, if_pos guarded, if_pos inside]
  refine ⟨_, result, ?_, ?_, ?_, editing.lines, editing.signal⟩
  · simp [length]
  · rw [List.length_append]
    exact room
  · rw [line_store t c inside.1, editing.line]

theorem Editing.full (editing : Editing t d) (full : d.current.length = 128) (c : Byte) :
    t.linebuffPutc c = .error .outOfBounds := by
  have length := editing.length
  have guarded : t.lineBuffLen < ReadDevice.buffSize .tty := by
    simp only [ReadDevice.buffSize]
    omega
  have outside : ¬ (0 ≤ t.lineBuffLen ∧ t.lineBuffLen < lineBuffSize) := by
    simp only [lineBuffSize]
    omega
  rw [Tty.linebuffPutc, if_pos guarded, if_neg outside]

theorem Editing.submitted (editing : Editing t d) :
    ∃ t', t.submitLineBuff = .ok t' ∧ Editing t' ⟨d.lines ++ [d.current], []⟩ := by
  have up : semaphoreBinaryUp t.input.dataSignal = .ok 1 := by
    rcases editing.signal with zero | one
    · rw [zero]
      rfl
    · rw [one]
      rfl
  refine ⟨_, by rw [Tty.submitLineBuff, ReadRing.submit, up]; rfl, rfl, by simp, rfl, ?_, Or.inr rfl⟩
  have line := editing.line
  simp only [handed, List.filterMap_append, List.filterMap_cons, List.filterMap_nil, line]
  rw [← editing.lines]
  rfl

theorem Editing.erased (editing : Editing t d) : Editing t.linebuffErase ⟨d.lines, d.current.dropLast⟩ := by
  have length := editing.length
  unfold Tty.linebuffErase
  split
  case isTrue some =>
    have shorter : Editing { t with lineBuffLen := t.lineBuffLen - 1 } ⟨d.lines, d.current.dropLast⟩ := by
      refine ⟨?_, ?_, ?_, editing.lines, editing.signal⟩
      · rw [List.length_dropLast]
        simp only
        omega
      · have := editing.fits
        rw [List.length_dropLast]
        omega
      · rw [line_erase t some, editing.line]
    simp only
    apply (put_sameLine _ _ _ _).editing
    split
    · exact ⟨shorter.length, shorter.fits, shorter.line, shorter.lines, shorter.signal⟩
    · exact ⟨shorter.length, shorter.fits, shorter.line, shorter.lines, shorter.signal⟩
  case isFalse empty =>
    have none : d.current = [] := List.length_eq_zero_iff.mp (by omega)
    rw [none, List.dropLast_nil]
    exact ⟨none ▸ length, by simp, none ▸ editing.line, editing.lines, editing.signal⟩

theorem echo_sameLine (t : Tty) (c : Byte) : SameLine t ((t.putc (ascii '^')).putc (Tty.caret c)) :=
  (putc_sameLine t _).trans (putc_sameLine _ _)

theorem Editing.submitChar (editing : Editing t d) (room : c ≠ 8 → d.current.length < 128) :
    ∃ t', t.submitChar c = .ok t' ∧ Editing t' (d.type c) := by
  unfold Tty.submitChar Typed.type
  by_cases backspace : c = 8
  · subst backspace
    rw [if_neg (by decide), if_neg (by decide), if_pos rfl, if_neg (by decide), if_pos rfl]
    exact ⟨_, rfl, editing.erased⟩
  have room := room backspace
  by_cases newline : c = ascii '\n'
  · obtain ⟨t₁, stored, editing₁⟩ := editing.stored room c
    obtain ⟨t₂, submitted, editing₂⟩ := editing₁.submitted
    rw [if_neg (by rw [newline]; decide), if_pos newline, if_pos newline]
    exact ⟨_, bind_eq_ok.mpr ⟨t₁, stored, bind_eq_ok.mpr ⟨t₂, submitted, rfl⟩⟩,
      (lineFeed_sameLine t₂).editing editing₂⟩
  rw [if_neg newline, if_neg backspace, if_neg newline, if_neg backspace]
  split
  · obtain ⟨t₁, stored, editing₁⟩ := editing.stored room c
    exact ⟨_, bind_eq_ok.mpr ⟨t₁, stored, rfl⟩, (putc_sameLine t₁ c).editing editing₁⟩
  · exact ((echo_sameLine t c).editing editing).stored room c

theorem Editing.submitChar_full (editing : Editing t d) (stores : c ≠ 8) (full : d.current.length = 128) :
    t.submitChar c = .error .outOfBounds := by
  unfold Tty.submitChar
  split
  · rw [editing.full full]
    rfl
  split
  · rw [editing.full full]
    rfl
  exact ((echo_sameLine t c).editing editing).full full c

end Keys

structure Inv (w : TtyRun × List Byte) : Prop where
  running : w.1.halted = none
  editing : Editing w.1.tty (typed w.2)

section Steps

variable {w w' : TtyRun × List Byte}

theorem Inv.kept (inv : Inv w) : LineKept w where
  length := by
    have := inv.editing.length
    have := inv.editing.fits
    simp only [lineBuffSize]
    omega
  inside := inv.running
  lines := inv.editing.lines

theorem typed_append (keys : List Byte) (c : Byte) : typed (keys ++ [c]) = (typed keys).type c := by
  rw [typed, List.foldl_append]
  rfl

theorem step_keeps (w : TtyRun × List Byte) (action : TtyAction) (w' : TtyRun × List Byte) (inv : Inv w)
    (room : HasRoom w action) (taken : keyStep w action = some w') : Inv w' := by
  obtain ⟨step, note⟩ := watch_eq_some taken
  have length := inv.editing.length
  cases action with
  | putc c =>
    have result : w'.1 = ⟨w.1.tty.putc c, none⟩ := by
      simpa [ttyStep, inv.running] using step.symm
    refine ⟨by rw [result], ?_⟩
    rw [note, result]
    exact (putc_sameLine _ _).editing inv.editing
  | submitChar c =>
    have few : c ≠ 8 → (typed w.2).current.length < 128 := by
      intro stores
      have := room stores
      simp only [lineBuffSize] at this
      omega
    obtain ⟨t, submitted, editing⟩ := inv.editing.submitChar few
    have result : w'.1 = ⟨t, none⟩ := by
      simpa [ttyStep, inv.running, submitted] using step.symm
    refine ⟨by rw [result], ?_⟩
    rw [note, result, noteKey, typed_append]
    exact editing

theorem step_fails (w : TtyRun × List Byte) (action : TtyAction) (w' : TtyRun × List Byte) (inv : Inv w)
    (noRoom : ¬ HasRoom w action) (taken : keyStep w action = some w') : ¬ LineKept w' := by
  obtain ⟨step, -⟩ := watch_eq_some taken
  cases action with
  | putc c => exact absurd trivial noRoom
  | submitChar c =>
    unfold HasRoom at noRoom
    push Not at noRoom
    obtain ⟨stores, long⟩ := noRoom
    have full : (typed w.2).current.length = 128 := by
      have := inv.editing.length
      have := inv.editing.fits
      simp only [lineBuffSize] at long
      omega
    have result : w'.1 = ⟨w.1.tty, some .outOfBounds⟩ := by
      simpa [ttyStep, inv.running, inv.editing.submitChar_full stores full] using step.symm
    intro kept
    have running := kept.inside
    rw [result] at running
    cases running

theorem start_inv : Inv (ttyStart, []) :=
  ⟨rfl, rfl, by decide, rfl, rfl, Or.inl rfl⟩

end Steps

theorem line_kept_iff (actions : List TtyAction) :
    Throughout keyStep LineKept (ttyStart, []) actions ↔ Guarded keyStep HasRoom (ttyStart, []) actions :=
  throughout_iff_guarded (fun _ inv => inv.kept) step_keeps step_fails start_inv

theorem long_line_overruns :
    (run keyStep (ttyStart, []) (List.replicate 128 (.submitChar (ascii 'a')))).map
      (fun w => (w.1.tty.lineBuffLen, w.1.halted)) = some (128, none) ∧
    (run keyStep (ttyStart, []) (List.replicate 129 (.submitChar (ascii 'a')))).map (fun w => w.1.halted) =
      some (some .outOfBounds) ∧
    ¬ Throughout keyStep LineKept (ttyStart, []) (List.replicate 129 (.submitChar (ascii 'a'))) := by
  have overrun : (run keyStep (ttyStart, []) (List.replicate 129 (.submitChar (ascii 'a')))).map (fun w => w.1.halted) =
      some (some .outOfBounds) := by decide +kernel
  refine ⟨by decide +kernel, overrun, ?_⟩
  intro throughout
  obtain ⟨w, reached, halted⟩ := Option.map_eq_some_iff.mp overrun
  have kept := throughout_iff.mp throughout _ (List.prefix_refl _) w reached
  rw [kept.inside] at halted
  cases halted

end PiOS.Proof.LineBuffer
