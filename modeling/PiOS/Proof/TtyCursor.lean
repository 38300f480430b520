import PiOS.Kernel.Driver.Tty
import PiOS.Transition.Outcome
import PiOS.Transition.Run

namespace PiOS.Proof.TtyCursor
open Kernel Transition

def InScreen (row col : Int) : Prop := (0 ≤ row ∧ row < 48) ∧ 0 ≤ col ∧ col < 106

def InRange : TtyEvent → Prop
  | .putCharAt _ row col => InScreen row col
  | .escArg index => index = 0 ∨ index = 1
  | .submitLine _ => True

structure OnScreen (t : Tty) : Prop where
  cursor : InScreen t.cursorRow t.cursorCol
  events : ∀ e ∈ t.events, InRange e

structure FinalFits (t : Tty) (c : Byte) : Prop where
  up : c = ascii 'A' → t.count ≤ t.cursorRow
  right : c = ascii 'C' → t.cursorCol + t.count < 0x8000
  place : c = ascii 'H' → 0 ≤ t.escArgs 0 ∧ 0 ≤ t.escArgs 1

def EscapeFits (t : Tty) (c : Byte) : Prop := t.inEscapeCode = true → t.escStage ≠ 0 → FinalFits t c

/-- A typed character is echoed if the line has room for it, and a backspace that erases a character is
typed behind the first column. -/
def Fits (s : TtyRun) : TtyAction → Prop
  | .putc c => EscapeFits s.tty c
  | .submitChar c =>
    (isPrintable c = true → s.tty.lineBuffLen < lineBuffSize → EscapeFits s.tty c) ∧
      (c = 8 → 0 < s.tty.lineBuffLen → 0 < s.tty.cursorCol)

structure Calm (t : Tty) : Prop extends OnScreen t where
  args : ∀ j, -(2 ^ 15) ≤ t.escArgs j ∧ t.escArgs j < 2 ^ 15
  line : 0 ≤ t.lineBuffLen ∧ t.lineBuffLen ≤ lineBuffSize

structure Inv (t : Tty) : Prop extends Calm t where
  stage : t.escStage = 0 ∨ t.escStage = 1 ∨ t.escStage = 2

structure Moved (t t' : Tty) : Prop where
  events : t'.events = t.events
  args : t'.escArgs = t.escArgs
  line : t'.lineBuffLen = t.lineBuffLen
  buff : t'.lineBuff = t.lineBuff
  input : t'.input = t.input
  stage : t'.escStage = t.escStage
  code : t'.inEscapeCode = t.inEscapeCode

section Moves

variable {t t' : Tty} {c : Byte} {row col : Int}

theorem Moved.calm (moved : Moved t t') (calm : Calm t) (screen : InScreen t'.cursorRow t'.cursorCol) : Calm t' where
  cursor := screen
  events := moved.events ▸ calm.events
  args := moved.args ▸ calm.args
  line := moved.line ▸ calm.line

theorem newLine_moved (t : Tty) : Moved t t.newLine := by
  unfold Tty.newLine
  split
  · exact ⟨rfl, rfl, rfl, rfl, rfl, rfl, rfl⟩
  · exact ⟨rfl, rfl, rfl, rfl, rfl, rfl, rfl⟩

theorem newLines_moved (t : Tty) (n : Nat) : Moved t (Tty.newLine^[n] t) := by
  induction n generalizing t with
  | zero => exact ⟨rfl, rfl, rfl, rfl, rfl, rfl, rfl⟩
  | succ n ih =>
    have first := newLine_moved t
    have rest := ih t.newLine
    exact ⟨rest.events.trans first.events, rest.args.trans first.args, rest.line.trans first.line,
      rest.buff.trans first.buff, rest.input.trans first.input, rest.stage.trans first.stage, rest.code.trans first.code⟩

theorem finalByte_moved (t : Tty) (c : Byte) : Moved t (t.finalByte c) := by
  unfold Tty.finalByte
  repeat' split
  case isFalse.isFalse.isTrue => exact newLines_moved t _
  all_goals exact ⟨rfl, rfl, rfl, rfl, rfl, rfl, rfl⟩

theorem Calm.put (calm : Calm t) (c : Byte) (screen : InScreen row col) : Calm (t.vgaPutCharAt c row col) := by
  refine ⟨⟨calm.cursor, ?_⟩, calm.args, calm.line⟩
  intro e member
  rcases List.mem_append.mp member with before | new
  · exact calm.events e before
  · obtain rfl := List.mem_singleton.mp new
    exact screen

theorem Calm.newLine (calm : Calm t) : Calm t.newLine := by
  obtain ⟨⟨top, bottom⟩, columns⟩ := calm.cursor
  have next : intWrap (t.cursorRow + 1) = t.cursorRow + 1 := intWrap_eq (by omega) (by omega)
  apply (newLine_moved t).calm calm
  unfold Tty.newLine
  rw [next]
  by_cases last : t.cursorRow + 1 ≥ vgaTextHeight
  · rw [if_pos last]
    exact ⟨show 0 ≤ vgaTextHeight - 1 ∧ vgaTextHeight - 1 < 48 by decide, columns⟩
  · rw [if_neg last]
    simp only [vgaTextHeight] at last
    exact ⟨show 0 ≤ t.cursorRow + 1 ∧ t.cursorRow + 1 < 48 by omega, columns⟩

theorem Inv.newLine (inv : Inv t) : Inv t.newLine := ⟨inv.toCalm.newLine, (newLine_moved t).stage ▸ inv.stage⟩

theorem Inv.move (inv : Inv t) (screen : InScreen row col) : Inv { t with cursorRow := row, cursorCol := col } :=
  ⟨⟨⟨screen, inv.events⟩, inv.args, inv.line⟩, inv.stage⟩

theorem InScreen.first (screen : InScreen row col) : InScreen row 0 := ⟨screen.1, by decide⟩

theorem Calm.newLines (calm : Calm t) (n : Nat) : Calm (Tty.newLine^[n] t) := by
  induction n generalizing t with
  | zero => exact calm
  | succ n ih => exact ih calm.newLine

theorem count_bounds (calm : Calm t) : 1 ≤ t.count ∧ t.count < 2 ^ 15 := by
  have := (calm.args 0).2
  unfold Tty.count
  omega

end Moves

section FinalByte

variable {t : Tty} {c : Byte} (calm : Calm t)
include calm

theorem up_inScreen_iff : InScreen (intWrap (t.cursorRow - max t.count 0)) t.cursorCol ↔ t.count ≤ t.cursorRow := by
  obtain ⟨⟨top, bottom⟩, columns⟩ := calm.cursor
  obtain ⟨positive, small⟩ := count_bounds calm
  have moved : max t.count 0 = t.count := max_eq_left (by omega)
  rw [moved, intWrap_eq (by omega) (by omega)]
  constructor
  · intro screen
    have := screen.1.1
    omega
  · intro fits
    exact ⟨⟨by omega, by omega⟩, columns⟩

theorem right_inScreen_iff : InScreen t.cursorRow (min (intWrap (t.cursorCol + t.count)) (vgaTextWidth - 1)) ↔
    t.cursorCol + t.count < 0x8000 := by
  obtain ⟨rows, left, right⟩ := calm.cursor
  obtain ⟨positive, small⟩ := count_bounds calm
  simp only [vgaTextWidth]
  constructor
  · intro screen
    by_contra far
    have wrapped : intWrap (t.cursorCol + t.count) = t.cursorCol + t.count - 2 ^ 16 := by
      unfold intWrap
      rw [Int.bmod_def]
      omega
    have := screen.2.1
    rw [wrapped] at this
    omega
  · intro fits
    rw [intWrap_eq (by omega) (by omega)]
    exact ⟨rows, by omega, by omega⟩

theorem left_inScreen : InScreen t.cursorRow (max (intWrap (t.cursorCol - t.count)) 0) := by
  obtain ⟨rows, left, right⟩ := calm.cursor
  obtain ⟨positive, small⟩ := count_bounds calm
  rw [intWrap_eq (by omega) (by omega)]
  exact ⟨rows, by omega, by omega⟩

omit calm in
theorem place_inScreen_iff : InScreen (min (t.escArgs 1) (vgaTextHeight - 1)) (min (t.escArgs 0) (vgaTextWidth - 1)) ↔
    0 ≤ t.escArgs 0 ∧ 0 ≤ t.escArgs 1 := by
  simp only [InScreen, vgaTextHeight, vgaTextWidth]
  omega

theorem finalByte_inScreen_iff : InScreen (t.finalByte c).cursorRow (t.finalByte c).cursorCol ↔ FinalFits t c := by
  have others : c ≠ ascii 'A' → c ≠ ascii 'C' → c ≠ ascii 'H' → FinalFits t c :=
    fun notUp notRight notPlace => ⟨fun h => absurd h notUp, fun h => absurd h notRight, fun h => absurd h notPlace⟩
  unfold Tty.finalByte
  split
  case isTrue color =>
    subst color
    exact iff_of_true calm.cursor (others (by decide) (by decide) (by decide))
  case isFalse notColor =>
  split
  case isTrue up =>
    subst up
    rw [up_inScreen_iff calm]
    exact ⟨fun fits => ⟨fun _ => fits, fun h => absurd h (by decide), fun h => absurd h (by decide)⟩, fun fits => fits.up rfl⟩
  case isFalse notUp =>
  split
  case isTrue down =>
    subst down
    exact iff_of_true (calm.newLines _).cursor (others (by decide) (by decide) (by decide))
  case isFalse notDown =>
  split
  case isTrue right =>
    subst right
    rw [right_inScreen_iff calm]
    exact ⟨fun fits => ⟨fun h => absurd h (by decide), fun _ => fits, fun h => absurd h (by decide)⟩,
      fun fits => fits.right rfl⟩
  case isFalse notRight =>
  split
  case isTrue left =>
    subst left
    exact iff_of_true (left_inScreen calm) (others (by decide) (by decide) (by decide))
  case isFalse notLeft =>
  split
  case isTrue place =>
    subst place
    rw [place_inScreen_iff]
    exact ⟨fun fits => ⟨fun h => absurd h (by decide), fun h => absurd h (by decide), fun _ => fits⟩,
      fun fits => fits.place rfl⟩
  case isFalse notPlace => exact iff_of_true calm.cursor (others notUp notRight notPlace)

theorem finalByte_calm (fits : FinalFits t c) : Calm (t.finalByte c) :=
  (finalByte_moved t c).calm calm ((finalByte_inScreen_iff calm).mpr fits)

end FinalByte

section Putc

variable {t : Tty} {c : Byte}

theorem Calm.setArg (calm : Calm t) {index value : Int} (inside : index = 0 ∨ index = 1)
    (number : -(2 ^ 15) ≤ value ∧ value < 2 ^ 15) : Calm (t.setArg index value) := by
  refine ⟨⟨calm.cursor, ?_⟩, ?_, calm.line⟩
  · intro e member
    rcases List.mem_append.mp member with before | new
    · exact calm.events e before
    · obtain rfl := List.mem_singleton.mp new
      exact inside
  · intro j
    by_cases here : j = index
    · subst here
      simpa [Tty.setArg] using number
    · simpa [Tty.setArg, Function.update_of_ne here] using calm.args j

theorem intWrap_bounds (n : Int) : -(2 ^ 15) ≤ intWrap n ∧ intWrap n < 2 ^ 15 := by
  unfold intWrap
  have low := Int.le_bmod (x := n) (m := 2 ^ 16) (by decide)
  have high := Int.bmod_lt (x := n) (m := 2 ^ 16) (by decide)
  omega

theorem Calm.endEscape (calm : Calm t) : Inv t.endEscape := ⟨⟨⟨calm.cursor, calm.events⟩, calm.args, calm.line⟩, Or.inl rfl⟩

theorem Calm.withStage (calm : Calm t) (stage : Int) : Calm { t with escStage := stage } :=
  ⟨⟨calm.cursor, calm.events⟩, calm.args, calm.line⟩

theorem finalFits_withStage {stage : Int} : FinalFits { t with escStage := stage } c ↔ FinalFits t c :=
  ⟨fun fits => ⟨fits.up, fits.right, fits.place⟩, fun fits => ⟨fits.up, fits.right, fits.place⟩⟩

theorem handleEscapes_final (active : t.escStage = 1 ∨ t.escStage = 2) (letter : c ≠ ascii ';') (noDigit : isDigit c = false) :
    t.handleEscapes c = (Tty.finalByte { t with escStage := 3 } c).endEscape := by
  have started : t.escStage ≠ 0 := by omega
  simp [Tty.handleEscapes, started, active, Tty.parseArg, letter, noDigit]

section

variable (inv : Inv t)
include inv

theorem Inv.handleEscapes (fits : t.escStage ≠ 0 → FinalFits t c) : Inv (t.handleEscapes c) := by
  by_cases start : t.escStage = 0
  · unfold Tty.handleEscapes
    rw [if_pos start]
    split
    · exact inv.toCalm.endEscape
    · have first : Calm (Tty.setArg { t with escStage := 1 } 1 0) :=
        (inv.toCalm.withStage 1).setArg (Or.inr rfl) (by decide)
      exact ⟨first.setArg (Or.inl rfl) (by decide), Or.inr (Or.inl rfl)⟩
  · have active := inv.stage.resolve_left start
    by_cases separator : c = ascii ';'
    · subst separator
      rcases active with one | two
      · have result : t.handleEscapes (ascii ';') = { t with escStage := 2 } := by
          simp [Tty.handleEscapes, Tty.parseArg, one]
        rw [result]
        exact ⟨inv.toCalm.withStage 2, Or.inr (Or.inr rfl)⟩
      · have result : t.handleEscapes (ascii ';') = (Tty.finalByte { t with escStage := 3 } (ascii ';')).endEscape := by
          simp [Tty.handleEscapes, Tty.parseArg, two]
        rw [result]
        apply Calm.endEscape
        exact finalByte_calm (inv.toCalm.withStage 3) (finalFits_withStage.mpr (fits start))
    · by_cases digit : isDigit c = true
      · have inside : t.escStage - 1 = 0 ∨ t.escStage - 1 = 1 := by omega
        have first := inv.toCalm.setArg inside (intWrap_bounds (t.escArgs (t.escStage - 1) * 10))
        have second := first.setArg inside (intWrap_bounds
          ((t.setArg (t.escStage - 1) (intWrap (t.escArgs (t.escStage - 1) * 10))).escArgs (t.escStage - 1) +
            (c.toNat - (ascii '0').toNat)))
        have unfinished : t.escStage ≠ 3 := by omega
        have result : t.handleEscapes c = t.parseArg c := by
          simp [Tty.handleEscapes, start, active, Tty.parseArg, separator, digit, Tty.setArg, unfinished]
        rw [result, Tty.parseArg, if_neg separator, if_pos digit]
        exact ⟨second, Or.inr active⟩
      · rw [handleEscapes_final active separator (by simpa using digit)]
        apply Calm.endEscape
        exact finalByte_calm (inv.toCalm.withStage 3) (finalFits_withStage.mpr (fits start))

theorem Inv.handleEscapes_fails (started : t.escStage ≠ 0) (unfit : ¬ FinalFits t c) :
    ¬ InScreen (t.handleEscapes c).cursorRow (t.handleEscapes c).cursorCol := by
  have letter : c = ascii 'A' ∨ c = ascii 'C' ∨ c = ascii 'H' := by
    by_contra other
    push Not at other
    exact unfit ⟨fun h => absurd h other.1, fun h => absurd h other.2.1, fun h => absurd h other.2.2⟩
  have plain : c ≠ ascii ';' ∧ isDigit c = false := by
    rcases letter with rfl | rfl | rfl
    · decide
    · decide
    · decide
  rw [handleEscapes_final (inv.stage.resolve_left started) plain.1 plain.2]
  exact mt (finalByte_inScreen_iff (inv.toCalm.withStage 3)).mp (mt finalFits_withStage.mp unfit)

theorem Inv.putPrintable (c : Byte) : Inv (t.putPrintable c) := by
  have put : Inv (t.vgaPutCharAt c t.cursorRow t.cursorCol) := ⟨inv.toCalm.put c inv.cursor, inv.stage⟩
  obtain ⟨rows, left, right⟩ := inv.cursor
  have next : intWrap (t.cursorCol + 1) = t.cursorCol + 1 := intWrap_eq (by omega) (by omega)
  have shown : (t.vgaPutCharAt c t.cursorRow t.cursorCol).cursorCol = t.cursorCol := rfl
  unfold Tty.putPrintable
  simp only [shown, next]
  split
  case isTrue last => exact (put.move (InScreen.first inv.cursor)).newLine
  case isFalse more =>
    simp only [vgaTextWidth] at more
    exact put.move ⟨rows, by omega, by omega⟩

theorem Inv.lineFeed : Inv { t.newLine with cursorCol := 0 } :=
  inv.newLine.move (InScreen.first inv.newLine.cursor)

theorem Inv.putControl (c : Byte) : Inv (t.putControl c) := by
  obtain ⟨rows, left, right⟩ := inv.cursor
  unfold Tty.putControl
  split
  · exact inv.lineFeed
  split
  · split
    · exact inv.move ⟨rows, by omega, by omega⟩
    · exact inv
  split
  · exact ⟨⟨⟨inv.cursor, inv.events⟩, inv.args, inv.line⟩, Or.inl rfl⟩
  · exact inv

theorem Inv.putc (fits : EscapeFits t c) : Inv (t.putc c) := by
  unfold Tty.putc
  split
  case isTrue code => exact inv.handleEscapes (fits code)
  case isFalse ground =>
    split
    · exact inv.putPrintable c
    · exact inv.putControl c

theorem Inv.putc_fails (unfit : ¬ EscapeFits t c) : ¬ OnScreen (t.putc c) := by
  unfold EscapeFits at unfit
  push Not at unfit
  obtain ⟨code, started, unfit⟩ := unfit
  intro screen
  apply inv.handleEscapes_fails started unfit
  have same : t.putc c = t.handleEscapes c := by rw [Tty.putc, if_pos code]
  exact same ▸ screen.cursor

end

end Putc

section Keys

variable {t t' : Tty} {c : Byte}

theorem Inv.linebuffPutc (inv : Inv t) (c : Byte) : t.lineBuffLen < lineBuffSize ∧
      t.linebuffPutc c = .ok { t with
        lineBuff := Function.update t.lineBuff t.lineBuffLen c, lineBuffLen := t.lineBuffLen + 1 } ∨
    t.lineBuffLen = lineBuffSize ∧ t.linebuffPutc c = .error .outOfBounds := by
  obtain ⟨low, high⟩ := inv.line
  have guarded : t.lineBuffLen < ReadDevice.buffSize .tty := by
    simp only [lineBuffSize] at high
    simp only [ReadDevice.buffSize]
    omega
  unfold Tty.linebuffPutc
  rw [if_pos guarded]
  by_cases room : t.lineBuffLen < lineBuffSize
  · exact Or.inl ⟨room, if_pos ⟨low, room⟩⟩
  · exact Or.inr ⟨by omega, if_neg fun both => room both.2⟩

theorem Inv.stored (inv : Inv t) {c : Byte} (stored : t.linebuffPutc c = .ok t') :
    t.lineBuffLen < lineBuffSize ∧ Inv t' ∧ (EscapeFits t' c ↔ EscapeFits t c) := by
  rcases inv.linebuffPutc c with ⟨room, result⟩ | ⟨-, failed⟩
  · obtain rfl := Except.ok.inj (result.symm.trans stored)
    have length : 0 ≤ t.lineBuffLen + 1 ∧ t.lineBuffLen + 1 ≤ lineBuffSize := by
      have := inv.line.1
      omega
    refine ⟨room, ⟨⟨⟨inv.cursor, inv.events⟩, inv.args, length⟩, inv.stage⟩, ?_, ?_⟩
    · exact fun fits code started => ⟨(fits code started).up, (fits code started).right, (fits code started).place⟩
    · exact fun fits code started => ⟨(fits code started).up, (fits code started).right, (fits code started).place⟩
  · rw [failed] at stored
    cases stored

theorem Inv.submitLineBuff (inv : Inv t) (submitted : t.submitLineBuff = .ok t') : Inv t' := by
  obtain ⟨input, -, rfl⟩ := map_eq_ok.mp submitted
  refine ⟨⟨⟨inv.cursor, ?_⟩, inv.args, show 0 ≤ (0 : Int) ∧ 0 ≤ lineBuffSize by decide⟩, inv.stage⟩
  intro e member
  rcases List.mem_append.mp member with before | new
  · exact inv.events e before
  · obtain rfl := List.mem_singleton.mp new
    trivial

theorem Inv.linebuffErase (inv : Inv t) (fits : 0 < t.lineBuffLen → 0 < t.cursorCol) : Inv t.linebuffErase := by
  obtain ⟨rows, left, right⟩ := inv.cursor
  unfold Tty.linebuffErase
  split
  case isFalse empty => exact inv
  case isTrue some =>
    have behind := fits some
    have screen : InScreen t.cursorRow (t.cursorCol - 1) := ⟨rows, by omega, by omega⟩
    have length : 0 ≤ t.lineBuffLen - 1 ∧ t.lineBuffLen - 1 ≤ lineBuffSize := by
      have := inv.line
      omega
    have erased : Calm { t with lineBuffLen := t.lineBuffLen - 1, cursorCol := t.cursorCol - 1 } :=
      ⟨⟨screen, inv.events⟩, inv.args, length⟩
    simp only [gt_iff_lt, behind, if_true]
    exact ⟨erased.put _ screen, inv.stage⟩

theorem linebuffErase_fails (some : 0 < t.lineBuffLen) (first : ¬ 0 < t.cursorCol) : ¬ OnScreen t.linebuffErase := by
  intro screen
  have column : t.linebuffErase.cursorCol = vgaTextWidth := by
    simp [Tty.linebuffErase, some, first, Tty.vgaPutCharAt]
  have inside := screen.cursor.2.2
  rw [column] at inside
  exact absurd inside (by decide)

theorem Inv.echo (inv : Inv t) (c : Byte) : Inv ((t.putc (ascii '^')).putc (Tty.caret c)) := by
  have harmless : FinalFits t (ascii '^') :=
    ⟨fun h => absurd h (by decide), fun h => absurd h (by decide), fun h => absurd h (by decide)⟩
  have first : Inv (t.putc (ascii '^')) := inv.putc fun _ _ => harmless
  apply first.putc
  intro code
  have ground : (t.putc (ascii '^')).inEscapeCode = false := by
    unfold Tty.putc
    split
    case isTrue =>
      by_cases start : t.escStage = 0
      · rw [Tty.handleEscapes, if_pos start, if_pos (by decide)]
        rfl
      · rw [handleEscapes_final (inv.stage.resolve_left start) (by decide) (by decide)]
        rfl
    case isFalse outside =>
      have kept : (t.putPrintable (ascii '^')).inEscapeCode = t.inEscapeCode := by
        unfold Tty.putPrintable
        simp only
        split
        · exact (newLine_moved _).code
        · rfl
      rw [if_pos (by decide), kept]
      simpa using outside
  rw [ground] at code
  cases code

end Keys

section Steps

variable {s s' : TtyRun} {t t' : Tty} {c : Byte}

inductive Steps (s : TtyRun) : TtyAction → TtyRun → Prop
  | putc (c : Byte) : Steps s (.putc c) ⟨s.tty.putc c, none⟩
  | submitted (c : Byte) (tty : Tty) (ok : s.tty.submitChar c = .ok tty) : Steps s (.submitChar c) ⟨tty, none⟩
  | stopped (c : Byte) (stop : Stop) (error : s.tty.submitChar c = .error stop) : Steps s (.submitChar c) ⟨s.tty, some stop⟩

theorem steps {action : TtyAction} (taken : ttyStep s action = some s') : Steps s action s' := by
  unfold ttyStep at taken
  split at taken
  · cases taken
  · cases action with
    | putc c =>
      cases taken
      exact .putc c
    | submitChar c =>
      cases result : s.tty.submitChar c with
      | ok tty =>
        simp only [result, Option.some.injEq] at taken
        exact taken ▸ .submitted c tty result
      | error stop =>
        simp only [result, Option.some.injEq] at taken
        exact taken ▸ .stopped c stop result

theorem Inv.submitChar (inv : Inv t) (submitted : t.submitChar c = .ok t')
    (typed : isPrintable c = true → t.lineBuffLen < lineBuffSize → EscapeFits t c)
    (erase : c = 8 → 0 < t.lineBuffLen → 0 < t.cursorCol) : Inv t' := by
  unfold Tty.submitChar at submitted
  split at submitted
  case isTrue printable =>
    obtain ⟨t₁, stored, rest⟩ := bind_eq_ok.mp submitted
    obtain rfl := Except.ok.inj rest
    obtain ⟨room, inv₁, same⟩ := inv.stored stored
    exact inv₁.putc (same.mpr (typed printable room))
  case isFalse control =>
  split at submitted
  case isTrue newline =>
    obtain ⟨t₁, stored, rest⟩ := bind_eq_ok.mp submitted
    obtain ⟨t₂, handed, rest⟩ := bind_eq_ok.mp rest
    obtain rfl := Except.ok.inj rest
    exact ((inv.stored stored).2.1.submitLineBuff handed).lineFeed
  case isFalse =>
  split at submitted
  case isTrue backspace =>
    obtain rfl := Except.ok.inj submitted
    exact inv.linebuffErase (erase backspace)
  case isFalse => exact ((inv.echo c).stored submitted).2.1

theorem step_keeps (s : TtyRun) (action : TtyAction) (s' : TtyRun) (inv : Inv s.tty) (fits : Fits s action)
    (taken : ttyStep s action = some s') : Inv s'.tty := by
  cases steps taken with
  | putc c => exact inv.putc fits
  | submitted c tty ok => exact inv.submitChar ok fits.1 fits.2
  | stopped c stop error => exact inv

theorem Inv.submitChar_fails (inv : Inv t) (submitted : t.submitChar c = .ok t')
    (unfit : (isPrintable c = true ∧ ¬ EscapeFits t c) ∨ c = 8 ∧ 0 < t.lineBuffLen ∧ ¬ 0 < t.cursorCol) :
    ¬ OnScreen t' := by
  unfold Tty.submitChar at submitted
  rcases unfit with ⟨printable, unfit⟩ | ⟨rfl, some, first⟩
  · rw [if_pos printable] at submitted
    obtain ⟨t₁, stored, rest⟩ := bind_eq_ok.mp submitted
    obtain rfl := Except.ok.inj rest
    obtain ⟨-, inv₁, same⟩ := inv.stored stored
    exact inv₁.putc_fails (mt same.mp unfit)
  · rw [if_neg (by decide), if_neg (by decide), if_pos rfl] at submitted
    obtain rfl := Except.ok.inj submitted
    exact linebuffErase_fails some first

theorem Inv.fits_of_error {stop : Stop} (inv : Inv s.tty) (error : s.tty.submitChar c = .error stop) :
    Fits s (.submitChar c) := by
  unfold Tty.submitChar at error
  constructor
  · intro printable room
    rw [if_pos printable] at error
    rcases inv.linebuffPutc c with ⟨-, stored⟩ | ⟨full, -⟩
    · rw [stored] at error
      cases error
    · omega
  · rintro rfl
    rw [if_neg (by decide), if_neg (by decide), if_pos rfl] at error
    cases error

theorem step_fails (s : TtyRun) (action : TtyAction) (s' : TtyRun) (inv : Inv s.tty) (unfit : ¬ Fits s action)
    (taken : ttyStep s action = some s') : ¬ OnScreen s'.tty := by
  cases steps taken with
  | putc c => exact inv.putc_fails unfit
  | submitted c tty ok =>
    apply inv.submitChar_fails ok
    rcases not_and_or.mp unfit with typed | erase
    · push Not at typed
      exact Or.inl ⟨typed.1, typed.2.2⟩
    · push Not at erase
      exact Or.inr ⟨erase.1, erase.2.1, not_lt.mpr erase.2.2⟩
  | stopped c stop error => exact absurd (inv.fits_of_error error) unfit

theorem start_inv : Inv ttyStart.tty where
  cursor := show (0 ≤ (0 : Int) ∧ (0 : Int) < 48) ∧ 0 ≤ (0 : Int) ∧ (0 : Int) < 106 by decide
  events e member := (List.not_mem_nil member).elim
  args j := show -(2 ^ 15) ≤ (0 : Int) ∧ (0 : Int) < 2 ^ 15 by decide
  line := by decide
  stage := Or.inl rfl

end Steps

theorem cursor_on_screen_iff (actions : List TtyAction) :
    Throughout ttyStep (fun s => OnScreen s.tty) ttyStart actions ↔ Guarded ttyStep Fits ttyStart actions :=
  throughout_iff_guarded (I := fun s : TtyRun => Inv s.tty) (fun _ inv => inv.toOnScreen) step_keeps step_fails start_inv

def cursorAfter (actions : List TtyAction) : Option (Int × Int) :=
  (run ttyStep ttyStart actions).map fun s => (s.tty.cursorRow, s.tty.cursorCol)

theorem cursor_leaves_screen :
    cursorAfter [.putc 27, .putc (ascii '['), .putc (ascii 'A')] = some (-1, 0) ∧
    cursorAfter ([.putc 27] ++ ("[40000H".toList.map fun c => .putc (ascii c))) = some (0, -25536) ∧
    cursorAfter ([.putc (ascii 'x'), .putc 27] ++ ("[32767C".toList.map fun c => .putc (ascii c))) = some (0, -32768) ∧
    cursorAfter ([.putc 27] ++ ("[105H".toList.map fun c => .putc (ascii c)) ++
      [.submitChar (ascii 'x'), .submitChar 8]) = some (0, 106) ∧
    ¬ Throughout ttyStep (fun s => OnScreen s.tty) ttyStart [.putc 27, .putc (ascii '['), .putc (ascii 'A')] := by
  have up : cursorAfter [.putc 27, .putc (ascii '['), .putc (ascii 'A')] = some (-1, 0) := by decide +kernel
  refine ⟨up, by decide +kernel, by decide +kernel, by decide +kernel, ?_⟩
  intro throughout
  obtain ⟨s, reached, place⟩ := Option.map_eq_some_iff.mp up
  have screen := throughout_iff.mp throughout _ (List.prefix_refl _) s reached
  have top := screen.cursor.1.1
  rw [(Prod.mk.inj place).1] at top
  exact absurd top (by decide)

end PiOS.Proof.TtyCursor
