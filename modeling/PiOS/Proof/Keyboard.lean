import PiOS.Kernel.Driver.Keyboard
import PiOS.Transition.Outcome

namespace PiOS.Proof.Keyboard
open Kernel Kernel.Keyboard Transition

structure KeyEvent where
  extended : Bool
  released : Bool
  code : Byte
  isCode : code ≠ extendedScancode ∧ code ≠ releaseScancode ∧ code ≠ 0x81

namespace KeyEvent

variable (e : KeyEvent)

def bytes : List Byte :=
  (if e.extended then [extendedScancode] else []) ++ (if e.released then [releaseScancode] else []) ++ [e.code]

def modifier : Bool := e.code = lshiftScancode ∨ e.code = rshiftScancode ∨ e.code = ctrlScancode

/-- An event the decoder is made for: no modifier of the extended part of the keyboard, and no key behind the end
of the tables. -/
def Covered : Prop :=
  if e.extended then e.modifier = false else e.released ∨ e.modifier ∨ e.code.toNat < 0x67

instance : Decidable e.Covered :=
  inferInstanceAs (Decidable (if e.extended then e.modifier = false else e.released ∨ e.modifier ∨ e.code.toNat < 0x67))

end KeyEvent

def controlCharacter (c : Byte) : Option Byte :=
  if ascii '@' ≤ c ∧ c ≤ ascii '_' then some (c - ascii '@')
  else if c = ascii '?' then some 127
  else none

def character (shift ctrl : Bool) (code : Byte) : Option Byte := do
  let upper ← shiftScancodes[code.toNat]?.map ascii
  let lower ← printableScancodes[code.toNat]?.map ascii
  let plain := if shift then upper else lower
  if ctrl then ((controlCharacter upper).or (controlCharacter lower)).getD plain else plain

def Sends (k : Keyboard) (e : KeyEvent) (sent : List Byte) : Prop :=
  if e.released then sent = []
  else if e.extended then sent = arrowKeys e.code
  else if e.modifier then sent = []
  else ∃ c, character k.shift k.ctrl e.code = some c ∧ sent = [c]

def ctrlHeld (extended : Bool) : List KeyEvent → Bool
  | [] => false
  | e :: earlier =>
    if e.extended = extended ∧ e.code = ctrlScancode then !e.released else ctrlHeld extended earlier

def Decodes (k : Keyboard) (earlier : List KeyEvent) : List KeyEvent → Prop
  | [] => True
  | e :: events =>
    ∃ k' sent, k.printScancodes e.bytes = .ok (k', sent) ∧ k'.extended = false ∧ Sends k e sent ∧
      (k'.ctrl = (ctrlHeld false (e :: earlier) || ctrlHeld true (e :: earlier))) ∧ Decodes k' (e :: earlier) events

structure Settled (k : Keyboard) (earlier : List KeyEvent) : Prop where
  extended : k.extended = false
  prev : k.prevScancode ≠ releaseScancode
  left : k.ctrl = ctrlHeld false earlier
  right : ctrlHeld true earlier = false

theorem settled_init : Settled Keyboard.init [] := ⟨rfl, by decide, rfl, rfl⟩

theorem outc_eq_character (k : Keyboard) (code : Byte) : (k.outc code).toOption = character k.shift k.ctrl code := by
  unfold Keyboard.outc
  generalize k.shift = shift
  generalize k.ctrl = ctrl
  revert shift ctrl code
  decide +kernel

theorem character_isSome (shift ctrl : Bool) (code : Byte) :
    (character shift ctrl code).isSome = decide (code.toNat < 0x67) := by
  revert shift ctrl code
  decide +kernel

def ready (k : Keyboard) (e : KeyEvent) : Keyboard :=
  ⟨if e.released then releaseScancode else if e.extended then extendedScancode else k.prevScancode,
    k.keyboardState, e.extended⟩

variable {k : Keyboard} {e : KeyEvent} {earlier : List KeyEvent} {k' : Keyboard}

theorem printScancode_plain {scancode : Byte} (skipped : scancode ≠ 0x81)
    (shift : ¬ (scancode = lshiftScancode ∨ scancode = rshiftScancode)) (ctrl : scancode ≠ ctrlScancode)
    (extension : scancode ≠ extendedScancode) (k : Keyboard) :
    k.printScancode scancode =
      if k.extended then
        .ok (⟨scancode, k.keyboardState, scancode = releaseScancode⟩,
          if k.prevScancode = releaseScancode then [] else arrowKeys scancode)
      else if k.prevScancode ≠ releaseScancode ∧ scancode ≠ releaseScancode then do
        let outc ← k.outc scancode
        .ok (⟨scancode, k.keyboardState, k.extended⟩, [outc])
      else
        .ok (⟨scancode, k.keyboardState, k.extended⟩, []) := by
  rw [printScancode, if_neg skipped, if_neg shift, if_neg ctrl, if_neg extension]

theorem printScancode_release (k : Keyboard) :
    k.printScancode releaseScancode = .ok (⟨releaseScancode, k.keyboardState, k.extended⟩, []) := by
  have arrows : arrowKeys releaseScancode = [] := by decide
  rw [printScancode_plain (by decide) (by decide) (by decide) (by decide)]
  split
  · rename_i extended
    simp [extended, arrows]
  · simp

theorem printScancode_extension (k : Keyboard) :
    k.printScancode extendedScancode = .ok (⟨extendedScancode, k.keyboardState, true⟩, []) := rfl

theorem printScancodes_silent {scancode : Byte} (silent : k.printScancode scancode = .ok (k', []))
    (scancodes : List Byte) : k.printScancodes (scancode :: scancodes) = k'.printScancodes scancodes := by
  rw [printScancodes, silent]
  cases printed : k'.printScancodes scancodes with
  | error | ok => simp [bind, Except.bind, printed]

theorem printScancodes_single (k : Keyboard) (scancode : Byte) :
    k.printScancodes [scancode] = k.printScancode scancode := by
  rw [printScancodes]
  cases k.printScancode scancode with
  | error stop => rfl
  | ok out => simp [printScancodes, bind, Except.bind]

theorem printScancodes_bytes (settled : Settled k earlier) (e : KeyEvent) :
    k.printScancodes e.bytes = (ready k e).printScancode e.code := by
  obtain ⟨extended, released, code, isCode⟩ := e
  obtain ⟨prev, state, flag⟩ := k
  obtain rfl : flag = false := settled.extended
  rw [← printScancodes_single]
  cases extended with
  | false =>
    cases released with
    | false => rfl
    | true => exact printScancodes_silent (printScancode_release _) [code]
  | true =>
    cases released with
    | false => exact printScancodes_silent (printScancode_extension _) [code]
    | true =>
      exact (printScancodes_silent (printScancode_extension _) _).trans
        (printScancodes_silent (printScancode_release _) [code])

theorem ready_released (settled : Settled k earlier) : (ready k e).prevScancode = releaseScancode ↔ e.released = true := by
  unfold ready
  split
  · simp [*]
  · split
    · simp [*]
      decide
    · simp [*, settled.prev]

theorem ctrl_setState_ctrl (k : Keyboard) (prev : Byte) (extended : Bool) :
    (⟨prev, k.setState stateCtrl, extended⟩ : Keyboard).ctrl = decide (k.prevScancode ≠ releaseScancode) := by
  have bits : ∀ state : Byte, (state &&& ~~~stateCtrl) &&& stateCtrl = 0 ∧ (state ||| stateCtrl) &&& stateCtrl ≠ 0 := by
    decide +kernel
  unfold Keyboard.ctrl setState
  split
  · rename_i released
    simp [released, (bits k.keyboardState).1]
  · rename_i pressed
    simpa [pressed] using (bits k.keyboardState).2

theorem ctrl_setState_shift (k : Keyboard) (prev : Byte) (extended : Bool) :
    (⟨prev, k.setState stateShift, extended⟩ : Keyboard).ctrl = k.ctrl := by
  have bits : ∀ state : Byte, (state &&& ~~~stateShift) &&& stateCtrl = state &&& stateCtrl ∧
      (state ||| stateShift) &&& stateCtrl = state &&& stateCtrl := by
    decide +kernel
  unfold Keyboard.ctrl setState
  split
  · simp [(bits k.keyboardState).1]
  · simp [(bits k.keyboardState).2]

theorem printScancode_shift (e : KeyEvent) (shift : e.code = lshiftScancode ∨ e.code = rshiftScancode) (k : Keyboard) :
    k.printScancode e.code = .ok (⟨e.code, k.setState stateShift, k.extended⟩, []) := by
  rw [printScancode, if_neg e.isCode.2.2, if_pos shift]

theorem printScancode_ctrl (e : KeyEvent) (ctrl : e.code = ctrlScancode) (k : Keyboard) :
    k.printScancode e.code = .ok (⟨e.code, k.setState stateCtrl, k.extended⟩, []) := by
  rw [printScancode, if_neg e.isCode.2.2, if_neg (by rw [ctrl]; decide), if_pos ctrl]

theorem ctrlHeld_other {extended : Bool} (other : ¬ (e.extended = extended ∧ e.code = ctrlScancode)) :
    ctrlHeld extended (e :: earlier) = ctrlHeld extended earlier := if_neg other

theorem modifier_iff :
    e.modifier = true ↔ (e.code = lshiftScancode ∨ e.code = rshiftScancode) ∨ e.code = ctrlScancode := by
  rw [KeyEvent.modifier, decide_eq_true_iff, or_assoc]

theorem unextended (covered : e.Covered) (modifier : e.modifier = true) : e.extended = false := by
  unfold KeyEvent.Covered at covered
  split at covered
  · rw [modifier] at covered
    cases covered
  · rename_i plain
    exact Bool.eq_false_of_not_eq_true plain

theorem sends_nothing (modifier : e.modifier = true) (plain : e.extended = false) : Sends k e [] := by
  simp [Sends, modifier, plain]

section

variable (settled : Settled k earlier)
include settled

theorem shift_covered (covered : e.Covered) (shift : e.code = lshiftScancode ∨ e.code = rshiftScancode) :
    ∃ k' sent, (ready k e).printScancode e.code = .ok (k', sent) ∧ Sends k e sent ∧ Settled k' (e :: earlier) := by
  have modifier : e.modifier = true := modifier_iff.mpr (Or.inl shift)
  have plain := unextended covered modifier
  have other : e.code ≠ ctrlScancode := by
    rintro ctrl
    rw [ctrl] at shift
    exact absurd shift (by decide)
  refine ⟨_, _, printScancode_shift e shift _, sends_nothing modifier plain, plain, e.isCode.2.1, ?_, ?_⟩
  · rw [ctrl_setState_shift, ctrlHeld_other fun both => other both.2]
    exact settled.left
  · rw [ctrlHeld_other fun both => other both.2]
    exact settled.right

theorem ctrl_covered (covered : e.Covered) (ctrl : e.code = ctrlScancode) :
    ∃ k' sent, (ready k e).printScancode e.code = .ok (k', sent) ∧ Sends k e sent ∧ Settled k' (e :: earlier) := by
  have modifier : e.modifier = true := modifier_iff.mpr (Or.inr ctrl)
  have plain := unextended covered modifier
  refine ⟨_, _, printScancode_ctrl e ctrl _, sends_nothing modifier plain, plain, e.isCode.2.1, ?_, ?_⟩
  · rw [ctrl_setState_ctrl, ctrlHeld, if_pos ⟨plain, ctrl⟩]
    simp only [ne_eq, ready_released settled]
    cases e.released with
    | true => rfl
    | false => rfl
  · rw [ctrlHeld_other (by rw [plain]; exact fun both => Bool.noConfusion both.1)]
    exact settled.right

theorem printScancode_code
    (shift : ¬ (e.code = lshiftScancode ∨ e.code = rshiftScancode)) (ctrl : e.code ≠ ctrlScancode) :
    (ready k e).printScancode e.code = if e.extended then
        .ok (⟨e.code, k.keyboardState, false⟩, if e.released then [] else arrowKeys e.code) else if e.released then
        .ok (⟨e.code, k.keyboardState, false⟩, []) else
        k.outc e.code >>= fun outc => .ok (⟨e.code, k.keyboardState, false⟩, [outc]) := by
  have other : e.code ≠ releaseScancode := e.isCode.2.1
  have same : (ready k e).outc e.code = k.outc e.code := rfl
  rw [printScancode_plain e.isCode.2.2 shift ctrl e.isCode.1, same]
  obtain ⟨extended, released, code, isCode⟩ := e
  cases extended with
  | true =>
    cases released with
    | true => simp [ready, other]
    | false => simp [ready, other, show extendedScancode ≠ releaseScancode by decide]
  | false =>
    cases released with
    | true => simp [ready]
    | false => simp [ready, other, settled.prev]

theorem plain_covered (covered : e.Covered)
    (shift : ¬ (e.code = lshiftScancode ∨ e.code = rshiftScancode)) (ctrl : e.code ≠ ctrlScancode) :
    ∃ k' sent, (ready k e).printScancode e.code = .ok (k', sent) ∧ Sends k e sent ∧ Settled k' (e :: earlier) := by
  have none : e.modifier = false := Bool.eq_false_iff.mpr (mt modifier_iff.mp (not_or.mpr ⟨shift, ctrl⟩))
  have after : Settled ⟨e.code, k.keyboardState, false⟩ (e :: earlier) := by
    refine ⟨rfl, e.isCode.2.1, ?_, ?_⟩
    · rw [ctrlHeld_other fun both => ctrl both.2]
      exact settled.left
    · rw [ctrlHeld_other fun both => ctrl both.2]
      exact settled.right
  rw [printScancode_code settled shift ctrl]
  split
  · rename_i extended
    refine ⟨_, _, rfl, ?_, after⟩
    simp only [Sends, if_pos extended]
    split
    · rfl
    · rfl
  · rename_i plain
    split
    · rename_i released
      exact ⟨_, _, rfl, by simp [Sends, released], after⟩
    · rename_i pressed
      have inside : e.code.toNat < 0x67 := by simpa [KeyEvent.Covered, plain, pressed, none] using covered
      have found : (character k.shift k.ctrl e.code).isSome := by
        rw [character_isSome]
        exact decide_eq_true inside
      obtain ⟨c, here⟩ := Option.isSome_iff_exists.mp found
      have sent : k.outc e.code = .ok c := toOption_eq_some.mp ((outc_eq_character _ _).trans here)
      rw [sent]
      exact ⟨_, _, rfl, by simp [Sends, pressed, plain, none, here], after⟩

theorem step_covered (covered : e.Covered) :
    ∃ k' sent, k.printScancodes e.bytes = .ok (k', sent) ∧ Sends k e sent ∧ Settled k' (e :: earlier) := by
  rw [printScancodes_bytes settled]
  by_cases shift : e.code = lshiftScancode ∨ e.code = rshiftScancode
  · exact shift_covered settled covered shift
  by_cases ctrl : e.code = ctrlScancode
  · exact ctrl_covered settled covered ctrl
  · exact plain_covered settled covered shift ctrl

end

theorem uncovered_cases (uncovered : ¬ e.Covered) : e.extended = true ∧ e.modifier = true ∨
      e.extended = false ∧ e.released = false ∧ e.modifier = false ∧ 0x67 ≤ e.code.toNat := by
  unfold KeyEvent.Covered at uncovered
  split at uncovered
  · rename_i extended
    exact Or.inl ⟨extended, Bool.eq_true_of_not_eq_false uncovered⟩
  · rename_i plain
    exact Or.inr ⟨Bool.eq_false_of_not_eq_true plain, by simpa using uncovered⟩

theorem step_uncovered (settled : Settled k earlier) (uncovered : ¬ e.Covered) {sent : List Byte}
    (printed : k.printScancodes e.bytes = .ok (k', sent)) : k'.extended = true := by
  rw [printScancodes_bytes settled] at printed
  rcases uncovered_cases uncovered with ⟨extended, modifier⟩ | ⟨plain, pressed, none, beyond⟩
  · rcases modifier_iff.mp modifier with shift | ctrl
    · rw [printScancode_shift e shift, Except.ok.injEq, Prod.mk.injEq] at printed
      rw [← printed.1]
      exact extended
    · rw [printScancode_ctrl e ctrl, Except.ok.injEq, Prod.mk.injEq] at printed
      rw [← printed.1]
      exact extended
  · have neither := mt modifier_iff.mpr (Bool.eq_false_iff.mp none)
    rw [not_or] at neither
    have outside : (k.outc e.code).toOption = Option.none := by
      rw [outc_eq_character, ← Option.isNone_iff_eq_none, ← Option.not_isSome, character_isSome]
      simpa using beyond
    rw [printScancode_code settled neither.1 neither.2, plain, pressed] at printed
    cases found : k.outc e.code with
    | error stop =>
      rw [found] at printed
      cases printed
    | ok c =>
      rw [found] at outside
      cases outside

theorem decodes_iff (settled : Settled k earlier) (events : List KeyEvent) :
    Decodes k earlier events ↔ ∀ e ∈ events, e.Covered := by
  induction events generalizing k earlier with
  | nil => simp [Decodes]
  | cons e events ih =>
    rw [List.forall_mem_cons]
    constructor
    · rintro ⟨k', sent, printed, extended, -, -, rest⟩
      have covered : e.Covered := by
        by_contra uncovered
        rw [step_uncovered settled uncovered printed] at extended
        cases extended
      obtain ⟨k'', sent', printed', -, settled'⟩ := step_covered settled covered
      rw [printed, Except.ok.injEq, Prod.mk.injEq] at printed'
      obtain ⟨rfl, rfl⟩ := printed'
      exact ⟨covered, (ih settled').mp rest⟩
    · rintro ⟨covered, rest⟩
      obtain ⟨k', sent, printed, sends, settled'⟩ := step_covered settled covered
      refine ⟨k', sent, printed, settled'.extended, sends, ?_, (ih settled').mpr rest⟩
      rw [settled'.left, settled'.right, Bool.or_false]

theorem keyboard_decodes_iff (events : List KeyEvent) :
    Decodes Keyboard.init [] events ↔ ∀ e ∈ events, e.Covered :=
  decodes_iff settled_init events

theorem keyboard_misses_keys :
    Keyboard.init.printScancodes [0xe0, 0x14, 0x1c] = .ok (⟨0x1c, stateCtrl, false⟩, []) ∧
      Keyboard.init.printScancode 0x76 = .error .outOfBounds ∧
      ¬ Decodes Keyboard.init [] [⟨true, false, 0x14, by decide⟩, ⟨false, false, 0x1c, by decide⟩] ∧
      ¬ Decodes Keyboard.init [] [⟨false, false, 0x76, by decide⟩] := by
  refine ⟨by decide, by decide, fun decodes => ?_, fun decodes => ?_⟩
  · exact absurd ((decodes_iff settled_init _).mp decodes _ List.mem_cons_self) (by decide)
  · exact absurd ((decodes_iff settled_init _).mp decodes _ List.mem_cons_self) (by decide)

end PiOS.Proof.Keyboard
