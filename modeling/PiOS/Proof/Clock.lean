import PiOS.Kernel.Machine
import PiOS.Libc.Sys

namespace PiOS.Proof.Clock
open Kernel Libc

variable {k : KernelState} {i : Nat} {p : Proc} {answers : Answers} {regs : Fin 8 → Word}

theorem clockticks_low (ticks : BitVec 32) :
    ((ticks.setWidth 16).setWidth 32 ||| (((ticks <<< 16).setWidth 16).setWidth 32) <<< 16 : BitVec 32) = ticks ↔
      ticks.toNat < 0x10000 := by
  have high : (ticks <<< 16).setWidth 16 = 0#16 := by
    apply BitVec.eq_of_toNat_eq
    rw [BitVec.toNat_setWidth, BitVec.toNat_shiftLeft, Nat.shiftLeft_eq]
    show ticks.toNat * 65536 % 4294967296 % 65536 = 0
    omega
  have low : ((ticks.setWidth 16).setWidth 32).toNat = ticks.toNat % 0x10000 := by
    rw [BitVec.toNat_setWidth, BitVec.toNat_setWidth, Nat.mod_eq_of_lt]
    omega
  rw [high, BitVec.setWidth_zero, BitVec.zero_shiftLeft, BitVec.or_zero, ← BitVec.toNat_inj, low]
  omega

theorem signExtended_bit {w : Word} {j : Nat} (small : j < 32) :
    (w.signExtend 32).getLsbD j = if j < 16 then w.getLsbD j else w.msb := by
  rw [BitVec.getLsbD_signExtend, decide_eq_true small, Bool.true_and]

theorem alarm_bit (t : BitVec 32) {j : Nat} (small : j < 32) :
    (((t >>> 16).setWidth 16 : Word).signExtend 32 <<< 16 ||| (t.setWidth 16 : Word).signExtend 32).getLsbD j =
      (t.getLsbD j || (16 ≤ j && (t.setWidth 16 : Word).msb)) := by
  rw [BitVec.getLsbD_or, BitVec.getLsbD_shiftLeft, signExtended_bit small, signExtended_bit (by omega)]
  by_cases low : j < 16
  · simp [low, Nat.not_le.mpr low]
  · have inHigh : j - 16 < 16 := by omega
    simp [low, inHigh, small, Nat.not_lt.mp low]

theorem alarm_halves (t : BitVec 32) :
    ((t >>> 16).setWidth 16 : Word).signExtend 32 <<< 16 ||| (t.setWidth 16 : Word).signExtend 32 = t ↔
      (t.setWidth 16 : Word).toNat < 0x8000 ∨ (t >>> 16).setWidth 16 = (0xffff : Word) := by
  have sign : (t.setWidth 16 : Word).msb = false ↔ (t.setWidth 16 : Word).toNat < 0x8000 := by
    rw [BitVec.msb_eq_decide, decide_eq_false_iff_not, Nat.not_le]
  rw [← sign]
  constructor
  · intro same
    cases negative : (t.setWidth 16 : Word).msb with
    | false => exact .inl rfl
    | true =>
      right
      apply BitVec.eq_of_getLsbD_eq
      intro j small
      have bit := alarm_bit t (show 16 + j < 32 by omega)
      rw [same, negative] at bit
      simp only [Nat.le_add_right, decide_true, Bool.and_true, Bool.or_true] at bit
      rw [BitVec.getLsbD_setWidth, BitVec.getLsbD_ushiftRight, bit, decide_eq_true small]
      exact ((BitVec.getLsbD_allOnes (v := 16)).trans (decide_eq_true small)).symm
  · intro fine
    apply BitVec.eq_of_getLsbD_eq
    intro j small
    rw [alarm_bit t small]
    rcases fine with positive | ones
    · rw [positive, Bool.and_false, Bool.or_false]
    · by_cases high : 16 ≤ j
      · have bit := congrArg (fun w : Word => w.getLsbD (j - 16)) ones
        have set : (0xffff : Word).getLsbD (j - 16) = true :=
          (BitVec.getLsbD_allOnes (v := 16)).trans (decide_eq_true (by omega))
        simp only [BitVec.getLsbD_setWidth, BitVec.getLsbD_ushiftRight, set, Bool.and_eq_true] at bit
        rw [Nat.add_sub_cancel' high] at bit
        rw [bit.2, Bool.true_or]
      · rw [decide_eq_false high, Bool.false_and, Bool.or_false]

def afterSys (k : KernelState) (i : Nat) (p : Proc) (answers : Answers) (regs : Fin 8 → Word) : Option Proc :=
  (sys k i p answers regs).toOption.bind fun k' => k'.procs[i]?

theorem afterSys_clockticks (here : k.procs[i]? = some p) :
    (afterSys k i p answers (sysClockticks regs)).map (fun q => clockticksTime q.syscallState.regs) =
      some ((k.sysTicks.setWidth 16).setWidth 32 ||| (((k.sysTicks <<< 16).setWidth 16).setWidth 32) <<< 16) := by
  have served : sys k i p answers (sysClockticks regs) = processClockticks (k.modifyProc i fun p =>
      { p with syscallState := { p.syscallState with regs := sysClockticks regs } }) i := rfl
  rw [afterSys, served]
  simp only [processClockticks, KernelState.setReg, Except.toOption, Option.bind_some, modifyProc_self, here,
    Option.map_some]
  rfl

theorem afterSys_alarmset (here : k.procs[i]? = some p) (t : BitVec 32) :
    (afterSys k i p answers (sysAlarmset regs t)).map Proc.alarmTicks =
      some (((t >>> 16).setWidth 16 : Word).signExtend 32 <<< 16 ||| (t.setWidth 16 : Word).signExtend 32) := by
  let entered (p : Proc) : Proc := { p with syscallState := { p.syscallState with regs := sysAlarmset regs t } }
  have served : sys k i p answers (sysAlarmset regs t) = processAlarmset (k.modifyProc i entered) i (entered p) := rfl
  rw [afterSys, served]
  simp only [processAlarmset, Except.toOption, Option.bind_some, modifyProc_self, here, Option.map_some]
  rfl

def ClockDelivered (k : KernelState) (i : Nat) (p : Proc) (answers : Answers) (regs : Fin 8 → Word) : Prop :=
  (afterSys k i p answers (sysClockticks regs)).map (fun q => clockticksTime q.syscallState.regs) = some k.sysTicks

def AlarmSet (k : KernelState) (i : Nat) (p : Proc) (answers : Answers) (regs : Fin 8 → Word) (t : BitVec 32) : Prop :=
  (afterSys k i p answers (sysAlarmset regs t)).map Proc.alarmTicks = some t

theorem clock_survives_iff (here : k.procs[i]? = some p) (answers : Answers) (regs : Fin 8 → Word) (t : BitVec 32) :
    (ClockDelivered k i p answers regs ↔ k.sysTicks.toNat < 0x10000) ∧
      (AlarmSet k i p answers regs t ↔
        (t.setWidth 16 : Word).toNat < 0x8000 ∨ (t >>> 16).setWidth 16 = (0xffff : Word)) := by
  constructor
  · rw [ClockDelivered, afterSys_clockticks here, Option.some.injEq, clockticks_low]
  · rw [AlarmSet, afterSys_alarmset here, Option.some.injEq, alarm_halves]

def atTime (ticks : BitVec 32) : KernelState := { runningFirst [userProc 1 0 0x300] with sysTicks := ticks }

theorem clock_survives_small :
    ClockDelivered (atTime 0xffff) 0 (userProc 1 0 0x300) (.refusing fun _ _ => 0) (fun _ => 0) ∧
      AlarmSet (atTime 0xffff) 0 (userProc 1 0 0x300) (.refusing fun _ _ => 0) (fun _ => 0) 0x57fff :=
  have survives := clock_survives_iff (k := atTime 0xffff) (i := 0) rfl (.refusing fun _ _ => 0) (fun _ => 0) 0x57fff
  ⟨survives.1.mpr (by decide), survives.2.mpr (by decide)⟩

theorem clock_loses_high_half :
    (afterSys (atTime 0x12345) 0 (userProc 1 0 0x300) (.refusing fun _ _ => 0) (sysClockticks fun _ => 0)).map
        (fun q => clockticksTime q.syscallState.regs) = some 0x2345 ∧
      ¬ClockDelivered (atTime 0x12345) 0 (userProc 1 0 0x300) (.refusing fun _ _ => 0) (fun _ => 0) ∧
      (afterSys (atTime 0) 0 (userProc 1 0 0x300) (.refusing fun _ _ => 0) (sysAlarmset (fun _ => 0) 0x18000)).map
        Proc.alarmTicks = some 0xffff8000 ∧
      ¬AlarmSet (atTime 0) 0 (userProc 1 0 0x300) (.refusing fun _ _ => 0) (fun _ => 0) 0x18000 := by
  have time : (afterSys (atTime 0x12345) 0 (userProc 1 0 0x300) (.refusing fun _ _ => 0)
      (sysClockticks fun _ => 0)).map (fun q => clockticksTime q.syscallState.regs) = some 0x2345 := by decide
  have alarm : (afterSys (atTime 0) 0 (userProc 1 0 0x300) (.refusing fun _ _ => 0)
      (sysAlarmset (fun _ => 0) 0x18000)).map Proc.alarmTicks = some 0xffff8000 := by decide
  refine ⟨time, ?_, alarm, ?_⟩
  · rw [ClockDelivered, time]
    decide
  · rw [AlarmSet, alarm]
    decide

end PiOS.Proof.Clock
