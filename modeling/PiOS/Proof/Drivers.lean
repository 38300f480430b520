import PiOS.Kernel.Driver.Drivers
import PiOS.Transition.Outcome

namespace PiOS.Proof.Drivers
open Kernel Transition

structure NoLockHeld (s : DriverState) : Prop where
  tar : s.tar.listLock = 1
  tmp : s.tmp.lock = 1
  tty : s.tty.insertLock = 1
  kbd : s.kbd.insertLock = 1

def RefusesCleanly (f : DriverState → AsyncReq → Except Stop (Word × DriverState)) (s : DriverState)
    (req : AsyncReq) : Prop :=
  ∃ rc s', f s req = .ok (rc, s') ∧ (rc.Negative → s' = s)

def Known : Driver → AsyncReq → Prop
  | .tar, req => req.type = vfsAsyncTypeRead
  | .tmp, req => req.type = vfsAsyncTypeRead ∨ req.type = vfsAsyncTypeWrite
  | _, _ => True

instance (d : Driver) (req : AsyncReq) : Decidable (Known d req) := by
  cases d <;> unfold Known <;> infer_instance

def Answer (s : DriverState) (out : Word × DriverState) : Prop := out.1.Negative → out.2 = s

theorem semaphoreDown_up {count : Int} (up : count = 1) :
    Ensures (semaphoreDown count) (fun left => left = 0) fun _ => False := by
  rw [up]
  exact Ensures.ok rfl

theorem accepted (s s' : DriverState) : Answer s (0, s') :=
  fun negative => absurd (show Word.Negative 0 from negative) (by decide)

section

variable {s : DriverState} (free : NoLockHeld s) (req : AsyncReq)
  {f : DriverState → AsyncReq → Except Stop (Word × DriverState)} {d : Driver}
include free

theorem tarSubmitReq_answers (known : req.type = vfsAsyncTypeRead) :
    Ensures (tarSubmitReq s req) (Answer s) fun _ => False := by
  unfold tarSubmitReq
  apply Ensures.bind (semaphoreDown_up free.tar)
  rintro _ rfl
  simp only [known, ne_eq, not_true_eq_false, if_false]
  exact Ensures.ok (accepted s _)

theorem tmpSubmitReq_answers (known : req.type = vfsAsyncTypeRead ∨ req.type = vfsAsyncTypeWrite) :
    Ensures (tmpSubmitReq s req) (Answer s) fun _ => False := by
  unfold tmpSubmitReq
  apply Ensures.bind (semaphoreDown_up free.tmp)
  rintro _ rfl
  dsimp only
  split
  · exact Ensures.ok (accepted s _)
  split
  · exact Ensures.ok (accepted s _)
  · rename_i notRead notWrite
    exact absurd known (not_or.mpr ⟨notRead, notWrite⟩)

theorem tty_unlocked : { s with tty := { s.tty with insertLock := semaphoreUp 0 } } = s := by
  obtain ⟨tar, tmp, tty, kbd⟩ := s
  obtain ⟨_, _, up, _⟩ := free
  cases tty
  cases up
  rfl

theorem kbd_unlocked : { s with kbd := { s.kbd with insertLock := semaphoreUp 0 } } = s := by
  obtain ⟨tar, tmp, tty, kbd⟩ := s
  obtain ⟨_, _, _, up⟩ := free
  cases kbd
  cases up
  rfl

theorem ttySubmitReq_answers : Ensures (ttySubmitReq s req) (Answer s) fun _ => False := by
  unfold ttySubmitReq
  apply Ensures.bind (semaphoreDown_up free.tty)
  rintro _ rfl
  dsimp only
  split
  · split
    · exact Ensures.ok fun _ => tty_unlocked free
    · exact Ensures.ok (accepted s _)
  split
  · exact Ensures.ok (accepted s _)
  · exact Ensures.ok fun _ => tty_unlocked free

theorem kbdSubmitReq_answers : Ensures (kbdSubmitReq s req) (Answer s) fun _ => False := by
  unfold kbdSubmitReq
  split
  · exact Ensures.ok fun _ => rfl
  apply Ensures.bind (semaphoreDown_up free.kbd)
  rintro _ rfl
  dsimp only
  split
  · exact Ensures.ok fun _ => kbd_unlocked free
  · exact Ensures.ok (accepted s _)

omit free in
theorem sioSubmitRequest_answers : Ensures (sioSubmitRequest s req) (Answer s) fun _ => False := by
  unfold sioSubmitRequest
  split
  · exact Ensures.ok fun _ => rfl
  · exact Ensures.ok (accepted s _)

omit free in
theorem serialSubmitRequest_answers : Ensures (serialSubmitRequest s req) (Answer s) fun _ => False := by
  unfold serialSubmitRequest
  split
  · exact Ensures.ok fun _ => rfl
  · exact Ensures.ok (accepted s _)

omit free in
theorem i2cSubmitRequest_answers : Ensures (i2cSubmitRequest s req) (Answer s) fun _ => False := by
  unfold i2cSubmitRequest
  dsimp only
  split
  · split
    · exact Ensures.ok (accepted s _)
    split
    · split <;> exact Ensures.ok (accepted s _)
    · exact Ensures.ok (accepted s _)
  · exact Ensures.ok (accepted s _)

theorem request_answers
    (registered : d.asyncRequest = some f) (known : Known d req) : Ensures (f s req) (Answer s) fun _ => False := by
  cases d with
  | rootfs => cases registered
  | tar =>
    obtain rfl := Option.some.inj registered
    exact tarSubmitReq_answers free req known
  | tmp =>
    obtain rfl := Option.some.inj registered
    exact tmpSubmitReq_answers free req known
  | tty =>
    obtain rfl := Option.some.inj registered
    exact ttySubmitReq_answers free req
  | kbd =>
    obtain rfl := Option.some.inj registered
    exact kbdSubmitReq_answers free req
  | sio =>
    obtain rfl := Option.some.inj registered
    exact sioSubmitRequest_answers req
  | serial1 | serial2 =>
    obtain rfl := Option.some.inj registered
    exact serialSubmitRequest_answers req
  | i2c =>
    obtain rfl := Option.some.inj registered
    exact i2cSubmitRequest_answers req

theorem tarSubmitReq_unknown (unknown : req.type ≠ vfsAsyncTypeRead) :
    tarSubmitReq s req = .ok (-enosup, { s with tar := { s.tar with listLock := 0 } }) := by
  unfold tarSubmitReq
  rw [free.tar]
  exact if_pos unknown

theorem tmpSubmitReq_unknown (unknown : ¬ (req.type = vfsAsyncTypeRead ∨ req.type = vfsAsyncTypeWrite)) :
    tmpSubmitReq s req = .ok (-enosup, { s with tmp := { s.tmp with lock := 0 } }) := by
  obtain ⟨notRead, notWrite⟩ := not_or.mp unknown
  unfold tmpSubmitReq
  rw [free.tmp]
  exact (if_neg notRead).trans (if_neg notWrite)

theorem unknown_keeps_lock (registered : d.asyncRequest = some f) (unknown : ¬ Known d req) :
    ∃ s', f s req = .ok (-enosup, s') ∧ ¬ NoLockHeld s' := by
  cases d with
  | tar =>
    obtain rfl := Option.some.inj registered
    exact ⟨_, tarSubmitReq_unknown free req unknown, fun held => absurd held.tar (by simp)⟩
  | tmp =>
    obtain rfl := Option.some.inj registered
    exact ⟨_, tmpSubmitReq_unknown free req unknown, fun held => absurd held.tmp (by simp)⟩
  | _ => exact absurd trivial unknown

end

theorem refusesCleanly_iff_known {d : Driver}
    {f : DriverState → AsyncReq → Except Stop (Word × DriverState)} (registered : d.asyncRequest = some f)
    {s : DriverState} (free : NoLockHeld s) (req : AsyncReq) : RefusesCleanly f s req ↔ Known d req := by
  constructor
  · rintro ⟨rc, s', returned, clean⟩
    by_contra unknown
    obtain ⟨s'', failed, locked⟩ := unknown_keeps_lock free req registered unknown
    obtain ⟨rfl, rfl⟩ := Prod.mk.inj (Except.ok.inj (returned.symm.trans failed))
    exact locked (clean (by decide) ▸ free)
  · intro known
    obtain ⟨⟨rc, s'⟩, returned, answer⟩ := (request_answers free req registered known).total
    exact ⟨rc, s', returned, answer⟩

def idleDrivers : DriverState :=
  driversInit (fun _ => []) ⟨fun _ => none, (0, 0), fun _ _ => none, []⟩

def request (type : Word) : AsyncReq := ⟨1, 0, 0, false, type, [0x41, 0], 1, 0⟩

theorem idleDrivers_free : NoLockHeld idleDrivers := ⟨rfl, rfl, rfl, rfl⟩

theorem refusesCleanly_iff_known_tty :
    NoLockHeld idleDrivers ∧ RefusesCleanly ttySubmitReq idleDrivers (request 3) :=
  ⟨idleDrivers_free, (refusesCleanly_iff_known (d := .tty) rfl idleDrivers_free (request 3)).mpr trivial⟩

theorem refused_write_blocks_tar : NoLockHeld idleDrivers ∧
    ¬ RefusesCleanly tarSubmitReq idleDrivers (request vfsAsyncTypeWrite) ∧
    ∃ s', tarSubmitReq idleDrivers (request vfsAsyncTypeWrite) = .ok (-enosup, s') ∧
      ∀ req, tarSubmitReq s' req = .error .blocked := by
  have refuses := tarSubmitReq_unknown idleDrivers_free (request vfsAsyncTypeWrite) (by decide)
  refine ⟨idleDrivers_free, ?_, _, refuses, fun req => rfl⟩
  rintro ⟨rc, s', returned, clean⟩
  obtain ⟨rfl, rfl⟩ := Prod.mk.inj (Except.ok.inj (returned.symm.trans refuses))
  have same := congrArg (fun s => s.tar.listLock) (clean (by decide))
  cases same

end PiOS.Proof.Drivers
