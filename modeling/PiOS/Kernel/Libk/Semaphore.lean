import PiOS.Kernel.Libk.Math

namespace PiOS.Kernel

def semaphoreDown (count : Int) : Except Stop Int :=
  if count < 0 then .error (.assertion "count >= 0")
  else if count = 0 then .error .blocked
  else .ok (count - 1)

def semaphoreUp (count : Int) : Int := intWrap (count + 1)

def semaphoreBinaryUp (count : Int) : Except Stop Int :=
  if count < 2 then .ok (if count = 0 then 1 else count) else .error (.assertion "s->count < 2")

theorem semaphoreDown_ok {count left : Int} (down : semaphoreDown count = .ok left) : 0 < count ∧ left = count - 1 := by
  unfold semaphoreDown at down
  split at down
  · cases down
  · split at down
    · cases down
    · cases down
      constructor
      · omega
      · rfl

theorem semaphoreDown_error {count : Int} {stop : Stop} (nonneg : 0 ≤ count)
    (waits : semaphoreDown count = .error stop) : stop = .blocked := by
  unfold semaphoreDown at waits
  rw [if_neg (Int.not_lt.mpr nonneg)] at waits
  split at waits
  · cases waits
    rfl
  · cases waits

theorem semaphoreUp_eq {count : Int} (nonneg : 0 ≤ count) (small : count ≤ 2175) : semaphoreUp count = count + 1 :=
  intWrap_eq (by omega) (by omega)

end PiOS.Kernel
