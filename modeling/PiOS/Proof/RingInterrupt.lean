import PiOS.Kernel.Libk.RingbuffSteps
import PiOS.Proof.Ringbuff
import PiOS.Transition.Run

namespace PiOS.Proof.RingInterrupt
open Kernel Queue Transition

section Window

variable {rb : Ringbuff} {l : List Byte}

theorem reset_eq (inside : rb.tail < rb.size) : ringbuffReset rb = rb := by
  rw [ringbuffReset, if_neg (Nat.ne_of_lt inside)]

theorem reset_reset : ringbuffReset (ringbuffReset rb) = ringbuffReset rb := by
  simp only [ringbuffReset]
  split
  · rename_i first
    rw [ite_self]
  · rfl

theorem full_reset (holds : (ring (ringbuffReset rb)).Holds l) (small : rb.size < 2 ^ 16) :
    ringbuffFull (ringbuffReset rb) = ringbuffFull rb := by
  have head : rb.head < rb.size := holds.head_lt
  by_cases window : rb.tail = rb.size
  · rw [Bool.eq_iff_iff]
    simp only [ringbuffFull, ringbuffReset, if_pos window, Bool.or_eq_true, Bool.and_eq_true, decide_eq_true_eq,
      true_and]
    unfold sizeWrap
    omega
  · rw [ringbuffReset, if_neg window]

theorem write_reset (holds : (ring (ringbuffReset rb)).Holds l) (small : rb.size < 2 ^ 16) (bytes : List Byte) :
    ringbuffWrite (ringbuffReset rb) bytes = ((ringbuffWrite rb bytes).1, ringbuffReset (ringbuffWrite rb bytes).2) ∧
      ringbuffStores (ringbuffReset rb) bytes = ringbuffStores rb bytes := by
  induction bytes generalizing rb l with
  | nil => exact ⟨rfl, rfl⟩
  | cons byte bytes ih =>
    unfold ringbuffWrite ringbuffStores
    rw [full_reset holds small]
    split
    · exact ⟨rfl, rfl⟩
    · rename_i free
      rw [← full_reset holds small] at free
      have put : (ring (ringbuffReset (ringbuffPut rb byte))).Holds (l ++ [byte]) :=
        ringbuffPut_holds holds small free byte
      obtain ⟨written, stores⟩ := ih put small
      change ringbuffWrite (ringbuffPut (ringbuffReset rb) byte) bytes = _ at written
      change ringbuffStores (ringbuffPut (ringbuffReset rb) byte) bytes = _ at stores
      rw [written, stores]
      exact ⟨rfl, rfl⟩

theorem stores_spare (holds : (ring rb).Holds l) (small : rb.size < 2 ^ 16) (bytes : List Byte) {j : Nat}
    (unread : j < l.length) : (rb.tail + j) % rb.size ∉ ringbuffStores rb bytes := by
  induction bytes generalizing rb l with
  | nil => exact List.not_mem_nil
  | cons byte bytes ih =>
    unfold ringbuffStores
    split
    · exact List.not_mem_nil
    · rename_i free
      have here : (rb.tail + j) % rb.size ≠ rb.head := by
        rw [show rb.head = (rb.tail + l.length) % rb.size from holds.head]
        exact RingBuffer.place_ne (r := ring rb) unread holds.room
      have later := ih (ringbuffPut_holds holds small free byte) small
        (by rw [List.length_append]; exact Nat.lt_add_right _ unread)
      exact List.not_mem_cons_of_ne_of_not_mem here later

end Window

def place (s : RingThread) : Option ReadPlace := s.call.map ReadCall.place

def ahead (s : RingThread) : Nat := if place s = some .increment then 1 else 0

def unread (s : RingThread) : List Byte := s.accepted.drop s.stored.length

def unreadCell (s : RingThread) (j : Nat) : Nat := (s.rb.tail + ahead s + j) % s.rb.size

/-- What has been read is what was accepted first, in order; the rest is in its cells, and no write stores
there. -/
structure Tolerates (s : RingThread) : Prop where
  ordered : s.accepted = s.stored ++ unread s
  kept : ∀ j byte, (unread s)[j]? = some byte → s.rb.buff (unreadCell s j) = byte
  spared : ∀ j < (unread s).length, ∀ buff, unreadCell s j ∉ ringbuffStores s.rb buff
  drained : place s = some .test → ringbuffEmpty s.rb = true → s.stored = s.accepted

structure RingInv (n : Nat) (s : RingThread) (l : List Byte) : Prop where
  keeps : RingKeeps n (ringbuffReset s.rb) l
  ordered : s.accepted = s.stored ++ l.drop (ahead s)
  waiting : place s = some .load ∨ place s = some .increment → l ≠ []
  inside : place s ≠ some .reset → s.rb.tail < s.rb.size

variable {n : Nat} {s s' : RingThread} {l : List Byte}

theorem ringInv_init (small : n < 0xffff) (buff : Nat → Byte) : RingInv n (RingThread.init n buff) [] := by
  have keeps := keeps_init small buff
  have inside : (ringbuffInit n buff).tail < (ringbuffInit n buff).size := keeps.holds.inside
  refine ⟨?_, rfl, nofun, fun _ => inside⟩
  change RingKeeps n (ringbuffReset (ringbuffInit n buff)) []
  rwa [reset_eq inside]

theorem RingInv.small (inv : RingInv n s l) (small : n < 0xffff) : s.rb.size < 2 ^ 16 := by
  have size : s.rb.size = n + 1 := inv.keeps.size
  omega

theorem RingInv.settled (inv : RingInv n s l) (outside : place s ≠ some .reset) : RingKeeps n s.rb l := by
  have keeps := inv.keeps
  rwa [reset_eq (inv.inside outside)] at keeps

theorem RingInv.unread_eq (inv : RingInv n s l) : unread s = l.drop (ahead s) := by
  rw [unread, inv.ordered, List.drop_left]

theorem RingInv.ahead_le (inv : RingInv n s l) : ahead s ≤ l.length := by
  unfold ahead
  split
  · rename_i here
    exact List.length_pos_iff.mpr (inv.waiting (Or.inr here))
  · exact Nat.zero_le _

theorem unreadCell_eq (j : Nat) : unreadCell s j = ((ringbuffReset s.rb).tail + (ahead s + j)) % s.rb.size := by
  rw [unreadCell, Nat.add_assoc]
  simp only [ringbuffReset]
  split
  · rename_i window
    rw [window, Nat.add_mod_left, Nat.zero_add]
  · rfl

theorem RingInv.tolerates (inv : RingInv n s l) (small : n < 0xffff) : Tolerates s := by
  have holds := inv.keeps.holds
  have word := inv.small small
  refine ⟨by rw [inv.unread_eq]; exact inv.ordered, ?_, ?_, ?_⟩
  · intro j byte here
    rw [inv.unread_eq, List.getElem?_drop] at here
    obtain ⟨inside, -⟩ := List.getElem?_eq_some_iff.mp here
    have cell := holds.cells _ inside
    rw [here] at cell
    rw [unreadCell_eq]
    exact (Option.some.inj cell).symm
  · intro j inside buff
    rw [inv.unread_eq, List.length_drop] at inside
    rw [unreadCell_eq, ← (write_reset holds word buff).2]
    exact stores_spare holds word buff (by omega)
  · intro test empty
    have settled := inv.settled (by rw [test]; exact nofun)
    obtain rfl := (ringbuffEmpty_iff settled.holds).1 empty
    rw [inv.ordered, List.drop_nil, List.append_nil]

theorem write_inv (small : n < 0xffff) (inv : RingInv n s l) (buff : List Byte) :
    RingInv n { s with
        rb := (ringbuffWrite s.rb buff).2
        accepted := s.accepted ++ buff.take (ringbuffWrite s.rb buff).1 }
      (l ++ buff.take (ringbuffWrite s.rb buff).1) := by
  have word := inv.small small
  have same := (write_reset inv.keeps.holds word buff).1
  have written := ringbuffWrite_holds inv.keeps.holds word buff
  rw [same] at written
  have size : (ringbuffWrite s.rb buff).2.size = s.rb.size := ringbuffWrite_size buff
  have tail : (ringbuffWrite s.rb buff).2.tail = s.rb.tail := ringbuffWrite_tail buff
  have left : (l ++ buff.take (ringbuffWrite s.rb buff).1).drop (ahead s) =
      l.drop (ahead s) ++ buff.take (ringbuffWrite s.rb buff).1 := List.drop_append_of_le_length inv.ahead_le
  refine ⟨⟨written, size.trans inv.keeps.size⟩, ?_, ?_, ?_⟩
  · change s.accepted ++ _ = s.stored ++ List.drop (ahead s) _
    rw [left, inv.ordered, List.append_assoc]
  · intro place empty
    exact inv.waiting place (List.append_eq_nil_iff.mp empty).1
  · intro outside
    change (ringbuffWrite s.rb buff).2.tail < (ringbuffWrite s.rb buff).2.size
    rw [size, tail]
    exact inv.inside outside

theorem ahead_of_ne (other : place s ≠ some .increment) : ahead s = 0 := if_neg other

theorem readStep_inv (small : n < 0xffff) (inv : RingInv n s l) {c : ReadCall} (here : s.call = some c) :
    ∃ l', RingInv n (s.readStep c) l' := by
  have word := inv.small small
  have ordered := inv.ordered
  have now : place s = some c.place := congrArg (Option.map ReadCall.place) here
  obtain ⟨m, rlen, step⟩ := c
  cases step with
  | test =>
    have outside : place s ≠ some .reset := by simp [now]
    rw [ahead_of_ne (by simp [now])] at ordered
    simp only [RingThread.readStep]
    split
    · rename_i more
      refine ⟨l, inv.keeps, ordered, ?_, fun _ => inv.inside outside⟩
      rintro - rfl
      rw [(ringbuffEmpty_iff (inv.settled outside).holds).2 rfl] at more
      exact absurd more.2 (by decide)
    · exact ⟨l, inv.keeps, ordered, nofun, fun _ => inv.inside outside⟩
  | load =>
    have outside : place s ≠ some .reset := by simp [now]
    rw [ahead_of_ne (by simp [now])] at ordered
    cases l with
    | nil => exact absurd rfl (inv.waiting (Or.inl now))
    | cons a l =>
      have first : s.rb.buff s.rb.tail = a := (inv.settled outside).holds.first
      refine ⟨a :: l, inv.keeps, ?_, fun _ => List.cons_ne_nil a l, fun _ => inv.inside outside⟩
      change s.accepted = s.stored ++ [s.rb.buff s.rb.tail] ++ l
      rw [ordered, first, List.append_assoc]
      rfl
  | increment =>
    have outside : place s ≠ some .reset := by simp [now]
    cases l with
    | nil => exact absurd rfl (inv.waiting (Or.inr now))
    | cons a l =>
      obtain ⟨-, rest⟩ := ringbuffGet_holds (inv.settled outside).holds word
      rw [ahead, if_pos now] at ordered
      exact ⟨l, ⟨rest, inv.keeps.size⟩, ordered, nofun, fun other => absurd rfl other⟩
  | reset =>
    rw [ahead_of_ne (by simp [now])] at ordered
    refine ⟨l, ?_, ordered, nofun, fun _ => inv.keeps.holds.inside⟩
    change RingKeeps n (ringbuffReset (ringbuffReset s.rb)) l
    rw [reset_reset]
    exact inv.keeps

theorem step_inv (small : n < 0xffff) (inv : RingInv n s l) {a : RingAction} (taken : s.step a = some s') :
    ∃ l', RingInv n s' l' := by
  cases a with
  | read m =>
    simp only [RingThread.step] at taken
    split at taken
    · rename_i none
      obtain rfl := Option.some.inj taken
      have outside : place s ≠ some .reset := by simp [place, none]
      have ordered := inv.ordered
      rw [ahead_of_ne (by simp [place, none])] at ordered
      exact ⟨l, inv.keeps, ordered, nofun, fun _ => inv.inside outside⟩
    · cases taken
  | step =>
    obtain ⟨c, here, rfl⟩ := Option.map_eq_some_iff.mp taken
    exact readStep_inv small inv here
  | write buff =>
    obtain rfl := Option.some.inj taken
    exact ⟨_, write_inv small inv buff⟩

theorem reader_tolerates_interrupts (n : Nat) (small : n < 0xffff) (buff : Nat → Byte) (actions : List RingAction) :
    Throughout RingThread.step Tolerates (RingThread.init n buff) actions := by
  have keep : ∀ s a s', (∃ l, RingInv n s l) → RingThread.step s a = some s' → ∃ l, RingInv n s' l :=
    fun _ _ _ ⟨_, inv⟩ taken => step_inv small inv taken
  exact throughout_mono (fun _ ⟨_, inv⟩ => inv.tolerates small)
    (throughout_invariant keep ⟨[], ringInv_init small buff⟩)

theorem reader_tolerates_window :
    let before : List RingAction := [.write [1, 2], .read 2] ++ List.replicate 9 .step ++ [.write [3], .read 2] ++
      List.replicate 3 .step
    let after : List RingAction := [.write [4, 5, 6]] ++ List.replicate 6 .step ++ [.read 7] ++ List.replicate 5 .step
    (2 : Nat) < 0xffff ∧
      (run RingThread.step (RingThread.init 2 fun _ => 0) before).map (fun s => s.rb.tail == s.rb.size) = some true ∧
      (run RingThread.step (RingThread.init 2 fun _ => 0) (before ++ after)).map RingThread.stored =
        some [1, 2, 3, 4, 5] ∧
      Throughout RingThread.step Tolerates (RingThread.init 2 fun _ => 0) (before ++ after) :=
  ⟨by decide, by decide, by decide, reader_tolerates_interrupts 2 (by decide) (fun _ => 0) _⟩

theorem steps_alone (rb : Ringbuff) (m rlen : Nat) (accepted stored : List Byte) :
    ∃ k, run RingThread.step ⟨rb, some ⟨rlen + m, rlen, .test⟩, accepted, stored⟩ (List.replicate k .step) =
      some ⟨(ringbuffRead rb m).2, none, accepted, stored ++ (ringbuffRead rb m).1⟩ := by
  induction m generalizing rb rlen stored with
  | zero =>
    refine ⟨1, ?_⟩
    simp [run, RingThread.step, RingThread.readStep, ringbuffRead]
  | succ m ih =>
    by_cases empty : ringbuffEmpty rb = true
    · refine ⟨1, ?_⟩
      simp [run, RingThread.step, RingThread.readStep, ringbuffRead, empty]
    · have turn : run RingThread.step ⟨rb, some ⟨rlen + (m + 1), rlen, .test⟩, accepted, stored⟩
          (List.replicate 4 .step) =
            some ⟨(ringbuffGet rb).2, some ⟨rlen + 1 + m, rlen + 1, .test⟩, accepted,
              stored ++ [(ringbuffGet rb).1]⟩ := by
        rw [Nat.add_right_comm rlen 1 m]
        simp [run, List.replicate_succ, RingThread.step, RingThread.readStep, empty, ringbuffGet, ringbuffReset,
          ringbuffIncrement]
        rfl
      obtain ⟨k, rest⟩ := ih (ringbuffGet rb).2 (rlen + 1) (stored ++ [(ringbuffGet rb).1])
      refine ⟨4 + k, ?_⟩
      rw [← List.replicate_append_replicate, run_append, turn, Option.bind_some, rest]
      simp [ringbuffRead, empty]

end PiOS.Proof.RingInterrupt
