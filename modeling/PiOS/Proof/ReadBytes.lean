import PiOS.Kernel.Driver.Reads
import PiOS.Proof.Ringbuff
import PiOS.Transition.Outcome
import PiOS.Transition.Run

namespace PiOS.Proof.Reads
open Kernel Queue Transition

def readerInside : ReaderPlace → Bool
  | .locked _ | .count _ | .append _ | .raise _ | .unlock _ _ => true
  | _ => false

inductive Submits (s : Reads) : ReaderPlace → Reads → ReaderPlace → Prop
  | idle {place place' : ReaderPlace} (before : readerInside place = false) (after : readerInside place' = false) :
      Submits s place s place'
  | lock (r : Request) (up : 0 < s.insertLock) :
      Submits s (.called r) { s with insertLock := s.insertLock - 1 } (.locked r)
  | refuse (r : Request) (rc : Word) : Submits s (.locked r) s (.unlock r rc)
  | pass (r : Request) (free : s.wouldBlock r = false) : Submits s (.locked r) s (.count r)
  | count (r : Request) :
      Submits s (.count r) { s with pending := s.pending + r.size } (.append r)
  | append (r : Request) : Submits s (.append r) { s with list := s.list ++ [r] } (.raise r)
  | raise (r : Request) (sema : Int) : Submits s (.raise r) { s with listSema := sema } (.unlock r 0)
  | unlock (r : Request) (rc : Word) : Submits s (.unlock r rc) s.upLock (.returned r rc)

inductive Serves (d : ReadDevice) (s : Reads) : ServerPlace → Reads → ServerPlace → Prop
  | down (sema : Int) : Serves d s .down { s with listSema := sema } .first
  | first (r : Request) (rest : List Request) (first : s.list = r :: rest) : Serves d s .first s (.test (d.take r))
  | wait (r : Request) (empty : s.ring.rb.length = 0) : Serves d s (.test r) s (.sleep r)
  | ready (r : Request) : Serves d s (.test r) s (.lock r)
  | woken (r : Request) (signal : Int) :
      Serves d s (.sleep r) { s with ring := { s.ring with dataSignal := signal } } (.test r)
  | lock (r : Request) (up : 0 < s.insertLock) :
      Serves d s (.lock r) { s with insertLock := s.insertLock - 1 } (.read r [])
  | byte (r : Request) (got : List Byte) (short : got.length < r.size.toNat) (some : ringbuffEmpty s.ring.rb = false) :
      Serves d s (.read r got) { s with ring := { s.ring with rb := (ringbuffGet s.ring.rb).2 } }
        (.read r (got ++ [(ringbuffGet s.ring.rb).1]))
  | stop (r : Request) (got : List Byte) (last : got.length < r.size.toNat → ringbuffEmpty s.ring.rb = true) :
      Serves d s (.read r got) s (d.afterRead r got)
  | signal (r : Request) (got : List Byte) (signal : Int) :
      Serves d s (.signal r got) { s with ring := { s.ring with dataSignal := signal } } (.count r got)
  | count (r : Request) (got : List Byte) :
      Serves d s (.count r got) { s with pending := s.pending - r.size } (.unlock r got)
  | unlock (r : Request) (got : List Byte) : Serves d s (.unlock r got) s.upLock (.remove r got)
  | remove (r r' : Request) (got : List Byte) (rest : List Request) (first : s.list = r' :: rest) :
      Serves d s (.remove r got) { s with list := rest } (.finalize r got)
  | finalize (r : Request) (got : List Byte) :
      Serves d s (.finalize r got) { s with done := s.done ++ [⟨r.id, d.result r got, got⟩] } .down

section Statements

variable {d : ReadDevice} {s s' : Reads} {place place' : ReaderPlace} {server server' : ServerPlace} {r : Request}

theorem downLock_ok (taken : s.downLock = .ok s') :
    0 < s.insertLock ∧ s' = { s with insertLock := s.insertLock - 1 } := by
  obtain ⟨count, down, rfl⟩ := map_eq_ok.1 taken
  obtain ⟨up, rfl⟩ := semaphoreDown_ok down
  exact ⟨up, rfl⟩

theorem afterTest_submits (r : Request) : Submits s (.locked r) s (s.afterTest r) := by
  unfold Reads.afterTest
  split
  · exact .refuse r _
  · rename_i free
    exact .pass r (Bool.eq_false_of_not_eq_true free)

theorem submitLocked_submits (r : Request) : Submits s (.locked r) s (s.submitLocked d r) := by
  cases d with
  | kbd => exact afterTest_submits r
  | tty =>
    simp only [Reads.submitLocked]
    split
    · exact afterTest_submits r
    · split
      · exact .refuse r _
      · exact .refuse r _

theorem submitNext_submits (taken : s.submitNext d place = .ok (s', place')) : Submits s place s' place' := by
  cases place with
  | outside => cases taken
  | called r =>
    simp only [Reads.submitNext] at taken
    split at taken
    · cases taken
      exact .idle rfl rfl
    · obtain ⟨shared, down, same⟩ := map_eq_ok.1 taken
      cases same
      obtain ⟨up, rfl⟩ := downLock_ok down
      exact .lock r up
  | locked r =>
    cases taken
    exact submitLocked_submits r
  | count r =>
    cases taken
    exact .count r
  | append r =>
    cases taken
    exact .append r
  | raise r =>
    cases taken
    exact .raise r _
  | unlock r rc =>
    cases taken
    exact .unlock r rc
  | returned r rc =>
    cases taken
    split
    · exact .idle rfl rfl
    · exact .idle rfl rfl
  | waits r =>
    simp only [Reads.submitNext] at taken
    split at taken
    · cases taken
      exact .idle rfl rfl
    · cases taken

theorem serverTest_serves (taken : s.serverTest d r = .ok (s', server')) : Serves d s (.test r) s' server' := by
  unfold Reads.serverTest at taken
  split at taken
  · rename_i empty
    split at taken
    · cases taken
    · cases taken
      exact .wait r empty
  · split at taken
    · cases taken
    · cases taken
      exact .ready r

theorem serverRead_serves (r : Request) (got : List Byte) :
    Serves d s (.read r got) (s.serverRead d r got).1 (s.serverRead d r got).2 := by
  unfold Reads.serverRead
  split
  · rename_i more
    exact .byte r got more.1 more.2
  · rename_i last
    refine .stop r got fun short => ?_
    by_contra some
    exact last ⟨short, Bool.eq_false_of_not_eq_true some⟩

theorem serverSignal_serves {got : List Byte} (taken : s.serverSignal = .ok s') :
    Serves d s (.signal r got) s' (.count r got) := by
  unfold Reads.serverSignal at taken
  split at taken
  · obtain ⟨signal, -, rfl⟩ := map_eq_ok.1 taken
    exact .signal r got signal
  · cases taken
    exact .signal r got s.ring.dataSignal

theorem serverNext_serves (taken : s.serverNext d server = .ok (s', server')) : Serves d s server s' server' := by
  cases server with
  | down =>
    obtain ⟨count, -, same⟩ := map_eq_ok.1 taken
    cases same
    exact .down count
  | first =>
    simp only [Reads.serverNext] at taken
    split at taken
    · cases taken
    · rename_i r rest first
      cases taken
      exact .first r rest first
  | test r => exact serverTest_serves taken
  | sleep r =>
    obtain ⟨count, -, same⟩ := map_eq_ok.1 taken
    cases same
    exact .woken r count
  | lock r =>
    obtain ⟨shared, down, same⟩ := map_eq_ok.1 taken
    cases same
    obtain ⟨up, rfl⟩ := downLock_ok down
    exact .lock r up
  | read r got =>
    have same : s.serverRead d r got = (s', server') := Except.ok.inj taken
    have serves : Serves d s (.read r got) (s.serverRead d r got).1 (s.serverRead d r got).2 := serverRead_serves r got
    rwa [same] at serves
  | signal r got =>
    obtain ⟨shared, signal, same⟩ := map_eq_ok.1 taken
    cases same
    exact serverSignal_serves signal
  | count r got =>
    cases taken
    exact .count r got
  | unlock r got =>
    cases taken
    exact .unlock r got
  | remove r got =>
    simp only [Reads.serverNext] at taken
    split at taken
    · cases taken
    · rename_i r' rest first
      cases taken
      exact .remove r r' got rest first
  | finalize r got =>
    cases taken
    exact .finalize r got

end Statements

def blockedAssert : Stop := .assertion "!(req->flags & VFS_ASYNC_FLAG_WANT_WOULDBLOCK)"

section Failures

variable {d : ReadDevice} {s : Reads} {place : ReaderPlace} {server : ServerPlace} {stop : Stop} {count : Int}

theorem error_other {α : Type} (other : stop ≠ blockedAssert) :
    (Except.error stop : Except Stop α) ≠ .error blockedAssert := fun same => other (Except.error.inj same)

theorem semaphoreDown_other : semaphoreDown count ≠ .error blockedAssert := by
  unfold semaphoreDown
  split
  · exact error_other (by decide)
  · split
    · exact error_other (by decide)
    · rintro ⟨⟩

theorem semaphoreBinaryUp_other : semaphoreBinaryUp count ≠ .error blockedAssert := by
  unfold semaphoreBinaryUp
  split
  · rintro ⟨⟩
  · exact error_other (by decide)

theorem map_other {α β : Type} {x : Except Stop α} {f : α → β} (other : x ≠ .error stop) : x.map f ≠ .error stop :=
  mt map_eq_error.mp other

theorem submitNext_other : s.submitNext d place ≠ .error blockedAssert := by
  cases place with
  | outside => exact error_other (by decide)
  | called r =>
    simp only [Reads.submitNext]
    split
    · rintro ⟨⟩
    · exact map_other (map_other semaphoreDown_other)
  | waits r =>
    simp only [Reads.submitNext]
    split
    · rintro ⟨⟩
    · exact error_other (by decide)
  | _ => rintro ⟨⟩

theorem serverNext_blocked (failed : s.serverNext d server = .error blockedAssert) :
    ∃ r, server = .test r ∧ r.wantsWouldblock = true ∧ s.ring.rb.length = 0 := by
  cases server with
  | down | sleep => exact absurd failed (map_other semaphoreDown_other)
  | first | remove =>
    simp only [Reads.serverNext] at failed
    split at failed
    · exact absurd failed (error_other (by decide))
    · cases failed
  | test r =>
    simp only [Reads.serverNext, Reads.serverTest] at failed
    split at failed
    · rename_i empty
      split at failed
      · rename_i wants
        exact ⟨r, rfl, wants.2, empty⟩
      · cases failed
    · split at failed
      · exact absurd failed (error_other (by decide))
      · cases failed
  | lock r => exact absurd failed (map_other (map_other semaphoreDown_other))
  | signal r got =>
    refine absurd failed (map_other ?_)
    unfold Reads.serverSignal
    split
    · exact map_other semaphoreBinaryUp_other
    · rintro ⟨⟩
  | read | count | unlock | finalize => cases failed

theorem input_other {bytes : List Byte} : s.input bytes ≠ .error blockedAssert :=
  map_other (map_other semaphoreBinaryUp_other)

end Failures

variable {ι : Type} [DecidableEq ι] {d : ReadDevice} {s s' : ReadState ι} {a : ReadAction ι}

inductive Moves (d : ReadDevice) (s : ReadState ι) : ReadAction ι → ReadState ι → Prop
  | submit (i : ι) (pid type size flags : Word) (r : Request) (outside : s.place i = .outside) :
      Moves d s (.submit i pid type size flags)
        { s with place := Function.update s.place i (.called r), next := s.next + 1 }
  | next (i : ι) (shared : Reads) (place : ReaderPlace) (submits : Submits s.shared (s.place i) shared place) :
      Moves d s (.next i) { s with shared := shared, place := Function.update s.place i place }
  | server (shared : Reads) (place : ServerPlace) (serves : Serves d s.shared s.server shared place) :
      Moves d s .server { s with shared := shared, server := place }
  | input (bytes : List Byte) (signal : Int) :
      Moves d s (.input bytes) { s with shared := { s.shared with
        ring := ⟨(ringbuffWrite s.shared.ring.rb bytes).2, signal⟩
        typed := s.shared.typed ++ bytes.take (ringbuffWrite s.shared.ring.rb bytes).1 } }
  | halt (a : ReadAction ι) (stop : Stop)
      (why : stop = blockedAssert →
        ∃ r, s.server = .test r ∧ r.wantsWouldblock = true ∧ s.shared.ring.rb.length = 0) :
      Moves d s a { s with halted := some stop }

omit [DecidableEq ι] in
theorem settle_cases {φ : Type} {out : Except Stop φ} {move : φ → ReadState ι} (taken : s.settle out move = some s') :
    (∃ result, out = .ok result ∧ s' = move result) ∨
      ∃ stop, out = .error stop ∧ s' = { s with halted := some stop } := by
  unfold ReadState.settle at taken
  split at taken
  · rename_i result
    cases taken
    exact Or.inl ⟨result, rfl, rfl⟩
  · cases taken
  · rename_i stop _
    cases taken
    exact Or.inr ⟨stop, rfl, rfl⟩

theorem readStep_running (taken : readStep d s a = some s') : s.halted = none := by
  unfold readStep at taken
  split at taken
  · cases taken
  · rename_i running
    exact Option.not_isSome_iff_eq_none.1 running

theorem readStep_moves (taken : readStep d s a = some s') : Moves d s a s' := by
  have running := readStep_running taken
  unfold readStep at taken
  rw [if_neg (by rw [running]; decide)] at taken
  cases a with
  | submit i pid type size flags =>
    dsimp only at taken
    split at taken
    · rename_i outside
      cases taken
      exact .submit i pid type size flags _ outside
    · cases taken
  | next i =>
    rcases settle_cases taken with ⟨result, done, rfl⟩ | ⟨stop, failed, rfl⟩
    · exact .next i _ _ (submitNext_submits done)
    · refine .halt _ stop fun same => ?_
      subst same
      exact absurd failed submitNext_other
  | server =>
    rcases settle_cases taken with ⟨result, done, rfl⟩ | ⟨stop, failed, rfl⟩
    · exact .server _ _ (serverNext_serves done)
    · refine .halt _ stop fun same => ?_
      subst same
      exact serverNext_blocked failed
  | input bytes =>
    dsimp only at taken
    split at taken
    · cases taken
    · rcases settle_cases taken with ⟨result, done, rfl⟩ | ⟨stop, failed, rfl⟩
      · obtain ⟨ring, submitted, rfl⟩ := map_eq_ok.1 done
        obtain ⟨signal, -, rfl⟩ := map_eq_ok.1 submitted
        exact .input bytes signal
      · refine .halt _ stop fun same => ?_
        subst same
        exact absurd failed input_other

def gotten : ServerPlace → List Byte
  | .read _ got | .signal _ got | .count _ got | .unlock _ got | .remove _ got | .finalize _ got => got
  | _ => []

def Stocked (d : ReadDevice) (s : Reads) (server : ServerPlace) (left : List Byte) : Prop :=
  (ring s.ring.rb).Holds left ∧ s.ring.rb.size = d.buffSize + 1 ∧
    s.typed = s.done.flatMap (·.placed) ++ gotten server ++ left

variable {left : List Byte} {server : ServerPlace} {place place' : ReaderPlace} {server' : ServerPlace}

theorem small_ring {s : Reads} (stocked : Stocked d s server left) : s.ring.rb.size < 2 ^ 16 := by
  rw [stocked.2.1]
  cases d with
  | kbd => decide
  | tty => decide

theorem stocked_length {s : Reads} (stocked : Stocked d s server left) :
    s.ring.rb.length = left.length := ringbuff_length_eq stocked.1 (small_ring stocked)

theorem gotten_afterRead (r : Request) (got : List Byte) : gotten (d.afterRead r got) = got := by
  cases d with
  | kbd => rfl
  | tty => rfl

theorem Submits.stocked {s s' : Reads}
    (submits : Submits s place s' place') (stocked : Stocked d s server left) : Stocked d s' server left := by
  cases submits <;> exact stocked

theorem Submits.done {s s' : Reads} (submits : Submits s place s' place') : s'.done = s.done := by
  cases submits <;> rfl

theorem Serves.stocked {s s' : Reads} (serves : Serves d s server s' server') (stocked : Stocked d s server left) :
    ∃ left', Stocked d s' server' left' := by
  cases serves with
  | byte r got short some =>
    cases left with
    | nil =>
      rw [(ringbuffEmpty_iff stocked.1).2 rfl] at some
      cases some
    | cons byte left =>
      obtain ⟨first, rest⟩ := ringbuffGet_holds stocked.1 (small_ring stocked)
      refine ⟨left, rest, stocked.2.1, ?_⟩
      rw [first]
      change s.typed = s.done.flatMap (·.placed) ++ (got ++ [byte]) ++ left
      rw [stocked.2.2, gotten]
      simp
  | stop r got last =>
    refine ⟨left, stocked.1, stocked.2.1, ?_⟩
    rw [gotten_afterRead]
    exact stocked.2.2
  | finalize r got =>
    refine ⟨left, stocked.1, stocked.2.1, ?_⟩
    change s.typed = (s.done ++ [_]).flatMap ReadDone.placed ++ [] ++ left
    rw [stocked.2.2]
    simp [gotten]
  | _ => exact ⟨left, stocked⟩

theorem Moves.stocked (moves : Moves d s a s') (stocked : Stocked d s.shared s.server left) :
    ∃ left', Stocked d s'.shared s'.server left' := by
  cases moves with
  | submit | halt => exact ⟨left, stocked⟩
  | next i shared place submits => exact ⟨left, submits.stocked stocked⟩
  | server shared place serves => exact serves.stocked stocked
  | input bytes signal =>
    refine ⟨_, ringbuffWrite_holds stocked.1 (small_ring stocked) bytes, ?_, ?_⟩
    · rw [← stocked.2.1]
      exact ringbuffWrite_size bytes
    · change s.shared.typed ++ _ = s.shared.done.flatMap (·.placed) ++ gotten s.server ++ (left ++ _)
      rw [stocked.2.2, List.append_assoc]

omit [DecidableEq ι] in
theorem start_stocked : Stocked d (readStart ι d).shared (readStart ι d).server [] := by
  refine ⟨?_, ?_, rfl⟩
  · cases d with
    | kbd => exact RingBuffer.holds_nil (show 0 < 17 by decide)
    | tty => exact RingBuffer.holds_nil (show 0 < 256 by decide)
  · cases d with
    | kbd => rfl
    | tty => rfl

structure Faithful (s : ReadState ι) : Prop where
  counts : ∀ x ∈ s.shared.done, x.value.toInt = x.placed.length
  bytes : ∀ stale, s.shared.done.flatMap (ReadDone.copied stale) <+: s.shared.typed

def Supplied (s : ReadState ι) : ReadAction ι → Prop
  | .server =>
    match s.server with
    | .read r got => r.size.toNat < 2 ^ 15 ∧ (got.length < r.size.toNat → ringbuffEmpty s.shared.ring.rb = false)
    | _ => True
  | _ => True

instance (a : ReadAction ι) : Decidable (Supplied s a) :=
  match a with
  | .server =>
    match place : s.server with
    | .read r got => decidable_of_iff
        (r.size.toNat < 2 ^ 15 ∧ (got.length < r.size.toNat → ringbuffEmpty s.shared.ring.rb = false))
        (by simp only [Supplied, place])
    | .down | .first | .test _ | .sleep _ | .lock _ | .signal _ _ | .count _ _ | .unlock _ _ | .remove _ _
    | .finalize _ _ => isTrue (by simp only [Supplied, place])
  | .submit _ _ _ _ _ | .next _ | .input _ => isTrue trivial

def Filled : ServerPlace → Prop
  | .read r got => got.length ≤ r.size.toNat
  | .signal r got | .count r got | .unlock r got | .remove r got | .finalize r got =>
    got.length = r.size.toNat ∧ r.size.toNat < 2 ^ 15
  | _ => True

theorem Serves.filled {s s' : Reads} (serves : Serves d s server s' server')
    (supplied : ∀ r got, server = .read r got →
      r.size.toNat < 2 ^ 15 ∧ (got.length < r.size.toNat → ringbuffEmpty s.ring.rb = false))
    (filled : Filled server) : Filled server' := by
  cases serves with
  | lock r up => exact Nat.zero_le _
  | byte r got short some =>
    change (got ++ [_]).length ≤ r.size.toNat
    rw [List.length_append]
    exact short
  | stop r got last =>
    obtain ⟨small, found⟩ := supplied r got rfl
    have most : got.length ≤ r.size.toNat := filled
    have full : got.length = r.size.toNat := by
      by_contra other
      have short : got.length < r.size.toNat := by omega
      have empty := last short
      rw [found short] at empty
      cases empty
    cases d with
    | kbd | tty => exact ⟨full, small⟩
  | down | first | wait | ready | woken | finalize => trivial
  | signal | count | unlock | remove => exact filled

omit [DecidableEq ι] in
theorem Supplied.read (supplied : Supplied s .server) {r : Request} {got : List Byte} (reads : s.server = .read r got) :
    r.size.toNat < 2 ^ 15 ∧ (got.length < r.size.toNat → ringbuffEmpty s.shared.ring.rb = false) := by
  simpa only [Supplied, reads] using supplied

theorem Moves.filled (moves : Moves d s a s') (supplied : Supplied s a) (filled : Filled s.server) :
    Filled s'.server := by
  cases moves with
  | server shared place serves => exact serves.filled (fun r got reads => supplied.read reads) filled
  | _ => exact filled

theorem toInt_size {w : Word} (small : w.toNat < 2 ^ 15) : w.toInt = w.toNat := by
  rw [BitVec.toInt_eq_toNat_cond, if_pos (by omega)]

theorem Moves.counts (moves : Moves d s a s') (filled : Filled s.server)
    (counts : ∀ x ∈ s.shared.done, x.value.toInt = x.placed.length) :
    ∀ x ∈ s'.shared.done, x.value.toInt = x.placed.length := by
  cases moves with
  | submit | input | halt => exact counts
  | next i shared place submits =>
    change ∀ x ∈ shared.done, _
    rw [submits.done]
    exact counts
  | server shared place serves =>
    obtain ⟨reads, places, server, next, halted⟩ := s
    cases serves with
    | finalize r got =>
      obtain ⟨full, small⟩ := filled
      intro x member
      rcases List.mem_append.1 member with old | new
      · exact counts x old
      · rw [List.mem_singleton.1 new]
        change (d.result r got).toInt = got.length
        have value : d.result r got = r.size := by
          cases d with
          | kbd => rfl
          | tty =>
            apply BitVec.eq_of_toNat_eq
            rw [ReadDevice.result, BitVec.toNat_ofNat, full]
            omega
        rw [value, toInt_size small, full]
    | _ => exact counts

theorem copied_eq {x : ReadDone} (count : x.value.toInt = x.placed.length) (stale : Nat → Nat → Byte) :
    x.copied stale = x.placed := by
  have nonneg : 0 ≤ x.value.toInt := by omega
  have length : x.value.toNat = x.placed.length := by
    have natural := BitVec.toInt_eq_toNat_cond x.value
    split at natural
    · omega
    · have bound := x.value.isLt
      omega
  unfold ReadDone.copied
  split
  · apply List.ext_getElem
    · rw [List.length_map, List.length_range, length]
    · intro j inside inside'
      rw [List.getElem_map, List.getElem_range, List.getD_eq_getElem?_getD, List.getElem?_eq_getElem inside',
        Option.getD_some]
  · have empty : x.placed = [] := List.eq_nil_of_length_eq_zero (by omega)
    exact empty.symm

omit [DecidableEq ι] in
theorem faithful_of_counts (stocked : Stocked d s.shared s.server left)
    (counts : ∀ x ∈ s.shared.done, x.value.toInt = x.placed.length) : Faithful s := by
  refine ⟨counts, fun stale => ?_⟩
  have copied : s.shared.done.flatMap (ReadDone.copied stale) = s.shared.done.flatMap (·.placed) :=
    List.flatMap_congr fun x member => copied_eq (counts x member) stale
  rw [copied, stocked.2.2, List.append_assoc]
  exact List.prefix_append _ _

theorem kbd_reads_faithful (as : List (ReadAction ι))
    (supplied : Guarded (readStep .kbd) Supplied (readStart ι .kbd) as) :
    Throughout (readStep .kbd) Faithful (readStart ι .kbd) as := by
  have invariant := throughout_of_guarded
    (I := fun s : ReadState ι => (∃ left, Stocked .kbd s.shared s.server left) ∧ Filled s.server ∧
      ∀ x ∈ s.shared.done, x.value.toInt = x.placed.length)
    (fun s a s' ⟨⟨left, stocked⟩, filled, counts⟩ allowed taken =>
      have moves := readStep_moves taken
      ⟨moves.stocked stocked, moves.filled allowed filled, moves.counts filled counts⟩)
    ⟨⟨[], start_stocked⟩, trivial, fun x member => absurd member (List.not_mem_nil)⟩ supplied
  exact throughout_mono (fun s ⟨⟨left, stocked⟩, _, counts⟩ => faithful_of_counts stocked counts) invariant

def kbdRead (typed : List Byte) (size : Word) : List (ReadAction Unit) :=
  typed.map (fun c => .input [c]) ++ [.submit () 0 vfsAsyncTypeRead size 0] ++ List.replicate 6 (.next ()) ++
    List.replicate (typed.length + 10) .server

theorem kbd_reads_faithful_ok :
    Guarded (readStep .kbd) Supplied (readStart Unit .kbd) (kbdRead [0x61, 0x62] 2) ∧
      Throughout (readStep .kbd) Faithful (readStart Unit .kbd) (kbdRead [0x61, 0x62] 2) := by
  have supplied : Guarded (readStep .kbd) Supplied (readStart Unit .kbd) (kbdRead [0x61, 0x62] 2) := by
    decide +kernel
  exact ⟨supplied, kbd_reads_faithful _ supplied⟩

theorem kbd_read_returns_size :
    ∃ s, run (readStep .kbd) (readStart Unit .kbd) (kbdRead [0x61] 2) = some s ∧
      s.shared.done = [⟨0, 2, [0x61]⟩] ∧ ¬Faithful s := by
  have reads : (run (readStep .kbd) (readStart Unit .kbd) (kbdRead [0x61] 2)).map (·.shared.done) =
      some [⟨0, 2, [0x61]⟩] := by
    decide +kernel
  obtain ⟨s, reached, done⟩ := Option.map_eq_some_iff.1 reads
  refine ⟨s, reached, done, fun faithful => ?_⟩
  have count := faithful.counts ⟨0, 2, [0x61]⟩ (by rw [done]; exact List.mem_singleton_self _)
  exact absurd count (by decide)

end PiOS.Proof.Reads
