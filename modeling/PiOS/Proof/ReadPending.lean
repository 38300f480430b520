import PiOS.Proof.ReadBytes
import PiOS.Queue.Admission
import PiOS.Transition.Mutex

namespace PiOS.Proof.Reads
open Kernel Queue Transition Function

def serverInside : ServerPlace → Bool
  | .read _ _ | .signal _ _ | .count _ _ | .unlock _ _ => true
  | _ => false

inductive LockMove (count : Int) : Bool → Int → Bool → Prop
  | keep (inside : Bool) : LockMove count inside count inside
  | enter (up : 0 < count) : LockMove count false (count - 1) true
  | leave : LockMove count true (intWrap (count + 1)) false

theorem LockMove.mutex {κ : Type} {holds holds' : κ → Prop} {x : κ} {count count' : Int} {inside inside' : Bool}
    (move : LockMove count inside count' inside') (mutex : Mutex count holds) (before : holds x ↔ inside = true)
    (after : holds' x ↔ inside' = true) (others : ∀ y, y ≠ x → (holds' y ↔ holds y)) : Mutex count' holds' := by
  cases move with
  | keep =>
    apply mutex.same
    intro y
    by_cases same : y = x
    · rw [same, before, after]
    · exact others y same
  | enter up => exact mutex.acquire up others (after.2 rfl)
  | leave =>
    have mine : holds x := before.2 rfl
    have wrapped : intWrap (count + 1) = count + 1 := by rw [mutex.down mine]; decide
    rw [wrapped]
    refine mutex.release mine others fun still => ?_
    exact absurd (after.1 still) Bool.false_ne_true

section Lock

variable {d : ReadDevice} {s s' : Reads} {place place' : ReaderPlace} {server server' : ServerPlace}

theorem Submits.lockMove (submits : Submits s place s' place') :
    LockMove s.insertLock (readerInside place) s'.insertLock (readerInside place') := by
  cases submits with
  | idle before after =>
    rw [before, after]
    exact .keep false
  | lock r up => exact .enter up
  | unlock r rc => exact .leave
  | _ => exact .keep true

theorem serverInside_afterRead (r : Request) (got : List Byte) : serverInside (d.afterRead r got) = true := by
  cases d with
  | kbd => rfl
  | tty => rfl

theorem Serves.lockMove (serves : Serves d s server s' server') :
    LockMove s.insertLock (serverInside server) s'.insertLock (serverInside server') := by
  cases serves with
  | stop r got last =>
    rw [serverInside_afterRead]
    exact .keep true
  | lock r up => exact .enter up
  | unlock r got => exact .leave
  | _ => exact .keep _

end Lock

def sizeOf (r : Request) : Nat := r.size.toNat

abbrev Served (stock : Nat) (queue : List Request) : Prop :=
  Admitted sizeOf (fun r => r.wantsWouldblock = true) stock queue

def listed (s : Reads) : ServerPlace → List Request
  | .unlock _ _ | .remove _ _ => s.list.tail
  | _ => s.list

def First (d : ReadDevice) (s : Reads) (r : Request) : Prop := ∃ r' rest, s.list = r' :: rest ∧ r = d.take r'

def Serving (d : ReadDevice) (s : Reads) (queue : List Request) : ServerPlace → Prop
  | .down | .first | .finalize _ _ => Served s.ring.rb.length queue
  | .test r | .lock r | .unlock r _ | .remove r _ => First d s r ∧ Served s.ring.rb.length queue
  | .sleep r => First d s r ∧ r.wantsWouldblock = false ∧ Served s.ring.rb.length queue
  | .read r got => First d s r ∧ Served (s.ring.rb.length - (r.size.toNat - got.length)) queue.tail
  | .signal r _ | .count r _ => First d s r ∧ Served s.ring.rb.length queue.tail

structure Balanced (d : ReadDevice) (s : Reads) (server : ServerPlace) (extra : List Request) : Prop where
  pending : s.pending.toNat = total sizeOf (listed s server ++ extra)
  serving : Serving d s (listed s server ++ extra) server

section Serving

variable {d : ReadDevice} {s s' : Reads} {server server' : ServerPlace} {queue extra : List Request} {r : Request}

theorem take_wants (r : Request) : (d.take r).wantsWouldblock = r.wantsWouldblock := by
  cases d with
  | kbd => rfl
  | tty => rfl

theorem take_size_le (r : Request) : (d.take r).size.toNat ≤ r.size.toNat := by
  cases d with
  | kbd => exact Nat.le_refl _
  | tty =>
    have bound := r.size.isLt
    simp only [ReadDevice.take, BitVec.toNat_ofNat]
    omega

theorem Serving.more (serving : Serving d s queue server) (list : s'.list = s.list)
    (more : s.ring.rb.length ≤ s'.ring.rb.length) : Serving d s' queue server := by
  cases server <;> simp only [Serving, First, list] at serving ⊢
  case down | first | finalize => exact serving.more more
  case test | lock | signal | count | unlock | remove => exact ⟨serving.1, serving.2.more more⟩
  case sleep => exact ⟨serving.1, serving.2.1, serving.2.2.more more⟩
  case read r got => exact ⟨serving.1, serving.2.more (by omega)⟩

theorem Serving.append (serving : Serving d s queue server) (r : Request) :
    Serving d { s with list := s.list ++ [r] } queue server := by
  have first : ∀ r', First d s r' → First d { s with list := s.list ++ [r] } r' := by
    rintro r' ⟨r'', rest, first, same⟩
    exact ⟨r'', rest ++ [r], by rw [first, List.cons_append], same⟩
  cases server <;> simp only [Serving] at serving ⊢
  case down | first | finalize => exact serving
  all_goals exact ⟨first _ serving.1, serving.2⟩

theorem Serving.join (serving : Serving d s queue server) (outside : serverInside server = false)
    (left : r.wantsWouldblock = true → total sizeOf queue < s.ring.rb.length) : Serving d s (queue ++ [r]) server := by
  cases server <;> simp only [Serving] at serving ⊢
  case down | first | finalize => exact serving.join left
  case test | lock | remove => exact ⟨serving.1, serving.2.join left⟩
  case sleep => exact ⟨serving.1, serving.2.1, serving.2.2.join left⟩
  case read | signal | count | unlock => cases outside

theorem found (first : First d s r) (served : Served s.ring.rb.length (s.list ++ extra))
    (wants : r.wantsWouldblock = true) : 0 < s.ring.rb.length := by
  obtain ⟨r', rest, list, rfl⟩ := first
  rw [list, List.cons_append] at served
  rw [take_wants] at wants
  exact served.1 wants

theorem Balanced.input (balanced : Balanced d s server extra) (ring : ReadRing) (typed : List Byte)
    (more : s.ring.rb.length ≤ ring.rb.length) : Balanced d { s with ring := ring, typed := typed } server extra :=
  ⟨balanced.pending, balanced.serving.more rfl more⟩

theorem Balanced.count (balanced : Balanced d s server []) (outside : serverInside server = false)
    (fits : total sizeOf (listed s server) + r.size.toNat < 2 ^ 16)
    (left : r.wantsWouldblock = true → s.pending.toNat < s.ring.rb.length) :
    Balanced d { s with pending := s.pending + r.size } server [r] := by
  have pending := balanced.pending
  have serving := balanced.serving
  rw [List.append_nil] at pending serving
  rw [pending] at left
  refine ⟨?_, (serving.join outside left).more rfl (Nat.le_refl _)⟩
  change (s.pending + r.size).toNat = total sizeOf (listed s server ++ [r])
  rw [total_append_singleton, BitVec.toNat_add, pending]
  exact Nat.mod_eq_of_lt fits

theorem Serving.listed_append (serving : Serving d s queue server) :
    listed { s with list := s.list ++ [r] } server = listed s server ++ [r] := by
  have tail : ∀ r', First d s r' → (s.list ++ [r]).tail = s.list.tail ++ [r] := by
    rintro r' ⟨r'', rest, list, -⟩
    rw [list, List.cons_append, List.tail_cons, List.tail_cons]
  cases server
  case unlock | remove => exact tail _ serving.1
  all_goals rfl

theorem Balanced.append (balanced : Balanced d s server [r]) :
    Balanced d { s with list := s.list ++ [r] } server [] := by
  have same : listed { s with list := s.list ++ [r] } server ++ [] = listed s server ++ [r] := by
    rw [List.append_nil, balanced.serving.listed_append]
  refine ⟨?_, ?_⟩
  · rw [same]
    exact balanced.pending
  · rw [same]
    exact balanced.serving.append r

variable {got : List Byte} {left : List Byte}

theorem Balanced.countBack (balanced : Balanced d s (.count r got) extra)
    (whole : ∀ r' rest, s.list = r' :: rest → (d.take r').size = r'.size) :
    Balanced d { s with pending := s.pending - r.size } (.unlock r got) extra := by
  obtain ⟨⟨r', rest, list, rfl⟩, served⟩ := balanced.serving
  have pending := balanced.pending
  change s.pending.toNat = total sizeOf (s.list ++ extra) at pending
  change Served _ (s.list ++ extra).tail at served
  rw [list, List.cons_append] at pending served
  rw [total_cons] at pending
  have unread : listed { s with pending := s.pending - (d.take r').size } (.unlock (d.take r') got) = rest := by
    change s.list.tail = rest
    rw [list, List.tail_cons]
  refine ⟨?_, ?_⟩
  · rw [unread]
    change (s.pending - (d.take r').size).toNat = _
    rw [whole r' rest list]
    have size : sizeOf r' = r'.size.toNat := rfl
    have bound := s.pending.isLt
    rw [BitVec.toNat_sub]
    omega
  · rw [unread]
    exact ⟨⟨r', rest, list, rfl⟩, served⟩

theorem Balanced.lock (balanced : Balanced d s (.lock r) extra) (lock : Int) :
    Balanced d { s with insertLock := lock } (.read r []) extra := by
  refine ⟨balanced.pending, ?_⟩
  obtain ⟨⟨r', rest, list, rfl⟩, served⟩ := balanced.serving
  refine ⟨⟨r', rest, list, rfl⟩, ?_⟩
  change Served _ (s.list ++ extra) at served
  change Served (s.ring.rb.length - ((d.take r').size.toNat - 0)) (s.list ++ extra).tail
  rw [list, List.cons_append] at served ⊢
  have less : (d.take r').size.toNat ≤ sizeOf r' := take_size_le r'
  exact served.2.more (by omega)

theorem Balanced.byte (balanced : Balanced d s (.read r got) extra)
    (stocked : Stocked d s (.read r got) left) (short : got.length < r.size.toNat)
    (some : ringbuffEmpty s.ring.rb = false) :
    Balanced d { s with ring := { s.ring with rb := (ringbuffGet s.ring.rb).2 } }
      (.read r (got ++ [(ringbuffGet s.ring.rb).1])) extra := by
  refine ⟨balanced.pending, balanced.serving.1, ?_⟩
  have small := small_ring stocked
  have length := stocked_length stocked
  cases left with
  | nil =>
    rw [(ringbuffEmpty_iff stocked.1).2 rfl] at some
    cases some
  | cons byte left =>
    have rest : (ringbuffGet s.ring.rb).2.length = left.length :=
      ringbuff_length_eq (ringbuffGet_holds stocked.1 small).2 small
    refine balanced.serving.2.more ?_
    change _ ≤ (ringbuffGet s.ring.rb).2.length - (r.size.toNat - (got ++ [_]).length)
    rw [rest, length, List.length_append, List.length_singleton, List.length_cons]
    omega

theorem Balanced.stop (balanced : Balanced d s (.read r got) extra) : Balanced d s (d.afterRead r got) extra := by
  have served : Served s.ring.rb.length (s.list ++ extra).tail := balanced.serving.2.more (by omega)
  cases d with
  | kbd | tty => exact ⟨balanced.pending, balanced.serving.1, served⟩

theorem Serves.balanced (serves : Serves d s server s' server')
    (stocked : Stocked d s server left) (balanced : Balanced d s server extra)
    (whole : ∀ r got, server = .count r got → ∀ r' rest, s.list = r' :: rest → (d.take r').size = r'.size) :
    Balanced d s' server' extra := by
  cases serves with
  | down | ready | signal | unlock | finalize => exact ⟨balanced.pending, balanced.serving⟩
  | first r rest first => exact ⟨balanced.pending, ⟨r, rest, first, rfl⟩, balanced.serving⟩
  | wait r empty =>
    refine ⟨balanced.pending, balanced.serving.1, ?_, balanced.serving.2⟩
    apply Bool.eq_false_of_not_eq_true
    intro wants
    have positive := found balanced.serving.1 balanced.serving.2 wants
    omega
  | woken r signal => exact ⟨balanced.pending, balanced.serving.1, balanced.serving.2.2⟩
  | lock r up => exact balanced.lock _
  | byte r got short some => exact balanced.byte stocked short some
  | stop r got last => exact balanced.stop
  | count r got => exact balanced.countBack (whole r got rfl)
  | remove r r' got rest first =>
    have tail : s.list.tail = rest := by rw [first, List.tail_cons]
    have pending := balanced.pending
    have served := balanced.serving.2
    change s.pending.toNat = total sizeOf (s.list.tail ++ extra) at pending
    change Served _ (s.list.tail ++ extra) at served
    rw [tail] at pending served
    exact ⟨pending, served⟩

end Serving

structure Flight {ι : Type} (place : ι → ReaderPlace) (extra : List Request) : Prop where
  one : ∀ i r, place i = .append r → extra = [r]
  none : (∀ i r, place i ≠ .append r) → extra = []

namespace Flight

variable {ι : Type} {place : ι → ReaderPlace} {extra extra' : List Request} {i : ι} {p : ReaderPlace} {r : Request}

theorem unique (flight : Flight place extra) (flight' : Flight place extra') : extra' = extra := by
  by_cases inFlight : ∃ i r, place i = .append r
  · obtain ⟨i, r, here⟩ := inFlight
    rw [flight.one i r here, flight'.one i r here]
  · push Not at inFlight
    rw [flight.none inFlight, flight'.none inFlight]

variable [DecidableEq ι]

theorem other (flight : Flight place extra) (before : ∀ r, place i ≠ .append r) (after : ∀ r, p ≠ .append r) :
    Flight (update place i p) extra := by
  refine ⟨fun j r here => ?_, fun nobody => flight.none fun j r here => ?_⟩
  · by_cases same : j = i
    · rw [same, update_self] at here
      exact absurd here (after r)
    · rw [update_of_ne same] at here
      exact flight.one j r here
  · have other : j ≠ i := by
      rintro rfl
      exact before r here
    exact nobody j r (by rw [update_of_ne other, here])

theorem start (nobody : ∀ j r, place j ≠ .append r) : Flight (update place i (.append r)) [r] := by
  refine ⟨fun j r' here => ?_, fun nobody' => ?_⟩
  · by_cases same : j = i
    · rw [same, update_self] at here
      cases here
      rfl
    · rw [update_of_ne same] at here
      exact absurd here (nobody j r')
  · exact absurd (update_self i _ place) (nobody' i r)

theorem finish (after : ∀ r, p ≠ .append r) (others : ∀ j, j ≠ i → ∀ r, place j ≠ .append r) :
    Flight (update place i p) [] := by
  refine ⟨fun j r here => ?_, fun _ => rfl⟩
  by_cases same : j = i
  · rw [same, update_self] at here
    exact absurd here (after r)
  · rw [update_of_ne same] at here
    exact absurd here (others j same r)

end Flight

section System

variable {ι : Type} [DecidableEq ι] {d : ReadDevice} {s s' : ReadState ι} {a : ReadAction ι}

def holder (s : ReadState ι) : Option ι → Prop
  | none => serverInside s.server = true
  | some i => readerInside (s.place i) = true

variable {place : ReaderPlace} {i : ι} {shared : Reads} {server : ServerPlace} {r : Request} {next : Nat}

omit [DecidableEq ι] in
theorem append_inside (outside : readerInside place = false) (r : Request) : place ≠ .append r ∧ place ≠ .count r := by
  constructor
  · rintro rfl
    cases outside
  · rintro rfl
    cases outside

theorem holder_others (y : Option ι) (other : y ≠ some i) :
    holder { s with shared := shared, place := update s.place i place, next := next } y ↔ holder s y := by
  cases y with
  | none => exact Iff.rfl
  | some j =>
    have apart : j ≠ i := fun same => other (congrArg some same)
    change readerInside (update s.place i place j) = true ↔ _
    rw [update_of_ne apart]
    exact Iff.rfl

theorem holder_self : holder { s with shared := shared, place := update s.place i place, next := next } (some i) ↔
      readerInside place = true := by
  change readerInside (update s.place i place i) = true ↔ _
  rw [update_self]

theorem Moves.mutex (moves : Moves d s a s') (mutex : Mutex s.shared.insertLock (holder s)) :
    Mutex s'.shared.insertLock (holder s') := by
  cases moves with
  | submit i pid type size flags r outside =>
    refine (LockMove.keep false).mutex mutex (x := some i) ?_ holder_self holder_others
    change readerInside (s.place i) = true ↔ _
    rw [outside]
    exact Iff.rfl
  | next i shared place submits =>
    exact submits.lockMove.mutex mutex (x := some i) Iff.rfl holder_self holder_others
  | server shared place serves =>
    refine serves.lockMove.mutex mutex (x := none) Iff.rfl Iff.rfl fun y other => ?_
    cases y with
    | none => exact absurd rfl other
    | some j => exact Iff.rfl
  | input | halt => exact mutex.same fun y => by cases y <;> exact Iff.rfl

structure Accounted (d : ReadDevice) (s : ReadState ι) : Prop where
  stocked : ∃ left, Stocked d s.shared s.server left
  mutex : Mutex s.shared.insertLock (holder s)
  account : ∃ extra, Flight s.place extra ∧ Balanced d s.shared s.server extra
  passed : ∀ i r, s.place i = .count r → r.wantsWouldblock = true →
    s.shared.pending.toNat < s.shared.ring.rb.length
  sound : s.halted ≠ some blockedAssert

def Fits (s : ReadState ι) : ReadAction ι → Prop
  | .next i => ∀ r, s.place i = .count r → total sizeOf (listed s.shared s.server) + r.size.toNat < 2 ^ 16
  | _ => True

def Whole (d : ReadDevice) (s : ReadState ι) : ReadAction ι → Prop
  | .server => ∀ r got, s.server = .count r got →
      ∀ r' rest, s.shared.list = r' :: rest → (d.take r').size = r'.size
  | _ => True

namespace Accounted

omit [DecidableEq ι] in
theorem apart (accounted : Accounted d s) (mine : readerInside (s.place i) = true) :
    serverInside s.server = false ∧ ∀ j, j ≠ i → readerInside (s.place j) = false := by
  have held : holder s (some i) := mine
  constructor
  · apply Bool.eq_false_of_not_eq_true
    intro other
    have same := accounted.mutex.alone held (y := none) other
    cases same
  · intro j other
    apply Bool.eq_false_of_not_eq_true
    intro inside
    have same := accounted.mutex.alone held (y := some j) inside
    exact other (Option.some.inj same)

omit [DecidableEq ι] in
theorem readers_outside (accounted : Accounted d s) (mine : serverInside s.server = true) (i : ι) :
    readerInside (s.place i) = false := by
  apply Bool.eq_false_of_not_eq_true
  intro inside
  have same := accounted.mutex.alone (show holder s none from mine) (y := some i) inside
  cases same

theorem passed_update (accounted : Accounted d s) {place : ReaderPlace} {shared : Reads}
    (pending : shared.pending = s.shared.pending) (ring : shared.ring = s.shared.ring)
    (mine : ∀ r, place = .count r → r.wantsWouldblock = true → s.shared.pending.toNat < s.shared.ring.rb.length)
    (j : ι) (r : Request) (here : update s.place i place j = .count r) (wants : r.wantsWouldblock = true) :
    shared.pending.toNat < shared.ring.rb.length := by
  rw [pending, ring]
  by_cases same : j = i
  · rw [same, update_self] at here
    exact mine r here wants
  · rw [update_of_ne same] at here
    exact accounted.passed j r here wants

end Accounted

theorem Balanced.counters {s s' : Reads} {extra : List Request}
    (balanced : Balanced d s server extra) (list : s'.list = s.list) (pending : s'.pending = s.pending)
    (ring : s'.ring = s.ring) : Balanced d s' server extra := by
  have same : listed s' server = listed s server := by
    cases server <;> simp only [listed, list]
  refine ⟨?_, ?_⟩
  · rw [same, pending]
    exact balanced.pending
  · rw [same]
    exact balanced.serving.more list (by rw [ring])

theorem Accounted.keeps {before : ReaderPlace} (accounted : Accounted d s) (here : s.place i = before)
    (outside : ∀ r, before ≠ .append r) (after : ∀ r, place ≠ .append r ∧ place ≠ .count r)
    (list : shared.list = s.shared.list) (pending : shared.pending = s.shared.pending)
    (ring : shared.ring = s.shared.ring) :
    (∃ extra, Flight (update s.place i place) extra ∧ Balanced d shared s.server extra) ∧
      ∀ j r, update s.place i place j = .count r → r.wantsWouldblock = true →
        shared.pending.toNat < shared.ring.rb.length := by
  obtain ⟨extra, flight, balanced⟩ := accounted.account
  exact ⟨⟨extra, flight.other (here ▸ outside) fun r => (after r).1, balanced.counters list pending ring⟩,
    accounted.passed_update pending ring fun r same => absurd same (after r).2⟩

theorem Submits.account (accounted : Accounted d s)
    (submits : Submits s.shared (s.place i) shared place) (fits : Fits s (.next i)) :
    (∃ extra, Flight (update s.place i place) extra ∧ Balanced d shared s.server extra) ∧
      ∀ j r, update s.place i place j = .count r → r.wantsWouldblock = true →
        shared.pending.toNat < shared.ring.rb.length := by
  obtain ⟨extra, flight, balanced⟩ := accounted.account
  have apart := accounted.apart (i := i)
  generalize here : s.place i = before at submits apart
  cases submits with
  | idle outside after =>
    exact accounted.keeps here (fun r => (append_inside outside r).1) (append_inside after) rfl rfl rfl
  | lock | refuse | raise | unlock => exact accounted.keeps here (fun _ => nofun) (fun _ => ⟨nofun, nofun⟩) rfl rfl rfl
  | pass r free =>
    refine ⟨⟨extra, flight.other ?_ ?_, balanced⟩, accounted.passed_update rfl rfl ?_⟩
    · rw [here]
      rintro r ⟨⟩
    · rintro r ⟨⟩
    · intro r' same wants
      cases same
      simpa only [Reads.wouldBlock, wants, Bool.true_and, decide_eq_false_iff_not, ge_iff_le, Nat.not_le] using free
  | count r =>
    obtain ⟨outside, others⟩ := apart rfl
    have nobody : ∀ j r', s.place j ≠ .append r' := by
      intro j r'
      by_cases same : j = i
      · rw [same, here]
        rintro ⟨⟩
      · exact (append_inside (others j same) r').1
    have none := flight.none nobody
    subst none
    refine ⟨⟨[r], Flight.start nobody, balanced.count outside (fits r here) (accounted.passed i r here)⟩, ?_⟩
    intro j r' place
    by_cases same : j = i
    · rw [same, update_self] at place
      cases place
    · rw [update_of_ne same] at place
      exact absurd place (append_inside (others j same) r').2
  | append r =>
    obtain ⟨outside, others⟩ := apart rfl
    have one := flight.one i r here
    subst one
    refine ⟨⟨[], Flight.finish ?_ fun j other r' => (append_inside (others j other) r').1, balanced.append⟩,
      accounted.passed_update rfl rfl ?_⟩
    · rintro r ⟨⟩
    · rintro r ⟨⟩

theorem Serves.counters {s s' : Reads} {server' : ServerPlace} (serves : Serves d s server s' server')
    (outside : serverInside server = false) : s'.pending = s.pending ∧ s'.ring.rb = s.ring.rb := by
  cases serves with
  | byte | stop | signal | count | unlock => cases outside
  | _ => exact ⟨rfl, rfl⟩

theorem input_length {left : List Byte} (stocked : Stocked d shared server left)
    (bytes : List Byte) : shared.ring.rb.length ≤ (ringbuffWrite shared.ring.rb bytes).2.length := by
  have small := small_ring stocked
  have small' : (ringbuffWrite shared.ring.rb bytes).2.size < 2 ^ 16 := by
    rw [ringbuffWrite_size]
    exact small
  rw [ringbuff_length_eq stocked.1 small, ringbuff_length_eq (ringbuffWrite_holds stocked.1 small bytes) small',
    List.length_append]
  exact Nat.le_add_right _ _

theorem Moves.accounted (moves : Moves d s a s') (accounted : Accounted d s) (fits : Fits s a) (whole : Whole d s a) :
    Accounted d s' := by
  have mutex := moves.mutex accounted.mutex
  have sound : s.halted ≠ some blockedAssert := accounted.sound
  obtain ⟨left, stocked⟩ := accounted.stocked
  obtain ⟨extra, flight, balanced⟩ := accounted.account
  have stocked' := moves.stocked stocked
  cases moves with
  | submit i pid type size flags r outside =>
    refine ⟨stocked', mutex, ⟨extra, flight.other ?_ ?_, balanced⟩, accounted.passed_update rfl rfl ?_, sound⟩
    · rw [outside]
      rintro r ⟨⟩
    · rintro r ⟨⟩
    · rintro r ⟨⟩
  | next i shared place submits =>
    obtain ⟨account, passed⟩ := submits.account accounted fits
    exact ⟨stocked', mutex, account, passed, sound⟩
  | server shared place serves =>
    refine ⟨stocked', mutex, ⟨extra, flight, serves.balanced stocked balanced whole⟩, fun i r here wants => ?_, sound⟩
    cases inside : serverInside s.server with
    | true => exact absurd here (append_inside (accounted.readers_outside inside i) r).2
    | false =>
      obtain ⟨pending, ring⟩ := serves.counters inside
      rw [pending, ring]
      exact accounted.passed i r here wants
  | input bytes signal =>
    have more := input_length stocked bytes
    refine ⟨stocked', mutex, ⟨extra, flight, balanced.input _ _ more⟩, fun i r here wants => ?_, sound⟩
    exact Nat.lt_of_lt_of_le (accounted.passed i r here wants) more
  | halt _ stop why =>
    refine ⟨stocked', mutex, ⟨extra, flight, balanced⟩, accounted.passed, fun same => ?_⟩
    obtain ⟨r, here, wants, empty⟩ := why (Option.some.inj same)
    have serving := balanced.serving
    rw [here] at serving
    have positive := found serving.1 serving.2 wants
    omega

omit [DecidableEq ι] in
theorem start_accounted : Accounted d (readStart ι d) where
  stocked := ⟨[], start_stocked⟩
  mutex := Or.inl ⟨rfl, fun y held => by cases y <;> cases held⟩
  account := ⟨[], ⟨(fun i r here => by cases here), fun _ => rfl⟩, rfl, trivial⟩
  passed := fun i r here => by cases here
  sound := by rintro ⟨⟩

/-- `pending` is the sum of the sizes of the listed requests that were not read, with the one that is
counted already and not listed yet. -/
def PendingSum (s : ReadState ι) : Prop :=
  ∃ extra, Flight s.place extra ∧ s.shared.pending.toNat = total sizeOf (listed s.shared s.server ++ extra)

omit [DecidableEq ι] in
theorem Accounted.pendingSum (accounted : Accounted d s) : PendingSum s := by
  obtain ⟨extra, flight, balanced⟩ := accounted.account
  exact ⟨extra, flight, balanced.pending⟩

instance (a : ReadAction ι) : Decidable (Fits s a) :=
  match a with
  | .next i =>
    match here : s.place i with
    | .count r => decidable_of_iff (total sizeOf (listed s.shared s.server) + r.size.toNat < 2 ^ 16)
        ⟨fun fits r' same => by rw [here] at same; cases same; exact fits, fun fits => fits r here⟩
    | .outside | .called _ | .locked _ | .append _ | .raise _ | .unlock _ _ | .returned _ _ | .waits _ =>
      isTrue fun r same => by rw [here] at same; cases same
  | .submit _ _ _ _ _ | .server | .input _ => isTrue trivial

structure TtyAccounted (s : ReadState ι) : Prop where
  pending : PendingSum s
  refused : ∀ i r, s.place i = .locked r → s.shared.submitLocked .tty r = .unlock r (-ewouldblock) →
    s.shared.ring.rb.length ≤ total sizeOf (listed s.shared s.server)
  checked : s.halted ≠ some blockedAssert

def Unlowered (s : ReadState ι) : ReadAction ι → Prop
  | .server => ∀ r got, s.server = .count r got →
      ∀ r' rest, s.shared.list = r' :: rest → r'.size.toNat ≤ ReadDevice.tty.buffSize
  | a => Fits s a

theorem tty_take_size : (ReadDevice.tty.take r).size = r.size ↔ r.size.toNat ≤ ReadDevice.tty.buffSize := by
  have bound := r.size.isLt
  have limit : ReadDevice.tty.buffSize = 255 := rfl
  rw [← BitVec.toNat_inj, ReadDevice.take, BitVec.toNat_ofNat, limit]
  constructor
  · intro same
    omega
  · intro small
    omega

theorem refused_wouldBlock {s : Reads} (refused : s.submitLocked .tty r = .unlock r (-ewouldblock)) :
    s.ring.rb.length ≤ s.pending.toNat := by
  simp only [Reads.submitLocked, Reads.afterTest] at refused
  split at refused
  · split at refused
    · rename_i blocked
      rw [Reads.wouldBlock, Bool.and_eq_true, decide_eq_true_eq] at blocked
      exact blocked.2
    · cases refused
  · split at refused
    · exact absurd (ReaderPlace.unlock.inj refused).2 (by decide)
    · exact absurd (ReaderPlace.unlock.inj refused).2 (by decide)

omit [DecidableEq ι] in
theorem Accounted.tty (accounted : Accounted .tty s) : TtyAccounted s := by
  refine ⟨accounted.pendingSum, fun i r here refused => ?_, accounted.sound⟩
  obtain ⟨extra, flight, balanced⟩ := accounted.account
  have inside : readerInside (s.place i) = true := by rw [here]; rfl
  have none : extra = [] := flight.none fun j r' => by
    by_cases same : j = i
    · rw [same, here]
      rintro ⟨⟩
    · exact (append_inside ((accounted.apart inside).2 j same) r').1
  have pending := balanced.pending
  rw [none, List.append_nil] at pending
  rw [← pending]
  exact refused_wouldBlock refused

theorem Accounted.unlowered (accounted : Accounted .tty s) (unlowered : Unlowered s a)
    (taken : readStep .tty s a = some s') : Accounted .tty s' := by
  have moves := readStep_moves taken
  cases a with
  | server =>
    exact moves.accounted accounted trivial fun r got here r' rest list =>
      tty_take_size.2 (unlowered r got here r' rest list)
  | submit | next | input => exact moves.accounted accounted unlowered trivial

theorem readStep_count (here : s.place i = .count r) (taken : readStep d s (.next i) = some s') :
    s' = { s with
      shared := { s.shared with pending := s.shared.pending + r.size }
      place := update s.place i (.append r) } := by
  have running := readStep_running taken
  unfold readStep at taken
  rw [if_neg (by rw [running]; decide)] at taken
  simp only [here, Reads.submitNext, ReadState.settle, Option.some.injEq] at taken
  exact taken.symm

theorem readStep_countBack {got : List Byte} (here : s.server = .count r got)
    (taken : readStep d s .server = some s') :
    s' = { s with
      shared := { s.shared with pending := s.shared.pending - r.size }
      server := .unlock r got } := by
  have running := readStep_running taken
  unfold readStep at taken
  rw [if_neg (by rw [running]; decide)] at taken
  simp only [here, Reads.serverNext, ReadState.settle, Option.some.injEq] at taken
  exact taken.symm

theorem count_wraps (here : s.place i = .count r)
    (large : 2 ^ 16 ≤ total sizeOf (listed s.shared s.server) + r.size.toNat)
    (taken : readStep d s (.next i) = some s') : ¬PendingSum s' := by
  rintro ⟨extra, flight, sum⟩
  rw [readStep_count here taken] at flight sum
  have one := flight.one i r (update_self i _ s.place)
  rw [one] at sum
  change (s.shared.pending + r.size).toNat = total sizeOf (listed s.shared s.server ++ [r]) at sum
  have bound := (s.shared.pending + r.size).isLt
  rw [sum, total_append_singleton] at bound
  exact absurd bound (Nat.not_lt.2 large)

theorem countBack_short {r' : Request} {got : List Byte} {rest : List Request} (accounted : Accounted .tty s)
    (here : s.server = .count r got) (list : s.shared.list = r' :: rest) (large : ReadDevice.tty.buffSize < r'.size.toNat)
    (taken : readStep .tty s .server = some s') : ¬PendingSum s' := by
  obtain ⟨extra, flight, balanced⟩ := accounted.account
  rintro ⟨extra', flight', sum⟩
  rw [readStep_countBack here taken] at flight' sum
  have same : extra' = extra := flight.unique flight'
  rw [same] at sum
  have pending := balanced.pending
  have serving := balanced.serving
  rw [here] at pending serving
  obtain ⟨⟨r'', rest', list', taken⟩, -⟩ := serving
  rw [list] at list'
  cases list'
  change s.shared.pending.toNat = total sizeOf (s.shared.list ++ extra) at pending
  change (s.shared.pending - r.size).toNat = total sizeOf (s.shared.list.tail ++ extra) at sum
  rw [list, List.cons_append, total_cons] at pending
  rw [list, List.tail_cons, BitVec.toNat_sub] at sum
  have lowered : r.size.toNat = 255 := by
    rw [taken]
    change (BitVec.ofNat 16 (min r'.size.toNat ReadDevice.tty.buffSize)).toNat = 255
    rw [Nat.min_eq_right (Nat.le_of_lt large)]
    rfl
  have size : sizeOf r' = r'.size.toNat := rfl
  have limit : ReadDevice.tty.buffSize = 255 := rfl
  have bound := r'.size.isLt
  have bound' := s.shared.pending.isLt
  omega

theorem Accounted.lowered (accounted : Accounted .tty s) (lowered : ¬Unlowered s a)
    (taken : readStep .tty s a = some s') : ¬TtyAccounted s' := by
  intro kept
  cases a with
  | server =>
    simp only [Unlowered, not_forall, Nat.not_le] at lowered
    obtain ⟨r, got, here, r', rest, list, large⟩ := lowered
    exact countBack_short accounted here list large taken kept.pending
  | next i =>
    simp only [Unlowered, Fits, not_forall, Nat.not_lt] at lowered
    obtain ⟨r, here, large⟩ := lowered
    exact count_wraps here large taken kept.pending
  | submit | input => exact lowered trivial

theorem tty_accounted_iff (as : List (ReadAction ι)) :
    Throughout (readStep .tty) TtyAccounted (readStart ι .tty) as ↔
      Guarded (readStep .tty) Unlowered (readStart ι .tty) as :=
  throughout_iff_guarded (I := fun s : ReadState ι => Accounted .tty s) (fun _ accounted => accounted.tty)
    (fun _ _ _ accounted unlowered taken => accounted.unlowered unlowered taken)
    (fun _ _ _ accounted lowered taken => accounted.lowered lowered taken) start_accounted

def ttyRead : List (ReadAction Unit) :=
  [.input [0x61], .submit () 0 vfsAsyncTypeRead 256 0] ++ List.replicate 6 (.next ()) ++ List.replicate 10 .server

def ttyReads : List (ReadAction (Fin 3)) :=
  [.submit 0 0 vfsAsyncTypeRead 0x8000 0, .submit 1 0 vfsAsyncTypeRead 0x8000 0] ++
    List.replicate 6 (.next 0) ++ List.replicate 6 (.next 1) ++
    [.input [0x61], .submit 2 0 vfsAsyncTypeRead 1 vfsAsyncFlagWantWouldblock] ++
    List.replicate 6 (.next 2) ++ List.replicate 10 .server ++ [.input [0x62]] ++ List.replicate 10 .server ++
    List.replicate 3 .server

theorem tty_counter_drifts :
    (∃ s, run (readStep .tty) (readStart Unit .tty) ttyRead = some s ∧ s.shared.list = [] ∧ s.shared.pending = 1 ∧
        ¬TtyAccounted s) ∧
      ∃ s, run (readStep .tty) (readStart (Fin 3) .tty) ttyReads = some s ∧ s.halted = some blockedAssert := by
  constructor
  · have drifts : (run (readStep .tty) (readStart Unit .tty) ttyRead).map
        (fun s => (s.shared.list, s.shared.pending, s.server, s.place ())) =
        some ([], 1, .down, .returned ⟨0, 0, vfsAsyncTypeRead, 256, 0⟩ 0) := by
      decide +kernel
    obtain ⟨s, reached, same⟩ := Option.map_eq_some_iff.1 drifts
    simp only [Prod.mk.injEq] at same
    obtain ⟨list, pending, server, place⟩ := same
    refine ⟨s, reached, list, pending, fun accounted => ?_⟩
    obtain ⟨extra, flight, sum⟩ := accounted.pending
    have none : extra = [] := flight.none fun i r here => by
      cases i
      rw [place] at here
      cases here
    have unread : listed s.shared .down = [] := list
    rw [none, server, pending, unread] at sum
    exact absurd sum (by decide)
  · have halts : (run (readStep .tty) (readStart (Fin 3) .tty) ttyReads).map (·.halted) = some (some blockedAssert) := by
      decide +kernel
    exact Option.map_eq_some_iff.1 halts

end System

end PiOS.Proof.Reads
