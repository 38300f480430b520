import Mathlib.Data.Fintype.Basic
import PiOS.Kernel.Sys.Mq
import PiOS.Queue.Counted
import PiOS.Transition.Outcome
import PiOS.Transition.Population
import PiOS.Transition.Run

namespace PiOS.Proof.MessageQueue
open Kernel Queue Transition

def holdsLock : MqPlace → Bool
  | .pushAppend _ | .pushUpData _ | .pushLen _ | .pushUpLock _ => true
  | .popRemove | .popLen _ | .popUpLock _ => true
  | .nonblockTest | .nonblockGiveUp | .nonblockRemove => true
  | .nonblockDownData _ | .nonblockLen _ | .nonblockUpLock _ => true
  | _ => false

def downsData : MqPlace → Bool
  | .popDownData | .nonblockDownData _ => true
  | _ => false

variable {ι : Type} [DecidableEq ι] [Fintype ι]

def PopsEmpty (s : MqState ι) : Prop := ∃ i, s.place i = .popRemove ∧ s.mqe.mq = []

def HoldsAndWaits (s : MqState ι) : Prop :=
  ∃ i, holdsLock (s.place i) ∧ downsData (s.place i) ∧ s.mqe.dataAvailable = 0

def Progress (s : MqState ι) : Prop := ¬ PopsEmpty s ∧ ¬ HoldsAndWaits s

/-- `mq_pop_nonblock` removes a message only while `data_available` is up, and while it has not yet
lowered `data_available` no `mq_pop` takes the last unit. -/
def Orderly (s : MqState ι) (a : MqAction ι) : Prop :=
  (s.place a.actor = .nonblockRemove → 0 < s.mqe.dataAvailable) ∧
  (s.place a.actor = .popDownData → s.mqe.dataAvailable = 1 →
    ∀ j, ¬ (holdsLock (s.place j) ∧ downsData (s.place j)))

def raises : MqPlace → Bool
  | .pushUpData _ => true
  | _ => false

def takes : MqPlace → Bool
  | .popDownLock | .popRemove => true
  | _ => false

def lowers : MqPlace → Bool
  | .nonblockDownData _ => true
  | _ => false

def seen (mqe : MqEntry) (r t l : Nat) (sent taken : List MqMsg) (place : MqPlace) : Counted MqMsg where
  queue := mqe.mq
  count := mqe.dataAvailable
  toRaise := r + if raises place then 1 else 0
  toTake := t + if takes place then 1 else 0
  toLower := l + if lowers place then 1 else 0
  sent := sent
  taken := taken

section Statements

variable {mqe mqe' : MqEntry} {place place' target : MqPlace} {room : Bool}

theorem downLock_ok (down : downLock mqe target = .ok (mqe', place')) :
    0 < mqe.lock ∧ mqe' = { mqe with lock := mqe.lock - 1 } ∧ place' = target := by
  obtain ⟨left, count, same⟩ := map_eq_ok.mp down
  obtain ⟨up, rfl⟩ := semaphoreDown_ok count
  cases same
  exact ⟨up, rfl, rfl⟩

theorem downData_ok (down : downData mqe target = .ok (mqe', place')) :
    0 < mqe.dataAvailable ∧ mqe' = { mqe with dataAvailable := mqe.dataAvailable - 1 } ∧ place' = target := by
  obtain ⟨left, count, same⟩ := map_eq_ok.mp down
  obtain ⟨up, rfl⟩ := semaphoreDown_ok count
  cases same
  exact ⟨up, rfl, rfl⟩

theorem takeFirst_ok {target : MqMsg → MqPlace} (first : takeFirst mqe target = .ok (mqe', place')) :
    ∃ m, mqe.mq = m :: mqe'.mq ∧ mqe' = { mqe with mq := mqe'.mq } ∧ place' = target m := by
  unfold takeFirst at first
  cases list : mqe.mq with
  | nil => rw [list] at first; cases first
  | cons m rest =>
    rw [list] at first
    cases first
    exact ⟨m, rfl, rfl, rfl⟩

inductive Stmt (mqe : MqEntry) : MqPlace → MqEntry → MqPlace → Prop
  | callPush (value : MqReturn) (msg : MqMsg) : Stmt mqe (.returned value) mqe (.pushKmalloc msg)
  | callPop (value : MqReturn) : Stmt mqe (.returned value) mqe .popDownData
  | callNonblock (value : MqReturn) : Stmt mqe (.returned value) mqe .nonblockDownLock
  | pushKmalloc (msg : MqMsg) : Stmt mqe (.pushKmalloc msg) mqe (.pushDownLock msg)
  | pushDownLock (msg : MqMsg) (free : 0 < mqe.lock) :
      Stmt mqe (.pushDownLock msg) { mqe with lock := mqe.lock - 1 } (.pushAppend msg)
  | pushAppend (msg : MqMsg) (room : mqe.mq.length < heapArrSize) :
      Stmt mqe (.pushAppend msg) { mqe with mq := mqe.mq ++ [msg] } (.pushUpData msg)
  | pushUpData (msg : MqMsg) :
      Stmt mqe (.pushUpData msg) { mqe with dataAvailable := mqe.dataAvailable + 1 } (.pushLen msg)
  | pushLen (msg : MqMsg) : Stmt mqe (.pushLen msg) { mqe with len := mqe.len + 1 } (.pushUpLock msg)
  | pushUpLock (msg : MqMsg) :
      Stmt mqe (.pushUpLock msg) { mqe with lock := mqe.lock + 1 } (.returned (.id msg.id))
  | popDownData (up : 0 < mqe.dataAvailable) :
      Stmt mqe .popDownData { mqe with dataAvailable := mqe.dataAvailable - 1 } .popDownLock
  | popDownLock (free : 0 < mqe.lock) :
      Stmt mqe .popDownLock { mqe with lock := mqe.lock - 1 } .popRemove
  | popRemove (m : MqMsg) (rest : List MqMsg) (first : mqe.mq = m :: rest) :
      Stmt mqe .popRemove { mqe with mq := rest } (.popLen m)
  | popLen (m : MqMsg) : Stmt mqe (.popLen m) { mqe with len := mqe.len - 1 } (.popUpLock m)
  | popUpLock (m : MqMsg) :
      Stmt mqe (.popUpLock m) { mqe with lock := mqe.lock + 1 } (.returned (.msg m))
  | nonblockDownLock (free : 0 < mqe.lock) :
      Stmt mqe .nonblockDownLock { mqe with lock := mqe.lock - 1 } .nonblockTest
  | nonblockEmpty (empty : mqe.len = 0) : Stmt mqe .nonblockTest mqe .nonblockGiveUp
  | nonblockFound (found : mqe.len ≠ 0) : Stmt mqe .nonblockTest mqe .nonblockRemove
  | nonblockGiveUp : Stmt mqe .nonblockGiveUp { mqe with lock := mqe.lock + 1 } (.returned .null)
  | nonblockRemove (m : MqMsg) (rest : List MqMsg) (first : mqe.mq = m :: rest) :
      Stmt mqe .nonblockRemove { mqe with mq := rest } (.nonblockDownData m)
  | nonblockDownData (m : MqMsg) (up : 0 < mqe.dataAvailable) :
      Stmt mqe (.nonblockDownData m) { mqe with dataAvailable := mqe.dataAvailable - 1 } (.nonblockLen m)
  | nonblockLen (m : MqMsg) :
      Stmt mqe (.nonblockLen m) { mqe with len := mqe.len - 1 } (.nonblockUpLock m)
  | nonblockUpLock (m : MqMsg) :
      Stmt mqe (.nonblockUpLock m) { mqe with lock := mqe.lock + 1 } (.returned (.msg m))

theorem allocating_ok {made : MqEntry × MqPlace} (next : allocating room mqe made = .ok (mqe', place')) :
    mqe.mq.length < heapArrSize ∧ made = (mqe', place') := by
  unfold allocating at next
  split at next
  · rename_i found
    exact ⟨found.2, Except.ok.inj next⟩
  · cases next

theorem mqNext_stmt (locked : holdsLock place = true → mqe.lock = 0)
    (nonneg : 0 ≤ mqe.dataAvailable) (small : raises place = true → mqe.dataAvailable ≤ heapArrSize)
    (next : mqNext room mqe place = .ok (mqe', place')) : Stmt mqe place mqe' place' := by
  have unlocked (value : MqReturn) (holds : holdsLock place = true)
      (up : upLock mqe value = .ok (mqe', place')) :
      mqe' = { mqe with lock := mqe.lock + 1 } ∧ place' = .returned value := by
    have one : semaphoreUp mqe.lock = mqe.lock + 1 := by rw [locked holds]; decide
    unfold upLock at up
    rw [one] at up
    cases up
    exact ⟨rfl, rfl⟩
  cases place with
  | returned value => cases next
  | pushKmalloc msg =>
    obtain ⟨-, same⟩ := allocating_ok next
    cases same
    exact .pushKmalloc msg
  | pushDownLock msg =>
    obtain ⟨free, rfl, rfl⟩ := downLock_ok next
    exact .pushDownLock msg free
  | pushAppend msg =>
    obtain ⟨room, same⟩ := allocating_ok next
    cases same
    exact .pushAppend msg room
  | pushUpData msg =>
    simp only [mqNext, semaphoreUp_eq nonneg (small rfl)] at next
    cases next
    exact .pushUpData msg
  | pushLen msg => cases next; exact .pushLen msg
  | pushUpLock msg =>
    obtain ⟨rfl, rfl⟩ := unlocked _ rfl next
    exact .pushUpLock msg
  | popDownData =>
    obtain ⟨up, rfl, rfl⟩ := downData_ok next
    exact .popDownData up
  | popDownLock =>
    obtain ⟨free, rfl, rfl⟩ := downLock_ok next
    exact .popDownLock free
  | popRemove =>
    obtain ⟨m, first, same, rfl⟩ := takeFirst_ok next
    rw [same]
    exact .popRemove m mqe'.mq first
  | popLen m => cases next; exact .popLen m
  | popUpLock m =>
    obtain ⟨rfl, rfl⟩ := unlocked _ rfl next
    exact .popUpLock m
  | nonblockDownLock =>
    obtain ⟨free, rfl, rfl⟩ := downLock_ok next
    exact .nonblockDownLock free
  | nonblockTest =>
    cases next
    by_cases empty : mqe.len = 0
    · rw [if_pos empty]
      exact .nonblockEmpty empty
    · rw [if_neg empty]
      exact .nonblockFound empty
  | nonblockGiveUp =>
    obtain ⟨rfl, rfl⟩ := unlocked _ rfl next
    exact .nonblockGiveUp
  | nonblockRemove =>
    obtain ⟨m, first, same, rfl⟩ := takeFirst_ok next
    rw [same]
    exact .nonblockRemove m mqe'.mq first
  | nonblockDownData m =>
    obtain ⟨up, rfl, rfl⟩ := downData_ok next
    exact .nonblockDownData m up
  | nonblockLen m => cases next; exact .nonblockLen m
  | nonblockUpLock m =>
    obtain ⟨rfl, rfl⟩ := unlocked _ rfl next
    exact .nonblockUpLock m

theorem Stmt.lock (stmt : Stmt mqe place mqe' place') :
    mqe'.lock + (if holdsLock place' then 1 else 0) = mqe.lock + (if holdsLock place then 1 else 0) ∧
      (0 ≤ mqe.lock → 0 ≤ mqe'.lock) := by
  cases stmt <;> simp [holdsLock] <;> omega

theorem Stmt.counted (stmt : Stmt mqe place mqe' place') (r t l : Nat) (sent taken : List MqMsg) :
    Counted.Steps (seen mqe r t l sent taken place)
      (seen mqe' r t l (sent ++ appended place) (taken ++ removed mqe place) place') := by
  have same {b b' : Counted MqMsg} (equal : b' = b) : Counted.Steps b b' := equal ▸ .refl
  cases stmt with
  | pushAppend msg room =>
      have step := Counted.Step.append (seen mqe r t l sent taken (.pushAppend msg)) msg
      simpa [seen, appended, removed, raises, takes, lowers] using Relation.ReflTransGen.single step
  | pushUpData msg =>
    have step := Counted.Step.raise (seen mqe r t l sent taken (.pushUpData msg)) r rfl
    simpa [seen, appended, removed, raises, takes, lowers] using Relation.ReflTransGen.single step
  | popDownData up =>
    have step := Counted.Step.lower (seen mqe r t l sent taken .popDownData) up
    simpa [seen, appended, removed, raises, takes, lowers] using Relation.ReflTransGen.single step
  | popRemove m rest first =>
    have step := Counted.Step.take (seen mqe r t l sent taken .popRemove) t rfl m rest first
    simpa [seen, appended, removed, raises, takes, lowers, first] using Relation.ReflTransGen.single step
  | nonblockRemove m rest first =>
    have step := Counted.Step.grab (seen mqe r t l sent taken .nonblockRemove) m rest first
    simpa [seen, appended, removed, raises, takes, lowers, first] using Relation.ReflTransGen.single step
  | nonblockDownData m up =>
    have step := Counted.Step.settle (seen mqe r t l sent taken (.nonblockDownData m)) l rfl up
    simpa [seen, appended, removed, raises, takes, lowers] using Relation.ReflTransGen.single step
  | _ =>
    apply same
    simp [seen, appended, removed, raises, takes, lowers]

def lenBehind : MqPlace → Bool
  | .pushUpData _ | .pushLen _ => true
  | _ => false

def lenAhead : MqPlace → Bool
  | .popLen _ | .nonblockDownData _ | .nonblockLen _ => true
  | _ => false

theorem Stmt.len (stmt : Stmt mqe place mqe' place') (behind ahead : Nat)
    (before : mqe.len + BitVec.ofNat 16 (behind + if lenBehind place then 1 else 0) =
      BitVec.ofNat 16 (mqe.mq.length + (ahead + if lenAhead place then 1 else 0))) :
    mqe'.len + BitVec.ofNat 16 (behind + if lenBehind place' then 1 else 0) =
      BitVec.ofNat 16 (mqe'.mq.length + (ahead + if lenAhead place' then 1 else 0)) := by
  cases stmt with
  | pushAppend m room =>
    simp only [lenBehind, lenAhead, BitVec.ofNat_add, List.length_append, List.length_singleton] at before ⊢
    grind
  | popRemove m rest first | nonblockRemove m rest first =>
    simp only [lenBehind, lenAhead, BitVec.ofNat_add, first, List.length_cons] at before ⊢
    grind
  | pushLen m | popLen m | nonblockLen m =>
    simp only [lenBehind, lenAhead, BitVec.ofNat_add] at before ⊢
    grind
  | _ => simpa [lenBehind, lenAhead] using before

theorem Stmt.size (stmt : Stmt mqe place mqe' place') (before : mqe.mq.length ≤ heapArrSize) :
    mqe'.mq.length ≤ heapArrSize := by
  cases stmt with
  | pushAppend m room =>
    rw [List.length_append, List.length_singleton]
    exact room
  | popRemove m rest first | nonblockRemove m rest first =>
    rw [first, List.length_cons] at before
    exact Nat.le_of_succ_le before
  | _ => exact before

theorem Stmt.mq (stmt : Stmt mqe place mqe' place') : mqe'.mq = mqe.mq ∨ holdsLock place = true := by
  cases stmt <;> simp [holdsLock]

theorem Stmt.to_nonblockRemove (stmt : Stmt mqe place mqe' .nonblockRemove) :
    place = .nonblockTest ∧ mqe' = mqe ∧ mqe.len ≠ 0 := by
  cases stmt with
  | nonblockFound found => exact ⟨rfl, rfl, found⟩

theorem Stmt.to_waiting (stmt : Stmt mqe place mqe' place') (holds : holdsLock place') (waits : downsData place') :
    place = .nonblockRemove ∧ mqe'.dataAvailable = mqe.dataAvailable := by
  cases stmt with
  | nonblockRemove m rest first => exact ⟨rfl, rfl⟩
  | _ => simp [holdsLock, downsData] at holds waits

theorem Stmt.of_nonblockRemove (stmt : Stmt mqe .nonblockRemove mqe' place') :
    mqe'.dataAvailable = mqe.dataAvailable ∧ holdsLock place' ∧ downsData place' := by
  cases stmt with
  | nonblockRemove m rest first => exact ⟨rfl, rfl, rfl⟩

theorem Stmt.of_popDownData (stmt : Stmt mqe .popDownData mqe' place') :
    mqe'.dataAvailable = mqe.dataAvailable - 1 := by
  cases stmt with
  | popDownData up => rfl

theorem Stmt.lowered (stmt : Stmt mqe place mqe' place') (lower : mqe'.dataAvailable < mqe.dataAvailable) :
    mqe'.dataAvailable = mqe.dataAvailable - 1 ∧ (place = .popDownData ∨ holdsLock place) := by
  cases stmt with
  | popDownData up => exact ⟨rfl, Or.inl rfl⟩
  | nonblockDownData m up => exact ⟨rfl, Or.inr rfl⟩
  | _ => simp at lower

theorem Stmt.of_waiting (stmt : Stmt mqe place mqe' place') (holds : holdsLock place)
    (waits : downsData place) : 0 < mqe.dataAvailable := by
  cases stmt with
  | nonblockDownData m up => exact up
  | _ => simp [holdsLock, downsData] at holds waits

theorem Stmt.dataAvailable_eq (stmt : Stmt mqe place mqe' place') (free : holdsLock place = false)
    (zero : mqe.dataAvailable = 0) : mqe'.dataAvailable = 0 := by
  cases stmt with
  | popDownData up => omega
  | _ => first | exact zero | cases free

end Statements

section States

variable {s s' : MqState ι} {i j : ι} {a : MqAction ι}

def standing (s : MqState ι) (kind : MqPlace → Bool) : Nat :=
  population Finset.univ s.place fun place => kind place = true

def others (s : MqState ι) (i : ι) (kind : MqPlace → Bool) : Nat :=
  population (Finset.univ.erase i) s.place fun place => kind place = true

theorem standing_split (s : MqState ι) (i : ι) (kind : MqPlace → Bool) :
    standing s kind = others s i kind + if kind (s.place i) then 1 else 0 :=
  population_split (Finset.mem_univ i)

def counted (s : MqState ι) : Counted MqMsg :=
  ⟨s.mqe.mq, s.mqe.dataAvailable, standing s raises, standing s takes, standing s lowers, s.sent, s.taken⟩

theorem counted_eq_seen (s : MqState ι) (i : ι) :
    counted s = seen s.mqe (others s i raises) (others s i takes) (others s i lowers) s.sent s.taken (s.place i) := by
  simp only [counted, seen, standing_split s i]

structure Moves (s s' : MqState ι) (i : ι) : Prop where
  stmt : Stmt s.mqe (s.place i) s'.mqe (s'.place i)
  rest : ∀ j, j ≠ i → s'.place j = s.place j
  sent : s'.sent = s.sent ++ appended (s.place i)
  taken : s'.taken = s.taken ++ removed s.mqe (s.place i)

theorem Moves.others (moves : Moves s s' i) (kind : MqPlace → Bool) : others s' i kind = others s i kind := by
  unfold MessageQueue.others population
  congr 1
  apply Finset.filter_congr
  intro j inside
  rw [moves.rest j (Finset.ne_of_mem_erase inside)]

structure MqInv (s : MqState ι) : Prop where
  free : 0 ≤ s.mqe.lock
  locked : s.mqe.lock + standing s holdsLock = 1
  balanced : (counted s).Balanced
  length : s.mqe.len + BitVec.ofNat 16 (standing s lenBehind) =
    BitVec.ofNat 16 (s.mqe.mq.length + standing s lenAhead)
  found : ∀ i, s.place i = .nonblockRemove → s.mqe.mq ≠ []
  size : s.mqe.mq.length ≤ heapArrSize

omit [DecidableEq ι] in
theorem mqInv_start : MqInv (mqStart ι) where
  free := Int.zero_le_ofNat 1
  locked := by simp [mqStart, mqsCreate, standing, population, holdsLock]
  balanced := by
    have empty : counted (mqStart ι) = ⟨[], 0, 0, 0, 0, [], []⟩ := by
      simp [counted, mqStart, mqsCreate, standing, population, raises, takes, lowers]
    exact empty ▸ Counted.balanced_empty
  length := by simp [mqStart, mqsCreate, standing, population, lenBehind, lenAhead]
  found i place := by cases place
  size := Nat.zero_le _

section

variable (inv : MqInv s)
include inv

theorem MqInv.others_zero (holds : holdsLock (s.place i)) {kind : MqPlace → Bool}
    (inside : ∀ place, kind place = true → holdsLock place = true) : others s i kind = 0 := by
  have alone : others s i holdsLock = 0 := by
    have locked := inv.locked
    have free := inv.free
    rw [standing_split s i, if_pos holds] at locked
    omega
  unfold others population at alone ⊢
  rw [Finset.card_eq_zero, Finset.filter_eq_empty_iff] at alone ⊢
  exact fun j member stands => alone member (inside _ stands)

theorem MqInv.exclusive (holdsI : holdsLock (s.place i)) (holdsJ : holdsLock (s.place j)) : j = i := by
  by_contra other
  have pos : 0 < others s i holdsLock :=
    population_pos (Finset.mem_erase.mpr ⟨other, Finset.mem_univ j⟩) holdsJ
  exact Nat.ne_of_gt pos (inv.others_zero holdsI fun _ => id)

theorem MqInv.lock_zero (holds : holdsLock (s.place i)) : s.mqe.lock = 0 := by
  have locked := inv.locked
  have free := inv.free
  rw [standing_split s i, if_pos holds] at locked
  omega

theorem MqInv.data_le (raise : raises (s.place i) = true) : s.mqe.dataAvailable ≤ heapArrSize := by
  have holds : holdsLock (s.place i) := by
    cases place : s.place i <;> simp_all [raises, holdsLock]
  have lower : standing s lowers = 0 := by
    rw [standing_split s i, inv.others_zero holds fun p h => by cases p <;> simp_all [lowers, holdsLock]]
    cases place : s.place i <;> simp_all [raises, lowers]
  have counted := inv.balanced.counted
  have size := inv.size
  simp only [MessageQueue.counted, lower] at counted
  omega

theorem mqStep_moves (taken : mqStep s a = some s') : Moves s s' a.actor := by
  cases a with
  | call i c =>
    simp only [mqStep] at taken
    split at taken
    · rename_i value outside
      obtain rfl := Option.some.inj taken
      refine ⟨?_, ?_, ?_, ?_⟩
      · simp only [MqAction.actor, outside]
        cases c with
        | push msg => simpa [MqState.enter, MqState.move] using Stmt.callPush value _
        | pop => simpa [MqState.enter, MqState.move] using Stmt.callPop value
        | popNonblock => simpa [MqState.enter, MqState.move] using Stmt.callNonblock value
      · intro j other
        cases c <;> exact Function.update_of_ne other _ _
      · cases c <;> simp [MqState.enter, MqState.move, MqAction.actor, outside, appended]
      · cases c <;> simp [MqState.enter, MqState.move, MqAction.actor, outside, removed]
    · cases taken
  | next i room =>
    obtain ⟨⟨mqe, place⟩, next, rfl⟩ := Option.map_eq_some_iff.mp taken
    refine ⟨?_, ?_, rfl, rfl⟩
    · simpa [MqState.move, MqAction.actor] using
        mqNext_stmt inv.lock_zero inv.balanced.nonneg inv.data_le (toOption_eq_some.mp next)
    · exact fun j other => Function.update_of_ne other _ _

theorem MqInv.len_eq (place : s.place i = .nonblockTest) : s.mqe.len = BitVec.ofNat 16 s.mqe.mq.length := by
  have holds : holdsLock (s.place i) := by rw [place]; rfl
  have behind : others s i lenBehind = 0 :=
    inv.others_zero holds fun p h => by cases p <;> simp_all [lenBehind, holdsLock]
  have ahead : others s i lenAhead = 0 :=
    inv.others_zero holds fun p h => by cases p <;> simp_all [lenAhead, holdsLock]
  have length := inv.length
  rw [standing_split s i, standing_split s i, place, behind, ahead] at length
  simpa [lenBehind, lenAhead] using length

theorem MqInv.found_step (moves : Moves s s' i) (j : ι) (place : s'.place j = .nonblockRemove) : s'.mqe.mq ≠ [] := by
  by_cases own : j = i
  · subst own
    have stmt := moves.stmt
    rw [place] at stmt
    obtain ⟨before, same, found⟩ := stmt.to_nonblockRemove
    intro empty
    rw [same] at empty
    rw [inv.len_eq before, empty] at found
    exact found rfl
  · have still := moves.rest j own
    rw [place] at still
    have holds : holdsLock (s.place j) := by rw [← still]; rfl
    rcases moves.stmt.mq with same | holdsI
    · exact same ▸ inv.found j still.symm
    · exact absurd (inv.exclusive holdsI holds) own

theorem MqInv.step (moves : Moves s s' i) : MqInv s' := by
  obtain ⟨lock, nonneg⟩ := moves.stmt.lock
  refine ⟨nonneg inv.free, ?_, ?_, ?_, inv.found_step moves, moves.stmt.size inv.size⟩
  · have locked := inv.locked
    rw [standing_split s i] at locked
    rw [standing_split s' i, moves.others]
    push_cast at locked ⊢
    linarith
  · have steps := moves.stmt.counted (MessageQueue.others s i raises) (MessageQueue.others s i takes)
      (MessageQueue.others s i lowers) s.sent s.taken
    rw [counted_eq_seen s' i, moves.others, moves.others, moves.others, moves.sent, moves.taken]
    have before := inv.balanced
    rw [counted_eq_seen s i] at before
    exact before.steps steps
  · have length := inv.length
    rw [standing_split s i, standing_split s i] at length
    rw [standing_split s' i, standing_split s' i, moves.others, moves.others]
    exact moves.stmt.len _ _ length

theorem MqInv.not_popsEmpty : ¬ PopsEmpty s := by
  rintro ⟨i, place, empty⟩
  have holds : holdsLock (s.place i) := by rw [place]; rfl
  have takes : 0 < standing s takes := population_pos (Finset.mem_univ i) (by rw [place]; rfl)
  have lowers : standing s lowers = 0 := by
    rw [standing_split s i, inv.others_zero holds, place]
    · rfl
    · intro p lowers
      cases p <;> simp_all [MessageQueue.lowers, holdsLock]
  refine inv.balanced.nonempty takes ?_ empty
  change standing s MessageQueue.lowers ≤ _
  rw [lowers]
  exact Nat.zero_le _

end

omit [DecidableEq ι] in
theorem MqInv.nonneg (inv : MqInv s) : 0 ≤ s.mqe.dataAvailable := inv.balanced.nonneg

theorem MqInv.not_holdsAndWaits (inv : MqInv s) (before : ¬ HoldsAndWaits s) (moves : Moves s s' i)
    (enough : s.place i = .nonblockRemove → 0 < s.mqe.dataAvailable)
    (spared : s.place i = .popDownData → s.mqe.dataAvailable = 1 →
      ∀ j, ¬ (holdsLock (s.place j) ∧ downsData (s.place j))) : ¬ HoldsAndWaits s' := by
  rintro ⟨j, holds, waits, zero⟩
  by_cases own : j = i
  · subst own
    obtain ⟨place, same⟩ := moves.stmt.to_waiting holds waits
    have up := enough place
    omega
  · -- the process waited before the step as well, so the step has taken the last unit
    rw [moves.rest j own] at holds waits
    have up : s.mqe.dataAvailable ≠ 0 := fun zero => before ⟨j, holds, waits, zero⟩
    have nonneg := inv.nonneg
    obtain ⟨one, place | holdsI⟩ := moves.stmt.lowered (by omega)
    · exact spared place (by omega) j ⟨holds, waits⟩
    · exact own (inv.exclusive holdsI holds)

theorem MqInv.holdsAndWaits (inv : MqInv s) (taken : mqStep s a = some s')
    (disorderly : ¬ Orderly s a) : HoldsAndWaits s' := by
  have moves := mqStep_moves inv taken
  have nonneg := inv.nonneg
  have stmt := moves.stmt
  by_cases enough : s.place a.actor = .nonblockRemove → 0 < s.mqe.dataAvailable
  · have greedy : ¬ (s.place a.actor = .popDownData → s.mqe.dataAvailable = 1 →
        ∀ j, ¬ (holdsLock (s.place j) ∧ downsData (s.place j))) :=
      fun spared => disorderly ⟨enough, spared⟩
    push Not at greedy
    obtain ⟨place, one, j, holds, waits⟩ := greedy
    have other : j ≠ a.actor := by
      intro own
      rw [own, place] at holds
      cases holds
    rw [place] at stmt
    rw [← moves.rest j other] at holds waits
    exact ⟨j, holds, waits, by rw [stmt.of_popDownData, one]; rfl⟩
  · push Not at enough
    obtain ⟨place, empty⟩ := enough
    rw [place] at stmt
    obtain ⟨same, holds, waits⟩ := stmt.of_nonblockRemove
    exact ⟨a.actor, holds, waits, by omega⟩

theorem progress_iff_orderly (actions : List (MqAction ι)) :
    Throughout mqStep Progress (mqStart ι) actions ↔ Guarded mqStep Orderly (mqStart ι) actions := by
  refine throughout_iff_guarded (I := fun s => MqInv s ∧ Progress s) ?_ ?_ ?_ ?_
  · exact fun s inv => inv.2
  · intro s a s' inv orderly taken
    have moves := mqStep_moves inv.1 taken
    have after := inv.1.step moves
    exact ⟨after, after.not_popsEmpty, inv.1.not_holdsAndWaits inv.2.2 moves orderly.1 orderly.2⟩
  · exact fun s a s' inv disorderly taken progress => progress.2 (inv.1.holdsAndWaits taken disorderly)
  · refine ⟨mqInv_start, mqInv_start.not_popsEmpty, ?_⟩
    rintro ⟨i, holds, -⟩
    cases holds

def allocates : MqPlace → Bool
  | .pushKmalloc _ | .pushAppend _ => true
  | _ => false

theorem MqInv.never_faults (inv : MqInv s) {room : Bool} {stop : Stop}
    (stops : mqNext room s.mqe (s.place i) = .error stop) :
    stop = .blocked ∨ allocates (s.place i) = true ∧ stop = .panic "kmalloc: out of memory" := by
  have lock {target : MqPlace} (down : downLock s.mqe target = .error stop) : stop = .blocked :=
    semaphoreDown_error inv.free (map_eq_error.mp down)
  have data {target : MqPlace} (down : downData s.mqe target = .error stop) : stop = .blocked :=
    semaphoreDown_error inv.nonneg (map_eq_error.mp down)
  have first {target : MqMsg → MqPlace} (filled : s.mqe.mq ≠ []) (none : takeFirst s.mqe target = .error stop) :
      stop = .blocked := by
    unfold takeFirst at none
    split at none
    · rename_i empty
      exact absurd empty filled
    · cases none
  have heap {made : MqEntry × MqPlace} (full : allocating room s.mqe made = .error stop) :
      stop = .panic "kmalloc: out of memory" := by
    unfold allocating at full
    split at full
    · cases full
    · exact (Except.error.inj full).symm
  cases place : s.place i with
  | pushKmalloc | pushAppend =>
    rw [place] at stops
    exact Or.inr ⟨rfl, heap stops⟩
  | pushDownLock | popDownLock | nonblockDownLock =>
    rw [place] at stops
    exact Or.inl (lock stops)
  | popDownData | nonblockDownData =>
    rw [place] at stops
    exact Or.inl (data stops)
  | popRemove =>
    rw [place] at stops
    exact Or.inl (first (fun empty => inv.not_popsEmpty ⟨i, place, empty⟩) stops)
  | nonblockRemove =>
    rw [place] at stops
    exact Or.inl (first (inv.found i place) stops)
  | _ =>
    rw [place] at stops
    cases stops
    try exact Or.inl rfl

theorem mq_in_order {actions : List (MqAction ι)} (reached : run mqStep (mqStart ι) actions = some s) :
    (∀ i room stop, mqNext room s.mqe (s.place i) = .error stop →
        stop = .blocked ∨ allocates (s.place i) = true ∧ stop = .panic "kmalloc: out of memory") ∧
      s.sent = s.taken ++ s.mqe.mq ∧ ∀ i j, holdsLock (s.place i) → holdsLock (s.place j) → j = i := by
  have inv : MqInv s := run_invariant (fun _ _ _ inv taken => inv.step (mqStep_moves inv taken)) mqInv_start reached
  exact ⟨fun i room stop => inv.never_faults, inv.balanced.ordered, fun i j => inv.exclusive⟩

theorem quiet_outside {mqe : MqEntry} {place : MqPlace} (outside : holdsLock place = false) :
    appended place = [] ∧ removed mqe place = [] := by
  cases place <;> first | exact ⟨rfl, rfl⟩ | cases outside

/-- A process that holds the lock and waits never goes on: whoever could raise `data_available`
needs the lock. -/
theorem waits_forever {before actions : List (MqAction ι)} (reached : run mqStep (mqStart ι) before = some s)
    (holds : holdsLock (s.place i)) (waits : downsData (s.place i)) (zero : s.mqe.dataAvailable = 0)
    (later : run mqStep s actions = some s') :
    s'.place i = s.place i ∧ s'.mqe.dataAvailable = 0 ∧ s'.sent = s.sent ∧ s'.taken = s.taken := by
  have inv : MqInv s := run_invariant (fun _ _ _ inv taken => inv.step (mqStep_moves inv taken)) mqInv_start reached
  have stays : ∀ t a t', (MqInv t ∧ t.place i = s.place i ∧ t.mqe.dataAvailable = 0 ∧ t.sent = s.sent ∧
      t.taken = s.taken) → mqStep t a = some t' → MqInv t' ∧ t'.place i = s.place i ∧ t'.mqe.dataAvailable = 0 ∧
        t'.sent = s.sent ∧ t'.taken = s.taken := by
    rintro t a t' ⟨inv, place, zero, sent, received⟩ taken
    have moves := mqStep_moves inv taken
    rw [← place] at holds waits
    have other : i ≠ a.actor := by
      intro own
      have up := moves.stmt.of_waiting (own ▸ holds) (own ▸ waits)
      omega
    have free : holdsLock (t.place a.actor) = false := by
      cases lock : holdsLock (t.place a.actor) with
      | false => rfl
      | true => exact absurd (inv.exclusive lock holds) other
    obtain ⟨nothing, nobody⟩ := quiet_outside free
    refine ⟨inv.step moves, (moves.rest i other).trans place, moves.stmt.dataAvailable_eq free zero, ?_, ?_⟩
    · rw [moves.sent, nothing, List.append_nil, sent]
    · rw [moves.taken, nobody, List.append_nil, received]
  exact (run_invariant stays ⟨inv, rfl, zero, rfl, rfl⟩ later).2

end States

def poppedTwice {ι : Type} (a b : ι) : List (MqAction ι) :=
  [.call a (.push ⟨0, 1, 0, 0xA000⟩), .next a true, .next a true, .next a true, .next a true, .next a true, .next a true,
    .call b .pop, .next b true, .call a .popNonblock, .next a true, .next a true, .next a true]

theorem mq_in_order_twice :
    ∃ s, run mqStep (mqStart (Fin 2)) (poppedTwice 0 1) = some s ∧ s.sent = s.taken ++ s.mqe.mq := by
  have goes : (run mqStep (mqStart (Fin 2)) (poppedTwice 0 1)).isSome := by decide
  obtain ⟨s, reached⟩ := Option.isSome_iff_exists.mp goes
  exact ⟨s, reached, (mq_in_order reached).2.1⟩

theorem waits_forever_twice : ∃ s s', run mqStep (mqStart (Fin 3)) (poppedTwice 0 1) = some s ∧
    run mqStep s [.call 2 (.push ⟨0, 1, 0, 0xA010⟩), .next 2 true] = some s' ∧ holdsLock (s.place 0) ∧
      s'.place 0 = s.place 0 ∧ s'.mqe.dataAvailable = 0 := by
  have stuck : (run mqStep (mqStart (Fin 3)) (poppedTwice 0 1)).map (fun s =>
      (holdsLock (s.place 0), downsData (s.place 0), s.mqe.dataAvailable,
        (run mqStep s [.call 2 (.push ⟨0, 1, 0, 0xA010⟩), .next 2 true]).isSome)) = some (true, true, 0, true) := by decide
  obtain ⟨s, reached, values⟩ := Option.map_eq_some_iff.mp stuck
  simp only [Prod.mk.injEq] at values
  obtain ⟨holds, waits, zero, goes⟩ := values
  obtain ⟨s', later⟩ := Option.isSome_iff_exists.mp goes
  have still := waits_forever reached holds waits zero later
  exact ⟨s, s', reached, later, holds, still.1, still.2.1⟩

theorem nonblocking_pop_waits_under_lock :
    ¬ Throughout mqStep Progress (mqStart (Fin 2)) (poppedTwice 0 1) := by
  intro progress
  have reached : (run mqStep (mqStart (Fin 2)) (poppedTwice 0 1)).map (fun s =>
      (holdsLock (s.place 0), downsData (s.place 0), s.mqe.dataAvailable)) = some (true, true, 0) := by
    decide
  obtain ⟨s, last, values⟩ := Option.map_eq_some_iff.mp reached
  simp only [Prod.mk.injEq] at values
  have safe := throughout_iff.mp progress _ (List.prefix_refl _) s last
  exact safe.2 ⟨0, values.1, values.2.1, values.2.2⟩

end PiOS.Proof.MessageQueue
