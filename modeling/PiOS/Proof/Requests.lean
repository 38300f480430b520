import PiOS.Kernel.Driver.Async
import PiOS.Queue.Served
import PiOS.Transition.Outcome
import PiOS.Transition.Run

namespace PiOS.Proof.Requests
open Kernel Queue Transition Function

/-- The calls of `vfs_async_finalize` are for different requests, none of them refused, and in the order of
`list_append`; only refused or completed requests are freed. -/
structure CompletesOnce {ι : Type} (s : AsyncState ι) : Prop where
  once : s.shared.finalized.Nodup
  accepted : ∀ id ∈ s.shared.rejected, id ∉ s.shared.finalized
  order : ∀ q, s.shared.finalized.filter (· ∈ s.shared.appended q) <+: s.shared.appended q
  freed : ∀ id ∈ s.shared.freed, id ∈ s.shared.rejected ∨ id ∈ s.shared.finalized

def unqueued : SubmitPlace → Option Nat
  | .called _ r | .locked _ r | .append _ r => some r.id
  | .unlock _ r rc | .returned r rc => if rc.toInt < 0 then some r.id else none
  | _ => none

def TarReads : SubmitPlace → Prop
  | .append .tar r => r.type = vfsAsyncTypeRead
  | _ => True

def stageOf : ThreadPlace → Stage Nat
  | .down | .first => .idle
  | .process r | .waitData r | .lockRing r | .readRing r | .unlockRing r | .remove r => .holds r.id
  | .removeProcessed r => .completed r.id
  | .finalize r => .removed r.id

def ThreadReads : ThreadPlace → Prop
  | .process r => r.type = vfsAsyncTypeRead
  | _ => True

def served (s : AsyncShared) (q : ReqQueue) (stage : Stage Nat) : Served Nat where
  waiting := (s.list q).map Request.id
  stage := stage
  appended := s.appended q
  completed := s.finalized.filter (· ∈ s.appended q)

structure SameRecord (s s' : AsyncShared) : Prop where
  list : s'.list = s.list
  finSema : s'.finSema = s.finSema
  appended : s'.appended = s.appended
  finalized : s'.finalized = s.finalized
  rejected : s'.rejected = s.rejected
  freed : s'.freed = s.freed

theorem SameRecord.refl (s : AsyncShared) : SameRecord s s := ⟨rfl, rfl, rfl, rfl, rfl, rfl⟩

inductive Submits (s : AsyncShared) (place : SubmitPlace) : AsyncShared → SubmitPlace → Prop
  | quiet (s' : AsyncShared) (place' : SubmitPlace) (same : SameRecord s s')
      (kept : unqueued place' = unqueued place ∨ unqueued place' = none) : Submits s place s' place'
  | append (q : ReqQueue) (r : Request) (here : place = .append q r) :
      Submits s place { s with
        list := update s.list q (s.list q ++ [r])
        appended := update s.appended q (s.appended q ++ [r.id]) } (.raise q r)
  | finalize (r : Request) (place' : SubmitPlace) (mine : unqueued place = some r.id)
      (done : unqueued place' = none) : Submits s place (s.vfsAsyncFinalize r) place'
  | refuse (r : Request) (mine : unqueued place = some r.id) :
      Submits s place { s with rejected := s.rejected ++ [r.id], freed := s.freed ++ [r.id] } .outside
  | free (r : Request) (up : 0 < s.finSema r.id) :
      Submits s place { s with
        finSema := update s.finSema r.id (s.finSema r.id - 1)
        freed := s.freed ++ [r.id] } .outside

inductive Serves (s : AsyncShared) (q : ReqQueue) (place : ThreadPlace) : AsyncShared → ThreadPlace → Prop
  | quiet (s' : AsyncShared) (place' : ThreadPlace) (same : SameRecord s s')
      (stage : stageOf place' = stageOf place) : Serves s q place s' place'
  | hold (r : Request) (rest : List Request) (place' : ThreadPlace) (idle : stageOf place = .idle)
      (first : s.list q = r :: rest) (stage : stageOf place' = .holds r.id) : Serves s q place s place'
  | complete (r : Request) (place' : ThreadPlace) (holds : stageOf place = .holds r.id)
      (stage : stageOf place' = .completed r.id) : Serves s q place (s.vfsAsyncFinalize r) place'
  | dropFirst (r r' : Request) (rest : List Request) (place' : ThreadPlace)
      (completed : stageOf place = .completed r.id) (first : s.list q = r' :: rest)
      (stage : stageOf place' = .idle) :
      Serves s q place { s with list := update s.list q rest } place'
  | remove (r r' : Request) (rest : List Request) (place' : ThreadPlace) (holds : stageOf place = .holds r.id)
      (first : s.list q = r' :: rest) (stage : stageOf place' = .removed r.id) :
      Serves s q place { s with list := update s.list q rest } place'
  | completeRemoved (r : Request) (place' : ThreadPlace) (removed : stageOf place = .removed r.id)
      (stage : stageOf place' = .idle) : Serves s q place (s.vfsAsyncFinalize r) place'

section Statements

variable {s s' : AsyncShared} {place place' : SubmitPlace} {driver : Driver} {r : Request} {lock : SubmitLock}

theorem downLock_same (down : s.downLock lock = .ok s') : SameRecord s s' := by
  obtain ⟨count, -, rfl⟩ := map_eq_ok.1 down
  exact ⟨rfl, rfl, rfl, rfl, rfl, rfl⟩

theorem enters_lock {φ : Type} {target target' : φ}
    (enters : (s.downLock lock).map (·, target) = .ok (s', target')) : SameRecord s s' ∧ target' = target := by
  obtain ⟨shared, down, same⟩ := map_eq_ok.1 enters
  cases same
  exact ⟨downLock_same down, rfl⟩

theorem unqueued_refused (rc : Word) (negative : rc.toInt < 0) : unqueued (.returned r rc) = some r.id := by
  rw [unqueued, if_pos negative]

theorem submitCalled_submits (taken : s.submitCalled driver r = .ok (s', place')) :
    Submits s (.called driver r) s' place' ∧ TarReads place' := by
  have refused {rc : Word} (negative : rc.toInt < 0) :
      Submits s (.called driver r) s (.returned r rc) ∧ TarReads (.returned r rc) :=
    ⟨.quiet _ _ (.refl s) (Or.inl (unqueued_refused rc negative)), trivial⟩
  have finalized : Submits s (.called driver r) (s.vfsAsyncFinalize r) (.returned r 0) ∧ TarReads (.returned r 0) :=
    ⟨.finalize r _ rfl rfl, trivial⟩
  have locked {lock : SubmitLock} {next : Driver}
      (enters : (s.downLock lock).map (·, SubmitPlace.locked next r) = .ok (s', place')) :
      Submits s (.called driver r) s' place' ∧ TarReads place' := by
    obtain ⟨same, rfl⟩ := enters_lock enters
    exact ⟨.quiet _ _ same (Or.inl rfl), trivial⟩
  unfold AsyncShared.submitCalled at taken
  cases driver with
  | rootfs => cases taken; exact refused (by decide)
  | tar | tmp | tty => exact locked taken
  | kbd =>
    simp only at taken
    split at taken
    · cases taken; exact refused (by decide)
    · exact locked taken
  | sio | serial1 | serial2 =>
    simp only at taken
    split at taken
    · cases taken; exact refused (by decide)
    · cases taken; exact finalized
  | i2c =>
    simp only at taken
    split at taken
    · cases taken
      exact ⟨.quiet _ _ (.refl s) (Or.inr rfl), trivial⟩
    · cases taken; exact finalized

theorem submitLocked_submits (taken : s.submitLocked driver r = .ok (s', place')) :
    Submits s (.locked driver r) s' place' ∧ TarReads place' := by
  have returned {rc : Word} (negative : rc.toInt < 0) :
      Submits s (.locked driver r) s (.returned r rc) ∧ TarReads (.returned r rc) :=
    ⟨.quiet _ _ (.refl s) (Or.inl (unqueued_refused rc negative)), trivial⟩
  have refused {lock : SubmitLock} {rc : Word} (negative : rc.toInt < 0) :
      Submits s (.locked driver r) s (.unlock lock r rc) ∧ TarReads (.unlock lock r rc) :=
    ⟨.quiet _ _ (.refl s) (Or.inl (unqueued_refused rc negative)), trivial⟩
  have accepted {q : ReqQueue} {s' : AsyncShared} (same : SameRecord s s') (reads : TarReads (.append q r)) :
      Submits s (.locked driver r) s' (.append q r) ∧ TarReads (.append q r) :=
    ⟨.quiet _ _ same (Or.inl rfl), reads⟩
  have counted (q : ReqQueue) : SameRecord s (s.addPending q r.size) := ⟨rfl, rfl, rfl, rfl, rfl, rfl⟩
  unfold AsyncShared.submitLocked at taken
  cases driver with
  | tar =>
    simp only at taken
    split at taken
    · cases taken; exact returned (by decide)
    · rename_i read
      cases taken
      exact accepted (.refl s) (not_not.1 read)
  | tmp =>
    simp only at taken
    split at taken
    · cases taken
      exact ⟨.finalize r _ rfl rfl, trivial⟩
    · cases taken; exact returned (by decide)
  | tty =>
    simp only at taken
    split at taken
    · split at taken
      · cases taken; exact refused (by decide)
      · cases taken; exact accepted (counted _) trivial
    · split at taken
      · cases taken; exact accepted (.refl s) trivial
      · cases taken; exact refused (by decide)
  | kbd =>
    simp only at taken
    split at taken
    · cases taken; exact refused (by decide)
    · cases taken; exact accepted (counted _) trivial
  | _ => cases taken

theorem submitNext_submits (taken : s.submitNext place = .ok (s', place')) :
    Submits s place s' place' ∧ TarReads place' := by
  cases place with
  | outside => cases taken
  | called driver r => exact submitCalled_submits taken
  | locked driver r => exact submitLocked_submits taken
  | append q r =>
    cases taken
    exact ⟨.append q r rfl, trivial⟩
  | raise | unlock =>
    cases taken
    exact ⟨.quiet _ _ ⟨rfl, rfl, rfl, rfl, rfl, rfl⟩ (Or.inl rfl), trivial⟩
  | returned r rc =>
    simp only [AsyncShared.submitNext] at taken
    split at taken
    · rename_i negative
      cases taken
      exact ⟨.refuse r (unqueued_refused rc negative), trivial⟩
    · cases taken
      exact ⟨.quiet _ _ (.refl s) (Or.inr rfl), trivial⟩
  | waits r =>
    obtain ⟨count, down, same⟩ := map_eq_ok.1 taken
    cases same
    obtain ⟨up, rfl⟩ := semaphoreDown_ok down
    exact ⟨.free r up, trivial⟩

variable {q : ReqQueue} {thread thread' : ThreadPlace}

theorem removeFirst_ok (taken : s.removeFirst q = .ok s') :
    ∃ r rest, s.list q = r :: rest ∧ s' = { s with list := update s.list q rest } := by
  unfold AsyncShared.removeFirst at taken
  split at taken
  · cases taken
  · rename_i r rest first
    cases taken
    exact ⟨r, rest, first, rfl⟩

theorem stageOf_serve : stageOf (q.serve r) = .holds r.id := by
  cases q <;> rfl

theorem threadNext_serves (reads : ThreadReads thread) (all : ∀ r ∈ s.list .tar, r.type = vfsAsyncTypeRead)
    (taken : s.threadNext q thread = .ok (s', thread')) : Serves s q thread s' thread' ∧ ThreadReads thread' := by
  cases thread with
  | down =>
    obtain ⟨count, -, same⟩ := map_eq_ok.1 taken
    cases same
    exact ⟨.quiet _ _ ⟨rfl, rfl, rfl, rfl, rfl, rfl⟩ rfl, trivial⟩
  | first =>
    simp only [AsyncShared.threadNext] at taken
    split at taken
    · cases taken
    · rename_i r rest first
      cases taken
      refine ⟨.hold r rest _ rfl first stageOf_serve, ?_⟩
      cases q with
      | tar => exact all r (by rw [first]; exact List.mem_cons_self)
      | _ => trivial
  | process r =>
    simp only [AsyncShared.threadNext, if_pos (show r.type = vfsAsyncTypeRead from reads)] at taken
    cases taken
    exact ⟨.complete r _ rfl rfl, trivial⟩
  | removeProcessed r =>
    obtain ⟨shared, removed, same⟩ := map_eq_ok.1 taken
    cases same
    obtain ⟨r', rest, first, rfl⟩ := removeFirst_ok removed
    exact ⟨.dropFirst r r' rest _ rfl first rfl, trivial⟩
  | waitData r =>
    simp only [AsyncShared.threadNext, AsyncShared.waitData] at taken
    split at taken
    · split at taken
      · cases taken
      · obtain ⟨count, -, same⟩ := map_eq_ok.1 taken
        cases same
        exact ⟨.quiet _ _ ⟨rfl, rfl, rfl, rfl, rfl, rfl⟩ rfl, trivial⟩
    · split at taken
      · cases taken
      · cases taken
        exact ⟨.quiet _ _ (.refl s) rfl, trivial⟩
  | lockRing r =>
    obtain ⟨same, rfl⟩ := enters_lock taken
    exact ⟨.quiet _ _ same rfl, trivial⟩
  | readRing r =>
    obtain ⟨shared, read, same⟩ := map_eq_ok.1 taken
    cases same
    obtain ⟨signal, -, rfl⟩ := map_eq_ok.1 read
    exact ⟨.quiet _ _ ⟨rfl, rfl, rfl, rfl, rfl, rfl⟩ rfl, trivial⟩
  | unlockRing r =>
    cases taken
    exact ⟨.quiet _ _ ⟨rfl, rfl, rfl, rfl, rfl, rfl⟩ rfl, trivial⟩
  | remove r =>
    obtain ⟨shared, removed, same⟩ := map_eq_ok.1 taken
    cases same
    obtain ⟨r', rest, first, rfl⟩ := removeFirst_ok removed
    exact ⟨.remove r r' rest _ rfl first rfl, trivial⟩
  | finalize r =>
    cases taken
    exact ⟨.completeRemoved r _ rfl rfl, trivial⟩

end Statements

structure Records (next : Nat) (s : AsyncShared) (out : Nat → Prop) : Prop where
  out : ∀ id, out id → id < next ∧ id ∉ s.finalized ∧ id ∉ s.rejected ∧ ∀ q, id ∉ s.appended q
  finalized : ∀ id ∈ s.finalized, id < next
  rejected : ∀ id ∈ s.rejected, id < next ∧ id ∉ s.finalized ∧ ∀ q, id ∉ s.appended q
  appended : ∀ q, ∀ id ∈ s.appended q, id < next
  distinct : ∀ q, (s.appended q).Nodup
  disjoint : ∀ q q' id, id ∈ s.appended q → id ∈ s.appended q' → q' = q
  once : s.finalized.Nodup
  done : ∀ id, 0 < s.finSema id → id ∈ s.finalized
  freed : ∀ id ∈ s.freed, id ∈ s.rejected ∨ id ∈ s.finalized
  reads : ∀ r ∈ s.list .tar, r.type = vfsAsyncTypeRead

section Records

variable {next : Nat} {s s' : AsyncShared} {out out' : Nat → Prop} {r : Request} {q : ReqQueue}

theorem Records.same (records : Records next s out) (same : SameRecord s s') (less : ∀ id, out' id → out id) :
    Records next s' out' := by
  obtain ⟨list, finSema, appended, finalized, rejected, freed⟩ := same
  constructor <;> simp only [list, finSema, appended, finalized, rejected, freed]
  · exact fun id here => records.out id (less id here)
  · exact records.finalized
  · exact records.rejected
  · exact records.appended
  · exact records.distinct
  · exact records.disjoint
  · exact records.once
  · exact records.done
  · exact records.freed
  · exact records.reads

theorem Records.new (records : Records next s out) (more : ∀ id, out' id → out id ∨ id = next) :
    Records (next + 1) s out' :=
  { records with
    out id here := by
      rcases more id here with old | rfl
      · have fresh := records.out id old
        exact ⟨Nat.lt_succ_of_lt fresh.1, fresh.2⟩
      · exact ⟨Nat.lt_succ_self _, fun f => Nat.lt_irrefl _ (records.finalized _ f),
          fun f => Nat.lt_irrefl _ (records.rejected _ f).1, fun q f => Nat.lt_irrefl _ (records.appended q _ f)⟩
    finalized id here := Nat.lt_succ_of_lt (records.finalized id here)
    rejected id here := ⟨Nat.lt_succ_of_lt (records.rejected id here).1, (records.rejected id here).2⟩
    appended q id here := Nat.lt_succ_of_lt (records.appended q id here) }

theorem mem_appended {id : Nat} {q' : ReqQueue} (here : id ∈ update s.appended q (s.appended q ++ [r.id]) q') :
    id ∈ s.appended q' ∨ id = r.id ∧ q' = q := by
  by_cases same : q' = q
  · subst same
    rw [update_self] at here
    rcases List.mem_append.1 here with old | new
    · exact Or.inl old
    · exact Or.inr ⟨List.mem_singleton.1 new, rfl⟩
  · rw [update_of_ne same] at here
    exact Or.inl here

theorem Records.append (records : Records next s out) (mine : out r.id) (less : ∀ id, out' id → out id ∧ id ≠ r.id)
    (reads : q = .tar → r.type = vfsAsyncTypeRead) :
    Records next { s with
      list := update s.list q (s.list q ++ [r])
      appended := update s.appended q (s.appended q ++ [r.id]) } out' := by
  have fresh := records.out r.id mine
  refine ⟨fun id here => ?_, records.finalized, fun id here => ?_, fun q' id here => ?_, fun q' => ?_,
    fun q' q'' id here there => ?_, records.once, records.done, records.freed, fun r' here => ?_⟩
  · have old := records.out id (less id here).1
    refine ⟨old.1, old.2.1, old.2.2.1, fun q' listed => ?_⟩
    rcases mem_appended listed with before | ⟨same, -⟩
    · exact old.2.2.2 q' before
    · exact (less id here).2 same
  · have old := records.rejected id here
    refine ⟨old.1, old.2.1, fun q' listed => ?_⟩
    rcases mem_appended listed with before | ⟨rfl, -⟩
    · exact old.2.2 q' before
    · exact fresh.2.2.1 here
  · rcases mem_appended here with before | ⟨rfl, -⟩
    · exact records.appended q' id before
    · exact fresh.1
  · exact (forall_update_iff s.appended fun _ ids => ids.Nodup).2 ⟨List.Nodup.append (records.distinct q)
      (List.nodup_singleton _) (List.disjoint_singleton.2 (fresh.2.2.2 q)), fun q' _ => records.distinct q'⟩ q'
  · rcases mem_appended here with before | ⟨rfl, rfl⟩
    · rcases mem_appended there with before' | ⟨rfl, -⟩
      · exact records.disjoint q' q'' id before before'
      · exact absurd before (fresh.2.2.2 q')
    · rcases mem_appended there with before' | ⟨-, same⟩
      · exact absurd before' (fresh.2.2.2 q'')
      · exact same
  · dsimp only at here
    by_cases same : ReqQueue.tar = q
    · subst same
      rw [update_self] at here
      rcases List.mem_append.1 here with old | new
      · exact records.reads r' old
      · rw [List.mem_singleton.1 new]
        exact reads rfl
    · rw [update_of_ne same] at here
      exact records.reads r' here

theorem Records.finalize (records : Records next s out) (known : r.id < next) (first : r.id ∉ s.finalized)
    (kept : r.id ∉ s.rejected) (less : ∀ id, out' id → out id ∧ id ≠ r.id) :
    Records next (s.vfsAsyncFinalize r) out' where
  out id here := by
    have old := records.out id (less id here).1
    refine ⟨old.1, fun listed => ?_, old.2.2⟩
    rcases List.mem_append.1 listed with before | new
    · exact old.2.1 before
    · exact (less id here).2 (List.mem_singleton.1 new)
  finalized id here := by
    rcases List.mem_append.1 here with before | new
    · exact records.finalized id before
    · rw [List.mem_singleton.1 new]
      exact known
  rejected id here := by
    have old := records.rejected id here
    refine ⟨old.1, fun listed => ?_, old.2.2⟩
    rcases List.mem_append.1 listed with before | new
    · exact old.2.1 before
    · rw [List.mem_singleton.1 new] at here
      exact kept here
  appended := records.appended
  distinct := records.distinct
  disjoint := records.disjoint
  once := List.Nodup.append records.once (List.nodup_singleton _) (List.disjoint_singleton.2 first)
  done id up := by
    by_cases same : id = r.id
    · exact List.mem_append_right _ (List.mem_singleton.2 same)
    · simp only [AsyncShared.vfsAsyncFinalize, update_of_ne same] at up
      exact List.mem_append_left _ (records.done id up)
  freed id here := (records.freed id here).imp_right (List.mem_append_left _)
  reads := records.reads

theorem Records.refuse (records : Records next s out) (mine : out r.id) (less : ∀ id, out' id → out id ∧ id ≠ r.id) :
    Records next { s with rejected := s.rejected ++ [r.id], freed := s.freed ++ [r.id] } out' :=
  { records with
    out id here := by
      have old := records.out id (less id here).1
      refine ⟨old.1, old.2.1, fun listed => ?_, old.2.2.2⟩
      rcases List.mem_append.1 listed with before | new
      · exact old.2.2.1 before
      · exact (less id here).2 (List.mem_singleton.1 new)
    rejected id here := by
      rcases List.mem_append.1 here with before | new
      · exact records.rejected id before
      · have fresh := records.out r.id mine
        rw [List.mem_singleton.1 new]
        exact ⟨fresh.1, fresh.2.1, fresh.2.2.2⟩
    freed id here := by
      rcases List.mem_append.1 here with before | new
      · exact (records.freed id before).imp_left (List.mem_append_left _)
      · exact Or.inl (List.mem_append_right _ new) }

theorem Records.free (records : Records next s out) (up : 0 < s.finSema r.id) (less : ∀ id, out' id → out id) :
    Records next { s with
      finSema := update s.finSema r.id (s.finSema r.id - 1)
      freed := s.freed ++ [r.id] } out' :=
  { records with
    out id here := records.out id (less id here)
    done id positive := by
      by_cases same : id = r.id
      · rw [same]
        exact records.done r.id up
      · simp only [update_of_ne same] at positive
        exact records.done id positive
    freed id here := by
      rcases List.mem_append.1 here with before | new
      · exact records.freed id before
      · rw [List.mem_singleton.1 new]
        exact Or.inr (records.done r.id up) }

theorem Records.removeFirst (records : Records next s out) {r' : Request} {rest : List Request}
    (first : s.list q = r' :: rest) : Records next { s with list := update s.list q rest } out :=
  { records with
    reads r here := by
      dsimp only at here
      by_cases same : ReqQueue.tar = q
      · subst same
        rw [update_self] at here
        exact records.reads r (by rw [first]; exact List.mem_cons_of_mem _ here)
      · rw [update_of_ne same] at here
        exact records.reads r here }

end Records

section Served

variable {s s' : AsyncShared} {r : Request} {q q' : ReqQueue} {stage stage' : Stage Nat}

theorem served_same (same : SameRecord s s') : served s' q stage = served s q stage := by
  simp only [served, same.list, same.appended, same.finalized]

theorem ordered_append (ordered : (served s q' stage).Ordered) (fresh : r.id ∉ s.finalized) :
    (served { s with
      list := update s.list q (s.list q ++ [r])
      appended := update s.appended q (s.appended q ++ [r.id]) } q' stage).Ordered := by
  by_cases same : q' = q
  · subst same
    have completed : s.finalized.filter (· ∈ s.appended q' ++ [r.id]) = s.finalized.filter (· ∈ s.appended q') := by
      apply List.filter_congr
      intro id listed
      have other : id ≠ r.id := fun equal => fresh (equal ▸ listed)
      simp [other]
    have step := ordered.step (.append _ r.id)
    simpa only [served, update_self, completed, List.map_append, List.map_singleton] using step
  · simpa only [served, update_of_ne same] using ordered

theorem served_finalize_other (other : r.id ∉ s.appended q) :
    served (s.vfsAsyncFinalize r) q stage = served s q stage := by
  have same : (s.finalized ++ [r.id]).filter (· ∈ s.appended q) = s.finalized.filter (· ∈ s.appended q) := by
    rw [List.filter_append, List.filter_singleton, decide_eq_false other]
    exact List.append_nil _
  exact congrArg (Served.mk _ _ _) same

theorem served_finalize_mem (listed : r.id ∈ s.appended q) : served (s.vfsAsyncFinalize r) q stage' =
      { served s q stage with stage := stage', completed := (served s q stage).completed ++ [r.id] } := by
  have more : (s.finalized ++ [r.id]).filter (· ∈ s.appended q) =
      s.finalized.filter (· ∈ s.appended q) ++ [r.id] := by
    rw [List.filter_append, List.filter_singleton, decide_eq_true listed]
    rfl
  exact congrArg (Served.mk _ _ _) more

theorem ordered_removeFirst_other (ordered : (served s q' stage).Ordered) (other : q' ≠ q) (rest : List Request) :
    (served { s with list := update s.list q rest } q' stage).Ordered := by
  simpa only [served, update_of_ne other] using ordered

theorem pending_fresh {next : Nat} {out : Nat → Prop} (records : Records next s out)
    (ordered : (served s q stage).Ordered) (at_r : stage = .holds r.id ∨ stage = .removed r.id) :
    r.id ∈ s.appended q ∧ r.id ∉ s.finalized := by
  obtain ⟨rest, pending⟩ := ordered.pending_first at_r
  have order : s.appended q = s.finalized.filter (· ∈ s.appended q) ++ (r.id :: rest) := pending ▸ ordered.order
  have listed : r.id ∈ s.appended q := by
    rw [order]
    exact List.mem_append_right _ List.mem_cons_self
  refine ⟨listed, fun done => ?_⟩
  have completed : r.id ∈ s.finalized.filter (· ∈ s.appended q) := List.mem_filter.2 ⟨done, by simpa using listed⟩
  have distinct := records.distinct q
  rw [order] at distinct
  exact (List.disjoint_of_nodup_append distinct) completed List.mem_cons_self

end Served

section States

variable {ι : Type} [DecidableEq ι] {s s' : AsyncState ι}

def outstanding (place : ι → SubmitPlace) (id : Nat) : Prop := ∃ i, unqueued (place i) = some id

structure AsyncInv (s : AsyncState ι) : Prop where
  records : Records s.next s.shared (outstanding s.place)
  apart : ∀ i j id, unqueued (s.place i) = some id → unqueued (s.place j) = some id → i = j
  ordered : ∀ q, (served s.shared q (stageOf (s.thread q))).Ordered
  submits : ∀ i, TarReads (s.place i)
  threads : ∀ q, ThreadReads (s.thread q)

variable {place : ι → SubmitPlace} {i : ι} {target : SubmitPlace} {shared : AsyncShared} {id : Nat}

theorem apart_update (apart : ∀ i j id, unqueued (place i) = some id → unqueued (place j) = some id → i = j)
    (new : ∀ id, unqueued target = some id → ∀ j, j ≠ i → unqueued (place j) ≠ some id) (j k : ι) (id : Nat)
    (atJ : unqueued (update place i target j) = some id)
    (atK : unqueued (update place i target k) = some id) : j = k := by
  by_cases mineJ : j = i
  · by_cases mineK : k = i
    · rw [mineJ, mineK]
    · rw [mineJ, update_self] at atJ
      rw [update_of_ne mineK] at atK
      exact absurd atK (new id atJ k mineK)
  · rw [update_of_ne mineJ] at atJ
    by_cases mineK : k = i
    · rw [mineK, update_self] at atK
      exact absurd atJ (new id atK j mineJ)
    · rw [update_of_ne mineK] at atK
      exact apart j k id atJ atK

theorem outstanding_update (here : outstanding (update place i target) id) :
    unqueued target = some id ∨ ∃ j, j ≠ i ∧ unqueued (place j) = some id := by
  obtain ⟨j, at_j⟩ := here
  by_cases mine : j = i
  · rw [mine, update_self] at at_j
    exact Or.inl at_j
  · rw [update_of_ne mine] at at_j
    exact Or.inr ⟨j, mine, at_j⟩

theorem AsyncInv.leaves (inv : AsyncInv s) (mine : unqueued (s.place i) = some id)
    (done : unqueued target = none) (other : Nat) (here : outstanding (update s.place i target) other) :
    outstanding s.place other ∧ other ≠ id := by
  rcases outstanding_update here with at_target | ⟨j, different, at_j⟩
  · rw [done] at at_target
    cases at_target
  · refine ⟨⟨j, at_j⟩, ?_⟩
    rintro rfl
    exact different (inv.apart j i other at_j mine)

theorem AsyncInv.kept (inv : AsyncInv s) (kept : unqueued target = unqueued (s.place i) ∨ unqueued target = none) :
    (∀ id, outstanding (update s.place i target) id → outstanding s.place id) ∧
      ∀ id, unqueued target = some id → ∀ j, j ≠ i → unqueued (s.place j) ≠ some id := by
  refine ⟨fun id here => ?_, fun id at_target j different at_j => ?_⟩
  · rcases outstanding_update here with at_target | ⟨j, -, at_j⟩
    · rcases kept with same | none
      · exact ⟨i, same ▸ at_target⟩
      · rw [none] at at_target
        cases at_target
    · exact ⟨j, at_j⟩
  · rcases kept with same | none
    · exact different (inv.apart j i id at_j (same ▸ at_target))
    · rw [none] at at_target
      cases at_target

theorem next_inv (inv : AsyncInv s) (submits : Submits s.shared (s.place i) shared target)
    (reads : TarReads target) : AsyncInv { s with shared := shared, place := update s.place i target } := by
  have typed : ∀ j, TarReads (update s.place i target j) :=
    (forall_update_iff _ _).2 ⟨reads, fun j _ => inv.submits j⟩
  have silent (none : unqueued target = none) (j k : ι) (id : Nat) :
      unqueued (update s.place i target j) = some id →
        unqueued (update s.place i target k) = some id → j = k :=
    apart_update inv.apart (inv.kept (Or.inr none)).2 j k id
  cases submits with
  | quiet _ _ same kept =>
    refine ⟨inv.records.same same (inv.kept kept).1, apart_update inv.apart (inv.kept kept).2, fun q => ?_, typed,
      inv.threads⟩
    dsimp only
    rw [served_same same]
    exact inv.ordered q
  | append q r here =>
    have mine : unqueued (s.place i) = some r.id := by rw [here]; rfl
    have read : q = .tar → r.type = vfsAsyncTypeRead := by
      rintro rfl
      have typed := inv.submits i
      rwa [here] at typed
    exact ⟨inv.records.append ⟨i, mine⟩ (inv.leaves mine rfl) read, silent rfl,
      fun q' => ordered_append (inv.ordered q') (inv.records.out r.id ⟨i, mine⟩).2.1, typed, inv.threads⟩
  | finalize r _ mine done =>
    have fresh := inv.records.out r.id ⟨i, mine⟩
    refine ⟨inv.records.finalize fresh.1 fresh.2.1 fresh.2.2.1 (inv.leaves mine done), silent done, fun q => ?_, typed,
      inv.threads⟩
    dsimp only
    rw [served_finalize_other (fresh.2.2.2 q)]
    exact inv.ordered q
  | refuse r mine =>
    exact ⟨inv.records.refuse ⟨i, mine⟩ (inv.leaves mine rfl), silent rfl, inv.ordered, typed, inv.threads⟩
  | free r up =>
    exact ⟨inv.records.free up (inv.kept (Or.inr rfl)).1, silent rfl, inv.ordered, typed, inv.threads⟩

omit [DecidableEq ι] in
theorem thread_inv (inv : AsyncInv s) {q : ReqQueue} {thread : ThreadPlace}
    (serves : Serves s.shared q (s.thread q) shared thread) (reads : ThreadReads thread) :
    AsyncInv { s with shared := shared, thread := update s.thread q thread } := by
  have typed : ∀ q', ThreadReads (update s.thread q thread q') :=
    (forall_update_iff _ _).2 ⟨reads, fun q' _ => inv.threads q'⟩
  have ordered (own : (served shared q (stageOf thread)).Ordered)
      (others : ∀ q', q' ≠ q → (served shared q' (stageOf (s.thread q'))).Ordered) :
      ∀ q', (served shared q' (stageOf (update s.thread q thread q'))).Ordered :=
    (forall_update_iff s.thread fun q' at_q => (served shared q' (stageOf at_q)).Ordered).2 ⟨own, others⟩
  have finalizes {r : Request} (at_r : stageOf (s.thread q) = .holds r.id ∨ stageOf (s.thread q) = .removed r.id)
      (step : Served.Step (served s.shared q (stageOf (s.thread q))) { served s.shared q (stageOf (s.thread q)) with
        stage := stageOf thread
        completed := (served s.shared q (stageOf (s.thread q))).completed ++ [r.id] }) :
      AsyncInv { s with shared := s.shared.vfsAsyncFinalize r, thread := update s.thread q thread } := by
    obtain ⟨listed, first⟩ := pending_fresh inv.records (inv.ordered q) at_r
    have accepted : r.id ∉ s.shared.rejected := fun refused => (inv.records.rejected r.id refused).2.2 q listed
    have others : ∀ id, outstanding s.place id → outstanding s.place id ∧ id ≠ r.id := by
      refine fun id here => ⟨here, ?_⟩
      rintro rfl
      exact (inv.records.out _ here).2.2.2 q listed
    refine ⟨inv.records.finalize (inv.records.appended q r.id listed) first accepted others, inv.apart,
      fun q' => ?_, inv.submits, typed⟩
    dsimp only
    by_cases same : q' = q
    · subst same
      rw [update_self, served_finalize_mem listed]
      exact (inv.ordered q').step step
    · have other : r.id ∉ s.shared.appended q' := fun there => same (inv.records.disjoint q q' r.id listed there)
      rw [update_of_ne same, served_finalize_other other]
      exact inv.ordered q'
  cases serves with
  | quiet _ _ same stage =>
    refine ⟨inv.records.same same fun id here => here, inv.apart, ordered ?_ fun q' other => ?_, inv.submits, typed⟩
    · rw [served_same same, stage]
      exact inv.ordered q
    · rw [served_same same]
      exact inv.ordered q'
  | hold r rest _ idle first stage =>
    refine ⟨inv.records, inv.apart, ordered ?_ fun q' other => inv.ordered q', inv.submits, typed⟩
    have waiting : (s.shared.list q).map Request.id = r.id :: rest.map Request.id := by rw [first]; rfl
    have step := (inv.ordered q).step (.hold _ idle r.id _ waiting)
    rw [stage]
    exact step
  | complete r _ holds stage =>
    refine finalizes (Or.inl holds) ?_
    rw [stage]
    exact .complete _ r.id holds
  | completeRemoved r _ removed stage =>
    refine finalizes (Or.inr removed) ?_
    rw [stage]
    exact .completeRemoved _ r.id removed
  | dropFirst r r' rest _ completed first stage =>
    refine ⟨inv.records.removeFirst first, inv.apart,
      ordered ?_ fun q' other => ordered_removeFirst_other (inv.ordered q') other rest, inv.submits, typed⟩
    have waiting : (s.shared.list q).map Request.id = r'.id :: rest.map Request.id := by rw [first]; rfl
    have step := (inv.ordered q).step (.dropFirst _ r.id r'.id completed _ waiting)
    simpa only [served, stage, update_self] using step
  | remove r r' rest _ holds first stage =>
    refine ⟨inv.records.removeFirst first, inv.apart,
      ordered ?_ fun q' other => ordered_removeFirst_other (inv.ordered q') other rest, inv.submits, typed⟩
    have waiting : (s.shared.list q).map Request.id = r'.id :: rest.map Request.id := by rw [first]; rfl
    have step := (inv.ordered q).step (.remove _ r.id r'.id holds _ waiting)
    simpa only [served, stage, update_self] using step

omit [DecidableEq ι] in
theorem settle_error {φ : Type} {stop : Stop} {move : AsyncShared → φ → AsyncState ι}
    (halts : ∀ stop, AsyncInv { s with halted := some stop }) (taken : s.settle (.error stop) move = some s') :
    AsyncInv s' := by
  cases stop with
  | blocked => cases taken
  | _ =>
    obtain rfl := Option.some.inj taken
    exact halts _

theorem step_inv {action : AsyncAction ι} (inv : AsyncInv s) (taken : asyncStep s action = some s') : AsyncInv s' := by
  have halts (stop : Stop) : AsyncInv { s with halted := some stop } :=
    ⟨inv.records, inv.apart, inv.ordered, inv.submits, inv.threads⟩
  unfold asyncStep at taken
  split at taken
  · cases taken
  · cases action with
    | submit i driver pid type size flags =>
      simp only at taken
      split at taken
      · obtain rfl := Option.some.inj taken
        have new : ∀ id, unqueued (.called driver ⟨s.next, pid, type, size, flags⟩) = some id → id = s.next :=
          fun id at_target => (Option.some.inj at_target).symm
        refine ⟨inv.records.new fun id here => ?_, apart_update inv.apart fun id at_target j different at_j => ?_,
          inv.ordered, fun j => ?_, inv.threads⟩
        · rcases outstanding_update here with at_target | ⟨j, -, at_j⟩
          · exact Or.inr (new id at_target)
          · exact Or.inl ⟨j, at_j⟩
        · have old := (inv.records.out id ⟨j, at_j⟩).1
          rw [new id at_target] at old
          exact Nat.lt_irrefl _ old
        · dsimp only
          by_cases mine : j = i
          · rw [mine, update_self]
            trivial
          · rw [update_of_ne mine]
            exact inv.submits j
      · cases taken
    | next i =>
      simp only at taken
      cases out : s.shared.submitNext (s.place i) with
      | ok result =>
        obtain ⟨shared, place⟩ := result
        rw [out] at taken
        obtain rfl := Option.some.inj taken
        obtain ⟨submits, reads⟩ := submitNext_submits out
        exact next_inv inv submits reads
      | error stop =>
        rw [out] at taken
        exact settle_error halts taken
    | thread q =>
      simp only at taken
      cases out : s.shared.threadNext q (s.thread q) with
      | ok result =>
        obtain ⟨shared, place⟩ := result
        rw [out] at taken
        obtain rfl := Option.some.inj taken
        obtain ⟨serves, reads⟩ := threadNext_serves (inv.threads q) inv.records.reads out
        exact thread_inv inv serves reads
      | error stop =>
        rw [out] at taken
        exact settle_error halts taken
    | input q available dataSignal =>
      obtain rfl := Option.some.inj taken
      exact ⟨inv.records.same ⟨rfl, rfl, rfl, rfl, rfl, rfl⟩ fun id here => here, inv.apart, inv.ordered, inv.submits,
        inv.threads⟩

omit [DecidableEq ι] in
theorem AsyncInv.completesOnce (inv : AsyncInv s) : CompletesOnce s where
  once := inv.records.once
  accepted id refused := (inv.records.rejected id refused).2.1
  order q := ⟨_, (inv.ordered q).order.symm⟩
  freed := inv.records.freed

theorem requests_complete_once (actions : List (AsyncAction ι)) :
    Throughout asyncStep CompletesOnce (asyncStart ι) actions := by
  have initial : AsyncInv (asyncStart ι) := by
    refine ⟨⟨nofun, nofun, nofun, nofun, fun _ => List.nodup_nil, nofun, List.nodup_nil, nofun, nofun, nofun⟩, nofun,
      fun _ => Served.ordered_empty, fun _ => trivial, fun _ => trivial⟩
  exact throughout_mono (fun s inv => inv.completesOnce)
    (throughout_invariant (fun _ _ _ inv taken => step_inv inv taken) initial)

/-- A read and a write are served by two threads, and the keyboard refuses a write. -/
example :
    (run asyncStep (asyncStart (Fin 2))
      ([.submit 0 .tar 0 vfsAsyncTypeRead 4 0, .submit 1 .tty 0 vfsAsyncTypeWrite 4 0] ++
        List.replicate 6 (.next 0) ++ List.replicate 6 (.next 1) ++ List.replicate 3 (.thread .tar) ++
        List.replicate 4 (.thread .ttyWrite) ++ [.next 0, .thread .tar, .submit 0 .kbd 0 vfsAsyncTypeWrite 4 0, .next 0,
          .next 0])).map (fun s => (s.shared.finalized, s.shared.rejected, s.shared.freed)) =
      some ([0, 1], [2], [0, 2]) := by
  decide +kernel

end States

end PiOS.Proof.Requests
