import PiOS.Proof.Context
import PiOS.Proof.Tables
import PiOS.Proof.UserCopy

namespace PiOS.Proof.OwnPages
open Kernel Tables Memory Transition

def Unmapped (page : Word) : Prop := page = illegalPage ∨ page = unmappedPage

/-- The data pages given to a process: those it was started with, which are its stack and what the loader has
mapped, and those `SYS_PGMAP` has granted since. -/
def Allotted (h : History) (j : Nat) (page : Word) : Prop :=
  ¬ Unmapped page ∧ ((∃ first ∈ (h.returns j).getLast?, ∃ e, first.memPages e = page) ∨
    (∃ r ∈ h.returns j, ∃ e, r.granted = some (e, page)) ∨ ∃ e, h.granted j = some (e, page))

structure KeepsTo (given : Word → Prop) (k : KernelState) (p : Proc) (ubuff size : Word) : Prop where
  reads : ∀ phys, (∀ page, given page → phys page = k.phys page) →
    (memcpyFromUserspace { k with phys := phys } p ubuff size).2 = (memcpyFromUserspace k p ubuff size).2
  writes : ∀ kbuff page, ¬ given page → (memcpyToUserspace k p ubuff kbuff size).phys page = k.phys page

def Mapped (p : Proc) (ubuff size : Word) : Prop :=
  ∀ n < size.toNat, ¬ Unmapped (p.syscallState.memPages (virtPagePart (ubuff + BitVec.ofNat 16 n)))

section Copies

variable {given : Word → Prop} {k : KernelState} {p : Proc} {ubuff size : Word}

theorem KeepsTo.touched (keeps : KeepsTo given k p ubuff size) {n : Nat} (inside : n < size.toNat) :
    given (p.syscallState.memPages (virtPagePart (ubuff + BitVec.ofNat 16 n))) := by
  -- if the page were not given, its bytes could all be others
  by_contra foreign
  generalize touched : p.syscallState.memPages (virtPagePart (ubuff + BitVec.ofNat 16 n)) = page at foreign
  have agrees : ∀ q, given q → (fun q a => if q = page then k.phys q a + 1 else k.phys q a : PhysMem) q = k.phys q := by
    intro q own
    have other : q ≠ page := fun same => foreign (same ▸ own)
    funext a
    exact if_neg other
  have same := keeps.reads _ agrees
  rw [memcpyFromUserspace_bytes, memcpyFromUserspace_bytes, userBytes, userBytes] at same
  have byte := List.map_inj_left.mp same n (List.mem_range.mpr inside)
  simp only [flat, placeOf, touched, if_true] at byte
  exact absurd byte (by simp)

theorem keepsTo_of_touched
    (touched : ∀ n < size.toNat, given (p.syscallState.memPages (virtPagePart (ubuff + BitVec.ofNat 16 n)))) :
    KeepsTo given k p ubuff size where
  reads := by
    intro phys agrees
    rw [memcpyFromUserspace_bytes, memcpyFromUserspace_bytes]
    apply List.map_congr_left
    intro n member
    have own := agrees _ (touched n (List.mem_range.mp member))
    exact congrFun own _
  writes := by
    intro kbuff page foreign
    funext a
    have placed := congrFun (memcpyToUserspace_phys k p ubuff kbuff size) (page, a)
    rw [storeAll_outside] at placed
    · exact placed
    · intro n inside same
      rw [List.length_take] at inside
      have hit : p.syscallState.memPages (virtPagePart (ubuff + BitVec.ofNat 16 n)) = page := congrArg Prod.fst same
      exact foreign (hit ▸ touched n (by omega))

theorem keepsTo_iff : KeepsTo given k p ubuff size ↔
    ∀ n < size.toNat, given (p.syscallState.memPages (virtPagePart (ubuff + BitVec.ofNat 16 n))) :=
  ⟨fun keeps _ inside => keeps.touched inside, keepsTo_of_touched⟩

end Copies

section Origin

variable {m : Machine} {j : Nat} {r : Return} {rs : List Return}

theorem entry_origin (chain : (r :: rs).IsChain Keeps) (e : Fin 16) :
    (∃ first ∈ (r :: rs).getLast?, first.memPages e = r.memPages e) ∨
      ∃ r' ∈ r :: rs, r'.granted = some (e, r.memPages e) := by
  induction rs generalizing r with
  | nil => exact Or.inl ⟨r, rfl, rfl⟩
  | cons old rs ih =>
    obtain ⟨kept, rest⟩ := List.isChain_cons_cons.mp chain
    rcases kept.2 e with same | ⟨-, granted⟩
    · rw [same]
      rcases ih rest with ⟨first, last, equal⟩ | ⟨r', member, granted⟩
      · exact Or.inl ⟨first, by rwa [List.getLast?_cons_cons], equal⟩
      · exact Or.inr ⟨r', List.mem_cons_of_mem r member, granted⟩
    · exact Or.inr ⟨r, List.mem_cons_self, granted⟩

theorem allotted_entry (sound : (view m j).Sound) (started : m.history.returns j ≠ []) {t : PageTables}
    (table : (view m j).table = some t) {e : Fin 16} (mapped : ¬ Unmapped (t.1 e)) : Allotted m.history j (t.1 e) := by
  obtain ⟨r, rs, returns⟩ := List.exists_cons_of_ne_nil started
  obtain ⟨chain, latest⟩ := sound.kept t table
  change (m.history.returns j).IsChain Keeps at chain
  have kept := (latest r (by simp [view, returns])).1
  refine ⟨mapped, ?_⟩
  rw [returns] at chain ⊢
  rcases kept.2 e with same | ⟨-, granted⟩
  · change t.1 e = r.memPages e at same
    rw [same]
    rcases entry_origin chain e with ⟨first, last, equal⟩ | ⟨r', member, granted⟩
    · exact Or.inl ⟨first, last, e, equal⟩
    · exact Or.inr (Or.inl ⟨r', member, e, granted⟩)
  · exact Or.inr (Or.inr ⟨e, granted⟩)

end Origin

def LoadedBefore (k k' : KernelState) : Prop :=
  ∀ (j : Nat) (q : Proc), k'.procs[j]? = some q → q.type ≠ .kernel → q.state ≠ .unloaded →
    ∃ p, k.procs[j]? = some p ∧ p.type ≠ .kernel ∧ p.state ≠ .unloaded

section Loaded

variable {k k' k'' : KernelState} {i : Nat} {p : Proc}

theorem LoadedBefore.trans (first : LoadedBefore k k') (second : LoadedBefore k' k'') : LoadedBefore k k'' := by
  intro j q there user loaded
  obtain ⟨r, between, user', loaded'⟩ := second j q there user loaded
  exact first j r between user' loaded'

theorem loadedBefore_standing (same : k'.procs.map standing = k.procs.map standing) : LoadedBefore k k' := by
  intro j q there user loaded
  obtain ⟨p, here, type, state⟩ := standing_at same there
  exact ⟨p, here, type ▸ user, state ▸ loaded⟩

theorem loadedBefore_refl (k : KernelState) : LoadedBefore k k := loadedBefore_standing rfl

theorem loadedBefore_untouched (here : k.procs[i]? = some p) (user : p.type ≠ .kernel) (loaded : p.state ≠ .unloaded)
    (untouched : Untouched i k k') : LoadedBefore k k' := by
  intro j q there user' loaded'
  by_cases own : j = i
  · exact ⟨p, own ▸ here, user, loaded⟩
  · exact ⟨q, (untouched j own).symm.trans there, user', loaded'⟩

theorem loadedBefore_modify (here : k.procs[i]? = some p) (loaded : p.state ≠ .unloaded) {f : Proc → Proc}
    (type : (f p).type = p.type) : LoadedBefore k (k.modifyProc i f) := by
  intro j q there user' loaded'
  by_cases own : j = i
  · subst own
    rw [modifyProc_self, here] at there
    obtain rfl := Option.some.inj there
    exact ⟨p, here, type ▸ user', loaded⟩
  · rw [modifyProc_of_ne _ _ _ own] at there
    exact ⟨q, there, user', loaded'⟩

theorem loadedBefore_switched (switched : Switched k k') : LoadedBefore k k' := by
  intro j q there user loaded
  have inside : j < k.procs.length := by
    rw [← switched.length]
    exact (List.getElem?_eq_some_iff.mp there).1
  obtain ⟨r, equal, effect⟩ := switched.each j _ (List.getElem?_eq_getElem inside)
  obtain rfl := Option.some.inj (there.symm.trans equal)
  have type : q.type = k.procs[j].type := effect.keeps (alarmed_keeps fun _ _ => rfl) fun _ => rfl
  refine ⟨_, List.getElem?_eq_getElem inside, type ▸ user, ?_⟩
  rcases effect.state with same | ⟨blocked, -⟩ | ⟨blocked, -⟩
  · exact same ▸ loaded
  · simp [blocked]
  · simp [blocked]

end Loaded

section Steps

variable {m m' : Machine} {i : Nat} {p : Proc}

theorem resume_loaded {before : KernelState} {x : Option (Except Stop KernelState)}
    (resumed : m.resume before x = some m') (prepared : LoadedBefore m.kernel before)
    (switches : ∀ after, x = some (.ok after) → Switched before after) : LoadedBefore m.kernel m'.kernel := by
  rcases resume_cases resumed with ⟨after, result, rfl⟩ | ⟨stop, -, rfl⟩
  · exact prepared.trans (loadedBefore_switched (switches after result))
  · exact loadedBefore_refl m.kernel

theorem saved_loaded (k : KernelState) (state : IntHandlerState) :
    LoadedBefore k (countTick (saveState k state) state) := by
  apply loadedBefore_standing
  rw [countTick_procs]
  exact saveState_map standing_procState k state

theorem irq_loaded {state : IntHandlerState} {fuel : Nat} (served : m.irq state fuel = some m') :
    LoadedBefore m.kernel m'.kernel :=
  resume_loaded served (saved_loaded m.kernel state) fun _ ended => (interruptEnd_switched ended).1

variable (running : m.kernel.currentProc = some i) (here : m.kernel.procs[i]? = some p)
include here

theorem segfaulted_loaded {heap : HeapMemory} (state : IntHandlerState) (loaded : p.state ≠ .unloaded) :
    LoadedBefore m.kernel (segfaulted m.kernel i p state heap) := by
  obtain ⟨s, saved⟩ := saveState_at here state
  have dies : LoadedBefore m.kernel ((saveState m.kernel state).modifyProc i killedBySegfault) :=
    (loadedBefore_standing (saveState_map standing_procState m.kernel state)).trans
      (loadedBefore_modify saved loaded rfl)
  exact dies.trans (loadedBefore_standing (segfaulted_map (fun _ => rfl) m.kernel i p state heap))

include running

theorem trap_loaded (state : IntHandlerState) (user : p.type ≠ .kernel) (loaded : p.state ≠ .unloaded) :
    LoadedBefore m.kernel (intSysCallEnter (countTick (saveState m.kernel state) state) i) := by
  apply loadedBefore_untouched here user loaded
  intro j other
  exact trap_others running state other

omit here in
theorem exec_loaded {answers : Answers} {k : KernelState} {child : Option Nat} (call : p.syscall = some .exec)
    (begun : execBegin m.kernel i p answers = .ok (k, child)) : LoadedBefore m.kernel k := by
  have begins := (execBegin_frame running answers call).returned begun
  cases child with
  | none => exact loadedBefore_standing (begins.map fun _ => rfl)
  | some child =>
    obtain ⟨-, k₁, new, frame, fresh, procs, -⟩ := begins
    refine (loadedBefore_standing (frame.map fun _ => rfl)).trans ?_
    intro j q there user loaded
    rw [procs] at there
    by_cases small : j < k₁.procs.length
    · rw [List.getElem?_append_left small] at there
      exact ⟨q, there, user, loaded⟩
    · rw [List.getElem?_append_right (Nat.not_lt.mp small)] at there
      obtain rfl := List.mem_singleton.mp (List.mem_of_getElem? there)
      exact absurd fresh.state loaded

omit running in
theorem load_loaded {loaded : Loaded} {child : Nat} {j : Nat} {q : Proc}
    (there : (execFinish m.kernel i p child loaded).procs[j]? = some q) (user : q.type ≠ .kernel)
    (ready : q.state ≠ .unloaded) (own : p.type ≠ .kernel ∧ p.state ≠ .unloaded) :
    (∃ p, m.kernel.procs[j]? = some p ∧ p.type ≠ .kernel ∧ p.state ≠ .unloaded) ∨
      (m.history.recordStart child loaded).returns j ≠ [] := by
  by_cases new : j = child
  · subst new
    exact Or.inr (by simp [History.recordStart])
  · by_cases mine : j = i
    · exact Or.inl ⟨p, mine ▸ here, own⟩
    · have kept : (execFinish m.kernel i p child loaded).procs[j]? = m.kernel.procs[j]? :=
        (modifyProc_of_ne _ i _ mine).trans (modifyProc_of_ne m.kernel child _ new)
      exact Or.inl ⟨q, kept.symm.trans there, user, ready⟩

end Steps

section Runs

variable {m m' : Machine} {action : Action}

theorem step_loaded (stand : Stands m) (taken : m.step action = some m') {j : Nat} {q : Proc}
    (there : m'.kernel.procs[j]? = some q) (user : q.type ≠ .kernel) (loaded : q.state ≠ .unloaded) :
    (∃ p, m.kernel.procs[j]? = some p ∧ p.type ≠ .kernel ∧ p.state ≠ .unloaded) ∨ m'.history.returns j ≠ [] := by
  have before : LoadedBefore m.kernel m'.kernel →
      (∃ p, m.kernel.procs[j]? = some p ∧ p.type ≠ .kernel ∧ p.state ≠ .unloaded) ∨ m'.history.returns j ≠ [] :=
    fun older => Or.inl (older j q there user loaded)
  cases (step_cases taken).2 with
  | irq state fuel _ served => exact before (irq_loaded served)
  | others semas heap => exact before (loadedBefore_refl m.kernel)
  | own i p _ _ running here does =>
    have runs := (stand.runs i p running here).not_unloaded
    have fits := stand.fits i p here
    have untouched : p.type ≠ .kernel → ∀ {k}, Untouched i m.kernel k → LoadedBefore m.kernel k :=
      fun program _ => loadedBefore_untouched here program runs
    cases does with
    | user | stop => exact before (loadedBefore_refl m.kernel)
    | trap state place outside =>
      have program : p.type ≠ .kernel := fun kernel => by simp [inKernel, kernel] at outside
      exact before (trap_loaded running here state program runs)
    | signal _ _ step =>
      obtain ⟨place, quiet⟩ := step.quiet running
      exact before (loadedBefore_standing (quiet.map fun _ => rfl))
    | exit answers place call =>
      have logged : Untouched i m.kernel m.kernel.log := fun j other => mapPageZero_ne running other illegalPage
      exact before (untouched (in_call stand running here (Or.inl place)).1
        (logged.trans (untouched_modify _ i _)))
    | exec answers k child place call begun => exact before (exec_loaded running call begun)
    | serve answers k place apart served =>
      exact before (untouched (in_call stand running here (Or.inl place)).1
        ((processSyscall_untouched running answers apart).returned served))
    | load filling child place =>
      have program := (in_call stand running here (Or.inr (Or.inr ⟨child, place⟩))).1
      exact load_loaded here there user loaded ⟨program, runs⟩
    | finish fuel _ place dead resumed =>
      exact before (resume_loaded resumed
        (loadedBefore_standing (mapPageZero_map standing_procState m.kernel illegalPage))
        fun _ ended => (intSysCallSwitch_switched ended).1)
    | leave fuel k place alive left =>
      rw [place] at fits
      exact before (untouched fits.1 ((intSysCallLeave_untouched running here).returned left))
    | sleep sema state fuel _ inside place resumed =>
      refine before (resume_loaded resumed ?_ fun _ ended => (interruptEnd_switched ended).1)
      exact (loadedBefore_modify here runs rfl).trans (saved_loaded _ state)
    | segfault state fuel heap _ place outside room resumed =>
      exact before ((segfaulted_loaded here state runs).trans
        (resume_loaded resumed (loadedBefore_refl _) fun _ ended => (interruptEnd_switched ended).1))
    | pageZero page inside =>
      exact before (loadedBefore_standing (mapPageZero_map standing_procState m.kernel page))

structure OwnInv (m : Machine) : Prop extends TableInv m where
  started : ∀ (j : Nat) (p : Proc), m.kernel.procs[j]? = some p → p.type ≠ .kernel → p.state ≠ .unloaded →
    m.history.returns j ≠ []

theorem step_ownInv (inv : OwnInv m) (intact : Intact m action) (taken : m.step action = some m') : OwnInv m' := by
  have stand := inv.stand (step_cases taken).1
  refine ⟨step_tableInv inv.toTableInv intact taken, fun j q there user loaded => ?_⟩
  rcases step_loaded stand taken there user loaded with ⟨p, here, user', loaded'⟩ | started
  · exact (step_tables stand intact taken j).started (inv.started j p here user' loaded')
  · exact started

theorem start_ownInv {k : KernelState} (ready : Ready k) : OwnInv (Machine.start k) where
  stand := fun _ => start_stands ready
  bounds := inBounds_of_goes rfl
  sound := start_tables k
  started := by
    intro j p here user _
    have here' : k.procs[j]? = some p := here
    simp [Machine.start, here', user, Option.filter]

def CopiesConfined (m : Machine) : Prop :=
  m.halted = none → ∀ (j : Nat) (p : Proc), m.kernel.procs[j]? = some p → p.type ≠ .kernel → m.phase j ≠ .user →
    ∀ ubuff size, KeepsTo (Allotted m.history j) m.kernel p ubuff size ↔ Mapped p ubuff size

theorem OwnInv.confined (inv : OwnInv m) : CopiesConfined m := by
  intro goes j p here user inside ubuff size
  have fits := (inv.stand goes).fits j p here
  have loaded : p.state ≠ .unloaded := by
    intro unloaded
    rw [unloaded] at fits
    cases place : m.phase j with
    | user => exact inside place
    | _ => simp [place, Fits] at fits
  have table : (view m j).table = some (tables p.syscallState) := by
    have at_j : (view m j).table = _ := table_at here user
    rwa [if_neg inside] at at_j
  rw [keepsTo_iff]
  constructor
  · exact fun own n touched => (own n touched).1
  · exact fun mapped n touched => allotted_entry (inv.sound j) (inv.started j p here user loaded) table (mapped n touched)

end Runs

def writesMapped : List Action :=
  wholeCall .pgmap 3 0 0 ++ [.trap (userRegs Syscall.write.number 1 0x3000 1 false)]

end PiOS.Proof.OwnPages
