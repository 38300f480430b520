import PiOS.Proof.SignalFrame
import PiOS.Proof.Standing

namespace PiOS.Proof.Tables
open Kernel Transition Function

def Keeps (new old : Return) : Prop :=
  new.progPages = old.progPages ∧ ∀ e, new.memPages e = old.memPages e ∨
    (old.memPages e = 0 ∨ old.memPages e = unmappedPage) ∧ new.granted = some (e, new.memPages e)

structure View where
  place : Phase
  table : Option PageTables
  granted : Option (Fin 16 × Word)
  returns : List Return

inductive TableStep (a b : View) : Prop
  | keeps (table : b.table = a.table) (returns : b.returns = a.returns)
      (place : a.place = .done → b.place = .done ∧ b.granted = a.granted)
  | grants (t : PageTables) (e : Fin 16) (page : Word) (place : a.place ≠ .done)
      (before : a.table = some t) (unmapped : t.1 e = 0 ∨ t.1 e = unmappedPage)
      (after : b.table = some (update t.1 e page, t.2)) (granted : b.granted = some (e, page))
      (done : b.place = .done) (returns : b.returns = a.returns)
  | returns (t : PageTables) (place : a.place = .done) (before : a.table = some t)
      (after : b.table = some t) (returns : b.returns = ⟨t.1, t.2, a.granted⟩ :: a.returns)
  | starts (t : PageTables) (after : b.table = some t) (returns : b.returns = [⟨t.1, t.2, none⟩])
  | born (before : a.table = none) (returns : b.returns = a.returns)

structure View.Sound (a : View) : Prop where
  absent : a.table = none → a.returns = []
  kept : ∀ t, a.table = some t → a.returns.IsChain Keeps ∧ ∀ last ∈ a.returns.head?,
    Keeps ⟨t.1, t.2, a.granted⟩ last ∧ (a.place ≠ .done → t.1 = last.memPages ∧ t.2 = last.progPages)

section

variable {a b : View}

theorem TableStep.of_eq (same : b = a) : TableStep a b := by
  rw [same]
  exact .keeps rfl rfl fun done => ⟨done, rfl⟩

theorem keeps_same (mem prog : Fin 16 → Word) (granted granted' : Option (Fin 16 × Word)) :
    Keeps ⟨mem, prog, granted⟩ ⟨mem, prog, granted'⟩ := ⟨rfl, fun _ => Or.inl rfl⟩

theorem View.Sound.latest {t : PageTables} {granted : Option (Fin 16 × Word)} {earlier : List Return}
    (table : a.table = some t) (returns : a.returns = ⟨t.1, t.2, granted⟩ :: earlier)
    (chain : a.returns.IsChain Keeps) : a.Sound := by
  refine ⟨fun nobody => ?_, fun t' here => ⟨chain, fun last member => ?_⟩⟩
  · rw [table] at nobody
    cases nobody
  · obtain rfl := Option.some.inj (table.symm.trans here)
    rw [returns] at member
    obtain rfl := Option.some.inj member
    exact ⟨keeps_same _ _ _ _, fun _ => ⟨rfl, rfl⟩⟩

theorem TableStep.sound (step : TableStep a b) (sound : a.Sound) : b.Sound := by
  cases step with
  | keeps table returns place =>
    refine ⟨fun nobody => returns.trans (sound.absent (table ▸ nobody)), fun t here => ?_⟩
    obtain ⟨chain, latest⟩ := sound.kept t (table ▸ here)
    rw [returns]
    refine ⟨chain, fun last member => ?_⟩
    obtain ⟨kept, same⟩ := latest last member
    by_cases done : a.place = .done
    · obtain ⟨still, granted⟩ := place done
      rw [granted]
      exact ⟨kept, fun other => absurd still other⟩
    · obtain ⟨mem, prog⟩ := same done
      rw [mem, prog]
      exact ⟨keeps_same _ _ _ _, fun _ => ⟨rfl, rfl⟩⟩
  | grants t e page place before unmapped after granted done returns =>
    obtain ⟨chain, latest⟩ := sound.kept t before
    refine ⟨fun nobody => ?_, fun t' here => ?_⟩
    · rw [after] at nobody
      cases nobody
    obtain rfl := Option.some.inj (after.symm.trans here)
    rw [returns]
    refine ⟨chain, fun last member => ?_⟩
    obtain ⟨mem, prog⟩ := (latest last member).2 place
    refine ⟨⟨prog, fun e' => ?_⟩, fun other => absurd done other⟩
    by_cases own : e' = e
    · subst own
      rw [← mem]
      exact Or.inr ⟨unmapped, by simp [granted]⟩
    · exact Or.inl (by simp [own, mem])
  | returns t place before after returns =>
    obtain ⟨chain, latest⟩ := sound.kept t before
    refine .latest after returns ?_
    rw [returns]
    exact List.isChain_cons.mpr ⟨fun last member => (latest last member).1, chain⟩
  | starts t after returns =>
    refine .latest after returns ?_
    rw [returns]
    exact List.isChain_singleton _
  | born before returns =>
    have empty := returns.trans (sound.absent before)
    refine ⟨fun _ => empty, fun t here => ?_⟩
    rw [empty]
    exact ⟨List.isChain_nil, fun last member => by cases member⟩

theorem TableStep.started (step : TableStep a b) (started : a.returns ≠ []) : b.returns ≠ [] := by
  cases step with
  | keeps _ returns | grants _ _ _ _ _ _ _ _ _ returns | born _ returns => rwa [returns]
  | returns _ _ _ _ returns => simp [returns]
  | starts _ _ returns => simp [returns]

end

def paging (p : Proc) : ProcType × PageTables × PageTables :=
  (p.type, tables p.procState, tables p.syscallState)

def inner (p : Proc) : ProcType × PageTables := (p.type, tables p.syscallState)

def pagingAt (procs : List Proc) (j : Nat) : Option (ProcType × PageTables × PageTables) :=
  (procs[j]?).map paging

def tableOf (place : Phase) (pages : ProcType × PageTables × PageTables) : Option PageTables :=
  if pages.1 = .kernel then none else some (if place = .user then pages.2.1 else pages.2.2)

def view (m : Machine) (j : Nat) : View where
  place := m.phase j
  table := (pagingAt m.kernel.procs j).bind (tableOf (m.phase j))
  granted := m.history.granted j
  returns := m.history.returns j

structure Within (i : Nat) (k k' : KernelState) : Prop where
  others : ∀ j, j ≠ i → pagingAt k'.procs j = pagingAt k.procs j
  inner : k'.procs.map inner = k.procs.map inner

section

variable {i : Nat} {k k' k'' : KernelState} {procs procs' : List Proc}

theorem pagingAt_map (same : procs'.map paging = procs.map paging) (j : Nat) :
    pagingAt procs' j = pagingAt procs j := by
  have equal := congrArg (fun list => list[j]?) same
  simpa only [pagingAt, List.getElem?_map] using equal

theorem inner_of_paging (same : procs'.map paging = procs.map paging) : procs'.map inner = procs.map inner := by
  have equal := congrArg (List.map fun pages : ProcType × PageTables × PageTables => (pages.1, pages.2.2)) same
  simp only [List.map_map] at equal
  exact equal

theorem Within.trans (first : Within i k k') (second : Within i k' k'') : Within i k k'' :=
  ⟨fun j other => (second.others j other).trans (first.others j other),
    second.inner.trans first.inner⟩

theorem Within.of_paging (same : k'.procs.map paging = k.procs.map paging) : Within i k k' :=
  ⟨fun j _ => pagingAt_map same j, inner_of_paging same⟩

theorem Within.modify (k : KernelState) (i : Nat) (f : Proc → Proc) (keeps : ∀ p, Tables.inner (f p) = Tables.inner p) :
    Within i k (k.modifyProc i f) :=
  ⟨fun j other => by rw [pagingAt, modifyProc_of_ne _ _ _ other, pagingAt],
    map_modifyProc k i f keeps⟩

theorem Within.modify_at {p : Proc} {f : Proc → Proc} (here : k.procs[i]? = some p)
    (keeps : Tables.inner (f p) = Tables.inner p) : Within i k (k.modifyProc i f) :=
  ⟨fun j other => by rw [pagingAt, modifyProc_of_ne _ _ _ other, pagingAt],
    map_modifyProc_at k i f here keeps⟩

theorem Within.of_frameOf {κ : Proc → Proc} (frame : FrameOf κ i k k') (keeps : ∀ p, Tables.inner (κ p) = Tables.inner p) :
    Within i k k' :=
  ⟨fun j other => by rw [pagingAt, frame.others j other, pagingAt], frame.map keeps⟩

theorem Within.of_frame (frame : Frame i k k') : Within i k k' := .of_frameOf frame fun _ => rfl

theorem Within.mapPageZero (running : k.currentProc = some i) (page : Word) : Within i k (k.mapPageZero page) :=
  .of_frame ((FrameOf.refl i k).mapPageZero running page)

end

section

variable {m m' : Machine} {i : Nat} {p : Proc} {procs : List Proc} {place : Phase}

theorem view_same {j : Nat} (pages : pagingAt m'.kernel.procs j = pagingAt m.kernel.procs j)
    (phase : m'.phase j = m.phase j) (granted : m'.history.granted j = m.history.granted j)
    (returns : m'.history.returns j = m.history.returns j) : view m' j = view m j := by
  simp only [view, pages, phase, granted, returns]

theorem unchanged (pages : m'.kernel.procs.map paging = m.kernel.procs.map paging)
    (phase : m'.phase = m.phase) (granted : m'.history.granted = m.history.granted)
    (returns : m'.history.returns = m.history.returns) (j : Nat) : view m' j = view m j :=
  view_same (pagingAt_map pages j) (congrFun phase j) (congrFun granted j) (congrFun returns j)

theorem table_inner (inside : place ≠ .user) (j : Nat) :
    (pagingAt procs j).bind (tableOf place) = ((procs.map inner)[j]?).bind fun t =>
      if t.1 = .kernel then none else some t.2 := by
  rw [pagingAt, List.getElem?_map, Option.bind_map, Option.bind_map]
  simp only [Function.comp_def, tableOf, inside, if_false]
  rfl

theorem inside_keeps (within : Within i m.kernel m'.kernel) (inside : m.phase i ≠ .user) (stays : m'.phase i ≠ .user)
    (place : m.phase i = .done → m'.phase i = .done ∧ m'.history.granted i = m.history.granted i)
    (phase : ∀ j, j ≠ i → m'.phase j = m.phase j) (granted : ∀ j, j ≠ i → m'.history.granted j = m.history.granted j)
    (returns : m'.history.returns = m.history.returns) : ∀ j, TableStep (view m j) (view m' j) := by
  intro j
  by_cases own : j = i
  · subst own
    refine .keeps ?_ (congrFun returns j) place
    simp only [view, table_inner inside, table_inner stays, within.inner]
  · exact .of_eq (view_same (within.others j own) (phase j own) (granted j own) (congrFun returns j))

theorem resume_tables {before : KernelState} {x : Option (Except Stop KernelState)}
    (resumed : m.resume before x = some m') (pages : before.procs.map paging = m.kernel.procs.map paging)
    (switches : ∀ after, x = some (.ok after) → Switched before after) : ∀ j, view m' j = view m j := by
  rcases resume_cases resumed with ⟨after, result, rfl⟩ | ⟨stop, -, rfl⟩
  · exact unchanged (((switches after result).map (fun _ _ => rfl) fun _ => rfl).trans pages) rfl rfl rfl
  · exact fun j => rfl

theorem saveState_paging (k : KernelState) (state : IntHandlerState) :
    (saveState k state).procs.map paging = k.procs.map paging := by
  unfold saveState
  split
  · rfl
  · exact map_modifyProc _ _ _ fun _ => rfl

variable {fuel : Nat} {state : IntHandlerState} {k : KernelState} {q : Proc}

theorem irq_tables (served : m.irq state fuel = some m') : ∀ j, view m' j = view m j := by
  refine resume_tables served ?_ fun after ended => (interruptEnd_switched ended).1
  rw [countTick_procs]
  exact saveState_paging m.kernel state

theorem sleep_tables {sema : SemaRef}
    (resumed : m.resume (asleep m.kernel i sema state) (interruptEnd fuel true (asleep m.kernel i sema state)) =
      some m') : ∀ j, view m' j = view m j := by
  refine resume_tables resumed ?_ fun after ended => (interruptEnd_switched ended).1
  rw [asleep, countTick_procs]
  refine (saveState_paging _ state).trans (map_modifyProc _ _ _ ?_)
  exact fun _ => rfl

theorem segfault_tables {heap : HeapMemory} (resumed : { m with
      kernel := segfaulted m.kernel i p state heap
      history := m.history.recordKilled i (livingParent m.kernel.procs p) (sigchldTarget m.kernel.procs p p) }.resume
        (segfaulted m.kernel i p state heap) (interruptEnd fuel true (segfaulted m.kernel i p state heap)) = some m') :
    ∀ j, view m' j = view m j := by
  have pages : (segfaulted m.kernel i p state heap).procs.map paging = m.kernel.procs.map paging :=
    (segfaulted_map (fun _ => rfl) m.kernel i p state heap).trans
      ((map_modifyProc _ i killedBySegfault fun _ => rfl).trans (saveState_paging _ state))
  intro j
  have notified : view { m with
      kernel := segfaulted m.kernel i p state heap
      history := m.history.recordKilled i (livingParent m.kernel.procs p)
        (sigchldTarget m.kernel.procs p p) } j = view m j := by
    refine unchanged ?_ ?_ ?_ ?_ j
    · exact pages
    · rfl
    · cases sigchldTarget m.kernel.procs p p <;> rfl
    · cases sigchldTarget m.kernel.procs p p <;> rfl
  exact (resume_tables resumed rfl (fun after ended => (interruptEnd_switched ended).1) j).trans notified

theorem table_at (here : procs[i]? = some p) (user : p.type ≠ .kernel) : (pagingAt procs i).bind (tableOf place) =
      some (if place = .user then tables p.procState else tables p.syscallState) := by
  simp [pagingAt, here, tableOf, paging, user]

theorem goes_on_tables (place : Phase) (within : Within i m.kernel m'.kernel)
    (before : m.phase i ≠ .user ∧ m.phase i ≠ .done) (after : place ≠ .user) (phase : m'.phase = update m.phase i place)
    (granted : ∀ j, j ≠ i → m'.history.granted j = m.history.granted j)
    (returns : m'.history.returns = m.history.returns) : ∀ j, TableStep (view m j) (view m' j) := by
  refine inside_keeps within before.1 ?_ (fun done => absurd done before.2) ?_ granted returns
  · rwa [phase, update_self]
  · intro j other
    rw [phase, update_of_ne other]

section

variable (running : m.kernel.currentProc = some i)
include running

theorem signal_tables {action : Action}
    (step : SignalStep m i p action m') : ∀ j, TableStep (view m j) (view m' j) := by
  obtain ⟨place, quiet⟩ := step.quiet running
  refine goes_on_tables place ?_ quiet.before quiet.after.1 quiet.phase (fun _ _ => by rw [quiet.granted])
    quiet.returns
  rcases quiet.procs with ⟨-, frame⟩ | same
  · exact .of_frameOf frame fun _ => rfl
  · have seen := congrArg (List.map paging) same
    rw [List.map_map, List.map_map] at seen
    exact .of_paging seen

theorem callExit_tables (body : m.phase i = .body) : ∀ j, TableStep (view m j) (view (m.callExit i p) j) := by
  have logged : Within i m.kernel m.kernel.log := .mapPageZero running illegalPage
  refine goes_on_tables .marked (logged.trans (.modify _ _ _ ?_)) (by simp [body]) (by simp) rfl
    (fun _ _ => rfl) rfl
  exact fun _ => rfl

theorem exec_tables {answers : Answers} {child : Option Nat}
    (body : m.phase i = .body) (call : p.syscall = some .exec)
    (begun : execBegin m.kernel i p answers = .ok (k, child)) :
    ∀ j, TableStep (view m j) (view ((m.setKernel k).setPhase i (child.elim .done .loading)) j) := by
  have begins := (execBegin_frame running answers call).returned begun
  cases child with
  | none =>
    exact goes_on_tables .done (.of_frame begins) (by simp [body]) (by simp) rfl (fun _ _ => rfl) rfl
  | some child =>
    obtain ⟨-, k₁, new, frame, -, procs, -⟩ := begins
    have others : ∀ j, TableStep (view m j) (view ((m.setKernel k₁).setPhase i (.loading child)) j) :=
      goes_on_tables _ (.of_frame frame) (by simp [body]) (by simp) rfl (fun _ _ => rfl) rfl
    intro j
    by_cases small : j < k₁.procs.length
    · have same : pagingAt k.procs j = pagingAt k₁.procs j := by
        rw [pagingAt, procs, List.getElem?_append_left small, pagingAt]
      have equal : view ((m.setKernel k).setPhase i (.loading child)) j =
          view ((m.setKernel k₁).setPhase i (.loading child)) j := view_same same rfl rfl rfl
      exact equal ▸ others j
    · have absent : m.kernel.procs[j]? = none := by
        rw [List.getElem?_eq_none_iff, ← frame.length]
        exact not_lt.mp small
      refine .born ?_ rfl
      simp [view, pagingAt, absent]

end

theorem entry_eq {page : Word} (inside : 0 ≤ page.toInt ∧ page.toInt < 16) (bound : page.toInt.toNat < 16) :
    (⟨page.toInt.toNat, bound⟩ : Fin 16) = Fin.ofNat 16 page.toNat := by
  have value := BitVec.toInt_eq_toNat_cond page
  have small := page.isLt
  apply Fin.ext
  change page.toInt.toNat = page.toNat % 16
  split at value <;> omega

theorem processPgmap_tables (here : m.kernel.procs[i]? = some p) (mapped : processPgmap m.kernel i p = .ok k) :
    Within i m.kernel k ∨ ∃ e : Fin 16, e = Fin.ofNat 16 (p.syscallState.regs 1).toNat ∧
      (p.syscallState.memPages e = 0 ∨ p.syscallState.memPages e = unmappedPage) ∧
      k.pages.firstFreePage ≠ m.kernel.pages.firstFreePage ∧
      (∀ j, j ≠ i → pagingAt k.procs j = pagingAt m.kernel.procs j) ∧
      pagingAt k.procs i = some (p.type, tables p.procState,
        (update p.syscallState.memPages e m.kernel.pages.firstFreePage, p.syscallState.progPages)) := by
  unfold processPgmap at mapped
  dsimp only at mapped
  split at mapped
  · rename_i inside
    split at mapped
    · obtain rfl := Except.ok.inj mapped
      exact Or.inl (.modify _ _ _ fun _ => rfl)
    · rename_i unmapped
      obtain rfl := Except.ok.inj mapped
      rw [entry_eq inside] at unmapped ⊢
      refine Or.inr ⟨_, rfl, ?_, ?_, fun j other => ?_, ?_⟩
      · by_cases zero : p.syscallState.memPages (Fin.ofNat 16 (p.syscallState.regs 1).toNat) = 0
        · exact Or.inl zero
        · exact Or.inr (by_contra fun other => unmapped ⟨other, zero⟩)
      · change m.kernel.pages.firstFreePage + 1 ≠ m.kernel.pages.firstFreePage
        simp
      · simp only [pagingAt, KernelState.setReg]
        rw [modifyProc_of_ne _ _ _ other]
        exact congrArg (Option.map paging) (modifyProc_of_ne m.kernel i _ other)
      · simp only [pagingAt, KernelState.setReg, modifyProc_self]
        rw [here]
        rfl
  · obtain rfl := Except.ok.inj mapped
    exact Or.inl (.modify _ _ _ fun _ => rfl)

theorem signalHandlerReturn_within {k' : KernelState} (running : k.currentProc = some i) (here : k.procs[i]? = some p)
    (intact : (savedFrame k.phys p).drop tableOffset = p.syscallState.bytes.drop tableOffset)
    (restored : signalHandlerReturn k i = .ok k') : Within i k k' := by
  unfold signalHandlerReturn at restored
  rw [here] at restored
  dsimp only at restored
  split at restored
  · cases restored
  · obtain rfl := Except.ok.inj restored
    have kept := copyState_tables k.currentPageZero intact
    set page := (copyState k.phys sizeofProcState p.syscallState.bytes 0
      (p.syscallState.regs 5 + BitVec.ofNat 16 sizeofSignal + 2) (BitVec.ofNat 16 sizeofProcState)
      k.currentPageZero).2
    obtain ⟨s, there⟩ := mapPageZero_at here page
    refine (Within.mapPageZero running page).trans (.modify_at there ?_)
    exact congrArg (Prod.mk p.type) kept

theorem finished_tables (body : m.phase i = .body) (within : Within i m.kernel k) (granted : Option (Fin 16 × Word)) :
    ∀ j, TableStep (view m j)
      (view ({ m with kernel := k, history := m.history.recordGrant i granted }.setPhase i .done) j) :=
  goes_on_tables .done within (by simp [body]) (by simp) rfl (fun _ other => update_of_ne other _ _)
    rfl

theorem pgmap_tables (here : m.kernel.procs[i]? = some p) (body : m.phase i = .body)
    (user : p.type ≠ .kernel) (call : p.syscall = some .pgmap) (mapped : processPgmap m.kernel i p = .ok k) :
    ∀ j, TableStep (view m j) (view ({ m with
      kernel := k
      history := m.history.recordGrant i (pgmapGrant p m.kernel.pages k.pages) }.setPhase i .done) j) := by
  rcases processPgmap_tables here mapped with within | ⟨e, entry, unmapped, moved, others, own⟩
  · exact finished_tables body within _
  · intro j
    by_cases self : j = i
    · subst self
      refine .grants (tables p.syscallState) e m.kernel.pages.firstFreePage ?_ ?_ unmapped ?_ ?_ ?_ rfl
      · simp [view, body]
      · simp only [view, body]
        exact table_at here user
      · simp [view, Machine.setPhase, own, tableOf, user, tables]
      · simp [view, Machine.setPhase, History.recordGrant, pgmapGrant, call, moved, entry]
      · simp [view, Machine.setPhase]
    · refine .of_eq (view_same (others j self) ?_ ?_ rfl)
      · exact update_of_ne self _ _
      · exact update_of_ne self _ _

theorem serve_tables {answers : Answers} (running : m.kernel.currentProc = some i)
    (here : m.kernel.procs[i]? = some p) (body : m.phase i = .body) (user : p.type ≠ .kernel)
    (intact : p.syscall = some .sighdlrret →
      (savedFrame m.kernel.phys p).drop tableOffset = p.syscallState.bytes.drop tableOffset)
    (apart : p.syscall ≠ some .sigsend ∧ p.syscall ≠ some .sigwait ∧ p.syscall ≠ some .exit ∧
      p.syscall ≠ some .exec) (served : processSyscall m.kernel i p answers = .ok k) :
    ∀ j, TableStep (view m j) (view ({ m with
      kernel := k
      history := m.history.recordGrant i (pgmapGrant p m.kernel.pages k.pages) }.setPhase i .done) j) := by
  by_cases pgmap : p.syscall = some .pgmap
  · have mapped : processPgmap m.kernel i p = .ok k := by simpa only [processSyscall, pgmap] using served
    exact pgmap_tables here body user pgmap mapped
  by_cases sighdlrret : p.syscall = some .sighdlrret
  · have restored : signalHandlerReturn m.kernel i = .ok k := by
      simpa only [processSyscall, sighdlrret] using served
    exact finished_tables body (signalHandlerReturn_within running here (intact sighdlrret) restored) _
  have ordinary : Ordinary p.syscall := by
    unfold Ordinary
    split <;> simp_all
  exact finished_tables body (.of_frame ((processSyscall_frame running answers ordinary).returned served)) _

theorem saveState_tables (here : m.kernel.procs[i]? = some p) (state : IntHandlerState) :
    ∃ s, (saveState m.kernel state).procs[i]? = some { p with procState := s } ∧
      tables s = tables p.procState := by
  obtain ⟨s, saved⟩ := saveState_at here state
  refine ⟨s, saved, ?_⟩
  have same := pagingAt_map (saveState_paging m.kernel state) i
  rw [pagingAt, saved, pagingAt, here] at same
  exact congrArg (fun pages => pages.2.1) (Option.some.inj same)

theorem trap_tables (running : m.kernel.currentProc = some i) (here : m.kernel.procs[i]? = some p)
    (state : IntHandlerState) (place : m.phase i = .user) (user : p.type ≠ .kernel) : ∀ j, TableStep (view m j)
      (view ((m.setKernel (intSysCallEnter (countTick (saveState m.kernel state) state) i)).setPhase i .body) j) := by
  obtain ⟨s, saved, same⟩ := saveState_tables here state
  set k := countTick (saveState m.kernel state) state with counted
  have pages : k.procs.map paging = m.kernel.procs.map paging := by
    rw [counted, countTick_procs, saveState_paging]
  rw [← countTick_procs _ state, ← counted] at saved
  set entered : KernelState := { k.modifyProc i enterSyscall with intNoProcModify := false } with enters
  have current : entered.currentProc = some i := by simp [enters, counted, running]
  have logged : Within i entered (intSysCallEnter k i) := Within.mapPageZero current illegalPage
  intro j
  by_cases own : j = i
  · subst own
    have there : entered.procs[j]? = some (enterSyscall { p with procState := s }) := by
      rw [show entered.procs[j]? = _ from modifyProc_self k j enterSyscall, saved]
      rfl
    refine .keeps ?_ rfl (by simp [view, place])
    have before : (view m j).table = some (tables p.procState) := by
      simp only [view, place]
      exact table_at here user
    have inside : Phase.body ≠ .user := by simp
    rw [before, ← same]
    simp only [view, Machine.setPhase, Machine.setKernel, update_self]
    rw [table_inner inside, logged.inner, ← table_inner inside]
    exact table_at there user
  · refine .of_eq (view_same ?_ ?_ rfl rfl)
    · refine (logged.others j own).trans (Eq.trans ?_ (pagingAt_map pages j))
      exact congrArg (Option.map paging) (modifyProc_of_ne k i enterSyscall own)
    · exact update_of_ne own _ _

theorem load_tables {loaded : Loaded} {child : Nat} (stand : Stands m) (running : m.kernel.currentProc = some i)
    (here : m.kernel.procs[i]? = some p) (place : m.phase i = .loading child) :
    ∀ j, TableStep (view m j) (view ({ m with
      kernel := execFinish m.kernel i p child loaded
      history := m.history.recordStart child loaded }.setPhase i .done) j) := by
  obtain ⟨c, made, -, home, user, other⟩ := stand.child here running place
  have regs : (execFinish m.kernel i p child loaded).procs.map paging =
      (m.kernel.modifyProc child (loadChild p.pid loaded)).procs.map paging :=
    map_modifyProc _ _ _ fun _ => rfl
  have others : ∀ j, j ≠ child → pagingAt (execFinish m.kernel i p child loaded).procs j =
      pagingAt m.kernel.procs j := by
    intro j other
    rw [pagingAt_map regs, pagingAt, modifyProc_of_ne _ _ _ other, pagingAt]
  intro j
  by_cases new : j = child
  · subst new
    have there : (m.kernel.modifyProc j (loadChild p.pid loaded)).procs[j]? =
        some (loadChild p.pid loaded c) := by
      rw [modifyProc_self, made]
      rfl
    refine .starts (loaded.memPages, loaded.progPages) ?_ ?_
    · simp only [view, Machine.setPhase, update_of_ne other, home]
      rw [pagingAt_map regs]
      exact table_at there user
    · simp [view, Machine.setPhase, History.recordStart]
  · have returns : (m.history.recordStart child loaded).returns j = m.history.returns j :=
      update_of_ne new _ _
    by_cases own : j = i
    · subst own
      refine .keeps ?_ returns (by simp [view, place])
      have before : m.phase j ≠ .user := by simp [place]
      have after : Phase.done ≠ .user := by simp
      simp only [view, Machine.setPhase, update_self]
      rw [others j new, table_inner before, table_inner after]
    · exact .of_eq (view_same (others j new) (update_of_ne own _ _) rfl returns)

section

variable (silent : k.intNoProcModify = true)
include silent

theorem mapPageZero_silent (page : Word) : k.mapPageZero page = k := by
  simp [KernelState.mapPageZero, silent]

theorem memcpyToUserspace_silent (q : Proc)
    (ubuff : Word) (kbuff : List Byte) (size : Word) : (memcpyToUserspace k q ubuff kbuff size).procs = k.procs ∧
      (memcpyToUserspace k q ubuff kbuff size).intNoProcModify = true := by
  have turns : ∀ chunks : List UserChunk, chunks.foldl (fun k c => k.mapPageZero c.page) k = k := by
    intro chunks
    induction chunks with
    | nil => rfl
    | cons c chunks ih => rw [List.foldl_cons, mapPageZero_silent silent, ih]
  simp [memcpyToUserspace, KernelState.afterChunks, turns, mapPageZero_silent silent, silent]

theorem signalHandlerEnter_tables
    (there : k.procs[i]? = some q) (signal : Signal) : Ensures (signalHandlerEnter k i signal)
      (fun k' => k'.procs.map paging = k.procs.map paging) fun _ => True := by
  unfold signalHandlerEnter
  rw [there]
  dsimp only
  split
  · exact Ensures.error trivial
  split
  · exact Ensures.error trivial
  · apply Ensures.ok
    obtain ⟨first, silent₁⟩ := memcpyToUserspace_silent silent q
      (q.procState.regs 7 - 4 - BitVec.ofNat 16 sizeofProcState + 2) q.procState.bytes
      (BitVec.ofNat 16 sizeofProcState)
    refine (map_modifyProc _ _ _ ?_).trans ?_
    · exact fun _ => rfl
    · rw [(memcpyToUserspace_silent silent₁ ..).1, first]

theorem deliverSignal_tables (there : k.procs[i]? = some q) :
    Ensures (deliverSignal k i q) (fun k' => k'.procs.map paging = k.procs.map paging) fun _ => True := by
  unfold deliverSignal
  split
  · exact Ensures.ok rfl
  · refine Ensures.bind (signalHandlerEnter_tables silent there _) fun k' same => ?_
    split
    · exact Ensures.error trivial
    · refine Ensures.ok ((map_modifyProc _ _ _ ?_).trans same)
      exact fun _ => rfl

end

theorem intSysCallLeave_tables (running : k.currentProc = some i) (here : k.procs[i]? = some p) :
    Ensures (intSysCallLeave k i) (fun k' => (∀ j, j ≠ i → pagingAt k'.procs j = pagingAt k.procs j) ∧
        ∃ q, k'.procs[i]? = some q ∧ q.type = p.type ∧ tables q.procState = tables p.syscallState) fun _ => True := by
  have conclude : ∀ k' : KernelState, k'.procs.map paging = (userRestored k i).procs.map paging →
      (∀ j, j ≠ i → pagingAt k'.procs j = pagingAt k.procs j) ∧
        ∃ q, k'.procs[i]? = some q ∧ q.type = p.type ∧ tables q.procState = tables p.syscallState := by
    intro k' same
    refine ⟨fun j other => ?_, ?_⟩
    · rw [pagingAt_map same, userRestored, pagingAt, modifyProc_of_ne _ _ _ other]
      exact (Within.mapPageZero running illegalPage).others j other
    · have own := pagingAt_map same i
      rw [pagingAt, pagingAt, userRestored_at here] at own
      obtain ⟨q, there, equal⟩ := Option.map_eq_some_iff.mp own
      exact ⟨q, there, congrArg Prod.fst equal, congrArg (fun pages => pages.2.1) equal⟩
  have ends := fun k' : KernelState => map_modifyProc k' i toRunnable (π := paging) fun _ => rfl
  rw [intSysCallLeave_eq here]
  cases signalPending p with
  | false => exact Ensures.ok (conclude _ (ends _))
  | true =>
    refine Ensures.bind (deliverSignal_tables rfl (userRestored_at here)) fun k' same => ?_
    exact Ensures.ok (conclude _ ((ends k').trans same))

theorem finish_tables (running : m.kernel.currentProc = some i) (place : m.phase i = .done)
    (resumed : m.resume m.kernel.log (intSysCallSwitch fuel m.kernel) = some m') :
    ∀ j, TableStep (view m j) (view m' j) := by
  rcases resume_cases resumed with ⟨after, result, rfl⟩ | ⟨stop, -, rfl⟩
  · obtain ⟨switched, -⟩ := intSysCallSwitch_switched result
    have logged : Within i m.kernel m.kernel.log := .mapPageZero running illegalPage
    exact inside_keeps (logged.trans (.of_paging (switched.map (fun _ _ => rfl) fun _ => rfl)))
      (by simp [place]) (by simp [place]) (fun done => ⟨done, rfl⟩) (fun _ _ => rfl) (fun _ _ => rfl) rfl
  · exact fun j => .of_eq rfl

theorem leave_tables (stand : Stands m) (running : m.kernel.currentProc = some i)
    (here : m.kernel.procs[i]? = some p) (place : m.phase i = .done) (left : intSysCallLeave m.kernel i = .ok k)
    (taken : List Signal) :
    ∀ j, TableStep (view m j) (view ({ m with
      kernel := k
      history := (m.history.recordReturn i ((k.procs[i]?).getD p).procState).recordTaken i taken }.setPhase i
        .user) j) := by
  have user : p.type ≠ .kernel := by
    have fits := stand.fits i p here
    rw [place] at fits
    exact fits.1
  obtain ⟨others, q, there, type, same⟩ := (intSysCallLeave_tables running here).returned left
  intro j
  by_cases own : j = i
  · subst own
    refine .returns (tables p.syscallState) place ?_ ?_ ?_
    · simp only [view, place]
      exact table_at here user
    · simp only [view, Machine.setPhase, update_self]
      rw [table_at there (by rwa [type]), if_pos rfl, same]
    · have pages : (q.procState.memPages, q.procState.progPages) = tables p.syscallState := same
      simp [view, Machine.setPhase, History.recordReturn, History.recordTaken, there, ← pages]
  · refine .of_eq (view_same (others j own) (update_of_ne own _ _) ?_ ?_)
    · simp [Machine.setPhase, History.recordReturn, History.recordTaken, own]
    · simp [Machine.setPhase, History.recordReturn, History.recordTaken, own]

theorem pageZero_tables (stand : Stands m) (running : m.kernel.currentProc = some i)
    (here : m.kernel.procs[i]? = some p) (inside : inKernel p = true) (page : Word) :
    ∀ j, TableStep (view m j) (view (m.setKernel (m.kernel.mapPageZero page)) j) := by
  have mapped : Within i m.kernel (m.kernel.mapPageZero page) := .mapPageZero running page
  by_cases home : m.phase i = .user
  · have kernel : p.type = .kernel := by
      have fits := stand.fits i p here
      rw [home] at fits
      cases kind : p.type <;> cases state : p.state <;> simp_all [Fits, inKernel]
    obtain ⟨s, there⟩ := mapPageZero_at here page
    intro j
    by_cases own : j = i
    · subst own
      refine .keeps ?_ rfl fun done => ⟨done, rfl⟩
      simp [view, Machine.setKernel, pagingAt, here, there, tableOf, paging, kernel]
    · exact .of_eq (view_same (mapped.others j own) rfl rfl rfl)
  · exact inside_keeps mapped home home (fun done => ⟨done, rfl⟩) (fun _ _ => rfl) (fun _ _ => rfl) rfl

end

variable {action : Action} {m m' : Machine}

theorem step_tables (stand : Stands m) (intact : Intact m action)
    (taken : m.step action = some m') : ∀ j, TableStep (view m j) (view m' j) := by
  cases (step_cases taken).2 with
  | irq state fuel _ served => exact fun j => .of_eq (irq_tables served j)
  | others semas heap => exact fun j => .of_eq rfl
  | own i p _ _ running here does =>
    cases does with
    | user | stop => exact fun j => .of_eq rfl
    | trap state place outside =>
      refine trap_tables running here state place fun kernel => ?_
      simp [inKernel, kernel] at outside
    | signal _ _ step => exact signal_tables running step
    | exit answers place call => exact callExit_tables running place
    | exec answers k child place call begun => exact exec_tables running place call begun
    | serve answers k place apart served =>
      have user := (in_call stand running here (Or.inl place)).1
      exact serve_tables running here place user (intact i running p here).2 apart served
    | load loaded child place => exact load_tables stand running here place
    | finish fuel _ place dead resumed => exact finish_tables running place resumed
    | leave fuel k place alive left => exact leave_tables stand running here place left _
    | sleep sema state fuel _ inside place resumed => exact fun j => .of_eq (sleep_tables resumed j)
    | segfault state fuel heap _ place outside room resumed => exact fun j => .of_eq (segfault_tables resumed j)
    | pageZero page inside => exact pageZero_tables stand running here inside page

def InBounds (m : Machine) : Prop := m.halted ≠ some .outOfBounds

section

variable {m m' : Machine} {i : Nat} {p : Proc} {stop : Stop}

theorem inBounds_of_goes (goes : m'.halted = none) : InBounds m' := by
  simp [InBounds, goes]

theorem inBounds_halt (other : stop ≠ .outOfBounds) : InBounds (m.halt stop) :=
  fun halted => other (Option.some.inj halted)

theorem resume_inBounds {before : KernelState} {x : Option (Except Stop KernelState)}
    (goes : m.halted = none) (resumed : m.resume before x = some m')
    (faults : ∀ stop, x = some (.error stop) → ResumeFault stop) : InBounds m' := by
  rcases resume_cases resumed with ⟨after, -, rfl⟩ | ⟨stop, result, rfl⟩
  · exact inBounds_of_goes goes
  · apply inBounds_halt
    rcases faults stop result with rfl | rfl | rfl <;> simp

theorem Faults.inBounds {action : Action} (running : m.kernel.currentProc = some i)
    (here : m.kernel.procs[i]? = some p) (inside : ∀ answers, action = .call answers → ¬ Overruns p answers)
    (fault : Faults m i p action stop) : stop ≠ .outOfBounds := by
  have callFault : ∀ answers, action = .call answers → CallFault p answers stop → stop ≠ .outOfBounds := by
    rintro answers called fault rfl
    exact inside answers called fault
  cases fault with
  | exec answers _ _ call failed => exact callFault answers rfl ((execBegin_frame running answers call).failed failed)
  | serve answers _ _ apart failed =>
    rcases (processSyscall_shade answers running apart).failed failed with fault | rfl | rfl
    · exact callFault answers rfl fault
    · simp
    · simp
  | wait place empty => simp
  | leave fuel _ place alive failed =>
    obtain ⟨-, ⟨-, rfl⟩ | rfl | rfl | rfl⟩ := (intSysCallLeave_map shaded_shade here).failed failed <;> simp
  | segfault => simp
  | notice _ _ _ _ _ full => simp [noticeHeap_error full]
  | append _ _ _ _ full => simp [signalBlocks_error full]

end

theorem step_inBounds (intact : Intact m action) (taken : m.step action = some m') : InBounds m' := by
  obtain ⟨goes, steps⟩ := step_cases taken
  cases steps with
  | irq state fuel _ served => exact resume_inBounds goes served fun _ failed => interruptEnd_fault failed
  | others semas heap => exact inBounds_of_goes goes
  | own i p _ _ running here does =>
    cases does with
    | signal _ _ step =>
      obtain ⟨place, quiet⟩ := step.quiet running
      exact inBounds_of_goes (quiet.halted.trans goes)
    | finish fuel _ place dead resumed =>
      exact resume_inBounds goes resumed fun _ failed => intSysCallSwitch_fault failed
    | sleep sema state fuel _ inside place resumed =>
      exact resume_inBounds goes resumed fun _ failed => interruptEnd_fault failed
    | segfault state fuel heap _ place outside room resumed =>
      refine resume_inBounds ?_ resumed fun _ failed => interruptEnd_fault failed
      exact goes
    | stop _ stop fault =>
      refine inBounds_halt (Faults.inBounds running here ?_ fault)
      rintro answers rfl
      exact (intact i running p here).1
    | _ => exact inBounds_of_goes goes

/-- No access was behind the end of an array. From one return to user mode to the next, the tables of a process
change only by what `SYS_PGMAP` grants. -/
def TablesKept (m : Machine) : Prop :=
  InBounds m ∧ ∀ (j : Nat) (p : Proc), m.kernel.procs[j]? = some p → p.type ≠ .kernel →
    (m.history.returns j).IsChain Keeps ∧
      (m.phase j = .user → ∀ last ∈ (m.history.returns j).head?,
        p.procState.memPages = last.memPages ∧ p.procState.progPages = last.progPages)

structure TableInv (m : Machine) : Prop where
  stand : m.halted = none → Stands m
  bounds : InBounds m
  sound : ∀ j, (view m j).Sound

theorem TableInv.tablesKept (inv : TableInv m) : TablesKept m := by
  refine ⟨inv.bounds, fun j p here user => ?_⟩
  obtain ⟨chain, latest⟩ := (inv.sound j).kept _ (table_at here user)
  refine ⟨chain, fun home last member => ?_⟩
  have same := (latest last member).2 (by simp [view, home])
  rwa [if_pos home] at same

theorem step_tableInv (inv : TableInv m) (intact : Intact m action)
    (taken : m.step action = some m') : TableInv m' := by
  have stand := inv.stand (step_cases taken).1
  exact ⟨step_stands stand taken, step_inBounds intact taken,
    fun j => (step_tables stand intact taken j).sound (inv.sound j)⟩

theorem start_tables (k : KernelState) (j : Nat) : (view (Machine.start k) j).Sound := by
  cases here : k.procs[j]? with
  | none =>
    have empty : (view (Machine.start k) j).returns = [] := by simp [view, Machine.start, here]
    have absent : (view (Machine.start k) j).table = none := by
      simp [view, Machine.start, pagingAt, here]
    exact ⟨fun _ => empty, fun t table => by rw [absent] at table; cases table⟩
  | some p =>
    by_cases kernel : p.type = .kernel
    · have empty : (view (Machine.start k) j).returns = [] := by
        simp [view, Machine.start, here, kernel, Option.filter]
      have absent : (view (Machine.start k) j).table = none := by
        simp [view, Machine.start, pagingAt, here, tableOf, paging, kernel]
      exact ⟨fun _ => empty, fun t table => by rw [absent] at table; cases table⟩
    · have first : (view (Machine.start k) j).returns =
          [⟨p.procState.memPages, p.procState.progPages, none⟩] := by
        simp [view, Machine.start, here, kernel, Option.filter]
      refine .latest (table_at here kernel) first ?_
      rw [first]
      exact List.isChain_singleton _

def oneProgram : KernelState := runningFirst [userProc 1 0 0x211]

def handlerRegs (fp : Word) : IntHandlerState :=
  { userRegs Syscall.sighdlrret.number 0 0 0 false with
    regs := update (userRegs Syscall.sighdlrret.number 0 0 0 false).regs 5 fp }

def handledSignal : List Action :=
  wholeCall .pgmap 3 0 0 ++ wholeCall .sigaction 0x40 0 0 ++
    [.trap (userRegs Syscall.sigsend.number 0xffff 7 9 false), .call (.refusing fun _ _ => 0), .proceed,
      .proceed, .leave 0, .trap (handlerRegs 0xffa2), .call (.refusing fun _ _ => 0), .leave 0]

def forgedState : ProcState where
  regs := fun r => if r = 7 then 0xff5c else 0
  pc := 0
  arithFlags := 0
  memPages := fun e => if e = 15 then 0x211 else if e = 1 then 0x200 else unmappedPage
  progPages := fun _ => unmappedPage

def forgedMemory : PhysMem := writePage (fun _ _ => 0) 0x211 0xf06 forgedState.bytes

def forgedReturn : List Action :=
  [.user forgedMemory, .trap (handlerRegs 0xff00), .call (.refusing forgedMemory), .leave 0]

end PiOS.Proof.Tables
