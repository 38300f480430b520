import PiOS.Kernel.Driver.KbdList
import PiOS.Proof.Lists
import PiOS.Proof.ReadPending

namespace PiOS.Proof.KbdList
open Kernel Memory Transition Function Proof.Reads Proof.Lists

variable {ι : Type}

/-- The memory of the list is `l`, but for what an unfinished `list_append` or `list_remove` has stored. -/
inductive Amid (s : KbdReads ι) (l : LinkedLists Unit Request) (q : List (Nat × Request)) : Prop
  | idle (nodes : s.nodes = l) (outside : ∀ i, s.newNode i = none) (removing : s.removing = none)
  | append (i : ι) (n : Nat) (r : Request) (nodes : s.nodes = l.fillNode () r n) (mine : s.newNode i = some n)
      (others : ∀ j, j ≠ i → s.newNode j = none) (removing : s.removing = none) (place : s.reads.place i = .append r)
      (new : n ∉ q.map Prod.fst) (used : s.used n = true)
  | remove (n : Nat) (r : Request) (rest : List (Nat × Request)) (got : List Byte) (nodes : s.nodes = l.unlinkBack () n)
      (outside : ∀ i, s.newNode i = none) (removing : s.removing = some n) (server : s.reads.server = .remove r got)
      (first : q = (n, r) :: rest)

structure Threaded (s : KbdReads ι) (l : LinkedLists Unit Request) (q : List (Nat × Request)) : Prop where
  represents : Represents l fun _ => q
  list : q.map Prod.snd = s.reads.shared.list
  used : ∀ n ∈ q.map Prod.fst, s.used n = true
  amid : Amid s l q

structure Kept (s : KbdReads ι) : Prop where
  accounted : Accounted .kbd s.reads
  threaded : ∃ l q, Threaded s l q

def atRemove : ServerPlace → Bool
  | .remove _ _ => true
  | _ => false

def KbdFits (s : KbdReads ι) : KbdReadAction ι → Prop
  | .kmalloc _ _ => True
  | .read a => Fits s.reads a

/-- `list_append` and `list_remove` do not overlap. -/
def Separate (s : KbdReads ι) : KbdReadAction ι → Prop
  | .kmalloc _ _ => s.removing = none
  | .read .server => atRemove s.reads.server = true → ∀ i, s.newNode i = none
  | .read _ => True

variable {s s' : KbdReads ι} {l : LinkedLists Unit Request} {q : List (Nat × Request)} {i : ι}
  {reads : ReadState ι}

theorem Threaded.follows (threaded : Threaded s l q) (list : reads.shared.list = s.reads.shared.list)
    (places : ∀ i r, s.reads.place i = .append r → reads.place i = .append r)
    (server : ∀ r got, s.reads.server = .remove r got → reads.server = .remove r got) :
    Threaded { s with reads := reads } l q := by
  refine ⟨threaded.represents, threaded.list.trans list.symm, threaded.used, ?_⟩
  cases threaded.amid with
  | idle nodes outside removing => exact .idle nodes outside removing
  | append i n r nodes mine others removing place new used =>
    exact .append i n r nodes mine others removing (places i r place) new used
  | remove n r rest got nodes outside removing here first =>
    exact .remove n r rest got nodes outside removing (server r got here) first

theorem Kept.halt (kept : Kept s) {stop : Stop} (other : stop ≠ blockedAssert) : Kept (s.halt stop) := by
  obtain ⟨accounted, l, q, threaded⟩ := kept
  refine ⟨?_, l, q, threaded.follows rfl (fun _ _ same => same) fun _ _ same => same⟩
  exact ⟨accounted.stocked, accounted.mutex, accounted.account, accounted.passed, fun same => other (Option.some.inj same)⟩

theorem Threaded.idle (threaded : Threaded s l q) (removing : s.removing = none) (outside : ∀ i, s.newNode i = none) :
    s.nodes = l := by
  cases threaded.amid with
  | idle nodes => exact nodes
  | append i n r nodes mine =>
    rw [outside i] at mine
    cases mine
  | remove n r rest got nodes _ inside =>
    rw [removing] at inside
    cases inside

/-- Only the holder of the lock is in `list_append`. -/
theorem alone (accounted : Accounted .kbd s.reads) (threaded : Threaded s l q) {r : Request}
    (here : s.reads.place i = .append r) (j : ι) (other : j ≠ i) : s.newNode j = none := by
  cases threaded.amid with
  | idle _ outside => exact outside j
  | remove _ _ _ _ _ outside => exact outside j
  | append i' n r' _ _ others _ place =>
    refine others j fun same => ?_
    have inside : readerInside (s.reads.place i) = true := by rw [here]; rfl
    have away := (accounted.apart inside).2 j other
    rw [same, place] at away
    cases away

theorem submits_list {s s' : Kernel.Reads} {place place' : ReaderPlace} (submits : Submits s place s' place')
    (other : ∀ r, place ≠ .append r) : s'.list = s.list := by
  cases submits with
  | append r => exact absurd rfl (other r)
  | _ => rfl

theorem serves_list {d : ReadDevice} {s s' : Kernel.Reads} {server server' : ServerPlace}
    (serves : Serves d s server s' server') (other : ∀ r got, server ≠ .remove r got) : s'.list = s.list := by
  cases serves with
  | remove r r' got rest first => exact absurd rfl (other r got)
  | _ => rfl

theorem whole_kbd (s : ReadState ι) (a : ReadAction ι) : Whole .kbd s a := by
  cases a with
  | server => exact fun _ _ _ _ _ _ => rfl
  | _ => trivial

theorem withFirst_kept {move : Nat → KbdReads ι} (kept : Kept s)
    (moved : ∀ n, s.nodes.first () = some n → Kept (move n)) : Kept (s.withFirst move) := by
  unfold KbdReads.withFirst
  cases first : s.nodes.first () with
  | none => exact kept.halt (by decide)
  | some n => exact moved n first

theorem head_of_first {n : Nat} (represents : Represents l fun _ => q) (first : l.first () = some n) :
    ∃ rest, q = (n, l.val n) :: rest := by
  have head := (represents.forward ()).head_eq
  rw [first] at head
  cases q with
  | nil => cases head
  | cons e q =>
    obtain rfl : n = e.1 := Option.some.inj head
    refine ⟨q, ?_⟩
    rw [represents.values () e List.mem_cons_self]

theorem Threaded.first {n : Nat} (threaded : Threaded s l q) (first : s.nodes.first () = some n)
    (other : ∀ r got, s.reads.server ≠ .remove r got) :
    ∃ rest, s.reads.shared.list = s.nodes.val n :: rest := by
  rw [← threaded.list]
  cases threaded.amid with
  | idle nodes =>
    rw [nodes] at first ⊢
    obtain ⟨rest, rfl⟩ := head_of_first threaded.represents first
    exact ⟨_, rfl⟩
  | append i n' r nodes _ _ _ _ new =>
    rw [nodes] at first ⊢
    obtain ⟨rest, rfl⟩ := head_of_first threaded.represents first
    have apart : n ≠ n' := fun same => new (same ▸ List.mem_cons_self)
    exact ⟨_, congrArg (· :: _) (update_of_ne apart ..).symm⟩
  | remove _ r _ got _ _ _ server => exact absurd server (other r got)

theorem first_served {r : Request} {got : List Byte} (accounted : Accounted .kbd s.reads)
    (here : s.reads.server = .remove r got) : ∃ rest, s.reads.shared.list = r :: rest := by
  obtain ⟨extra, -, balanced⟩ := accounted.account
  have serving := balanced.serving
  rw [here] at serving
  obtain ⟨⟨r', rest, list, same⟩, -⟩ := serving
  exact ⟨rest, by rw [list]; exact congrArg (· :: rest) same.symm⟩

structure NeverSleeps (s : ReadState ι) : Prop where
  pending : PendingSum s
  ready : ∀ r, s.server = .test r → r.wantsWouldblock = true → 0 < s.shared.ring.rb.length
  awake : ∀ r, s.server = .sleep r → r.wantsWouldblock = false

theorem neverSleeps_of_accounted {s : ReadState ι} (accounted : Accounted .kbd s) : NeverSleeps s := by
  obtain ⟨extra, flight, balanced⟩ := accounted.account
  have serving := balanced.serving
  refine ⟨accounted.pendingSum, fun r here wants => ?_, fun r here => ?_⟩
  · rw [here] at serving
    exact found serving.1 serving.2 wants
  · rw [here] at serving
    exact serving.2.1

variable [DecidableEq ι] {a : ReadAction ι}

theorem allocate_kept {newNode : Option Nat} (kept : Kept s) (quiet : s.removing = none)
    (taken : s.allocate i newNode = some s') : Kept s' := by
  unfold KbdReads.allocate at taken
  split at taken
  · cases taken
    exact kept.halt (by decide)
  · rename_i r n here outside
    split at taken
    · cases taken
    · rename_i free
      cases taken
      obtain ⟨accounted, l, q, threaded⟩ := kept
      have others := alone accounted threaded here
      have idle : ∀ j, s.newNode j = none := fun j => by
        by_cases same : j = i
        · rw [same, outside]
        · exact others j same
      have nodes := threaded.idle quiet idle
      have new : n ∉ q.map Prod.fst := fun member => free (threaded.used n member)
      refine ⟨accounted, l, q, threaded.represents, threaded.list, fun m member => ?_, ?_⟩
      · exact (update_of_ne (ne_of_mem_of_not_mem member new) ..).trans (threaded.used m member)
      · refine .append i n r (by rw [nodes]) (update_self ..) (fun j other => ?_) quiet here new (update_self ..)
        exact (update_of_ne other ..).trans (others j other)
  · cases taken

theorem read_kept (kept : Kept s) (fits : Fits s.reads a) (next : ∀ i r, a = .next i → s.reads.place i ≠ .append r)
    (server : a = .server → ∀ r got, s.reads.server ≠ .remove r got) (taken : s.read a = some s') : Kept s' := by
  obtain ⟨reads, stepped, rfl⟩ := Option.map_eq_some_iff.1 taken
  obtain ⟨accounted, l, q, threaded⟩ := kept
  have moves := readStep_moves stepped
  refine ⟨moves.accounted accounted fits (whole_kbd s.reads a), l, q, ?_⟩
  cases moves with
  | submit i pid type size flags r outside =>
    refine threaded.follows rfl (fun j r' here => (update_of_ne ?_ ..).trans here) fun _ _ same => same
    rintro rfl
    rw [outside] at here
    cases here
  | next i shared place submits =>
    refine threaded.follows (submits_list submits fun r => next i r rfl) (fun j r here => (update_of_ne ?_ ..).trans here)
      fun _ _ same => same
    rintro rfl
    exact next _ r rfl here
  | server shared place serves =>
    exact threaded.follows (serves_list serves (server rfl)) (fun _ _ same => same)
      fun r got here => absurd here (server rfl r got)
  | input | halt => exact threaded.follows rfl (fun _ _ same => same) fun _ _ same => same

theorem submitNext_kept (kept : Kept s) (fits : Fits s.reads (.next i)) (taken : s.submitNext i = some s') :
    Kept s' := by
  unfold KbdReads.submitNext at taken
  split at taken
  · rename_i r here
    obtain ⟨n, mine, rfl⟩ := Option.map_eq_some_iff.1 taken
    obtain ⟨accounted, l, q, threaded⟩ := kept
    cases threaded.amid with
    | idle _ outside | remove _ _ _ _ _ outside =>
      rw [outside i] at mine
      cases mine
    | append i' n' r' nodes mine' others' removing place new used =>
      obtain rfl : i = i' := by
        by_contra other
        rw [others' i other] at mine
        cases mine
      obtain rfl : n' = n := Option.some.inj (mine'.symm.trans mine)
      obtain rfl : r' = r := ReaderPlace.append.inj (place.symm.trans here)
      obtain ⟨l', linked, represents⟩ := threaded.represents.append (l := ()) r' fun _ => new
      rw [update_eq_const_of_subsingleton] at represents
      rw [nodes, show (l.fillNode () r' n').linkNode () n' = .ok l' from linked]
      have moves : Moves .kbd s.reads (.next i) (s.linked i r') := .next i _ _ (here ▸ .append r')
      refine ⟨moves.accounted accounted fits trivial, l', q ++ [(n', r')], represents, ?_, ?_, .idle rfl ?_ removing⟩
      · rw [List.map_append, threaded.list]
        rfl
      · intro m member
        rw [List.map_append] at member
        rcases List.mem_append.1 member with old | own
        · exact threaded.used m old
        · rw [List.mem_singleton.1 own]
          exact used
      · intro j
        by_cases same : j = i
        · rw [same]
          exact update_self ..
        · exact (update_of_ne same ..).trans (others' j same)
  · rename_i other
    refine read_kept kept fits ?_ nofun taken
    rintro j r ⟨⟩
    exact other r

theorem first_kept {n : Nat} (kept : Kept s) (here : s.reads.server = .first) (first : s.nodes.first () = some n) :
    Kept { s with reads := { s.reads with server := .test (s.nodes.val n) } } := by
  obtain ⟨accounted, l, q, threaded⟩ := kept
  obtain ⟨rest, list⟩ := threaded.first first (by rw [here]; exact nofun)
  have moves : Moves .kbd s.reads .server { s.reads with server := .test (s.nodes.val n) } :=
    .server _ _ (here ▸ .first _ rest list)
  refine ⟨moves.accounted accounted trivial (whole_kbd _ _), l, q, threaded.follows rfl (fun _ _ same => same) ?_⟩
  rw [here]
  exact nofun

section Remove

variable {r : Request} {got : List Byte} {n : Nat}

omit [DecidableEq ι] in
theorem unlinkBack_kept (kept : Kept s) (here : s.reads.server = .remove r got) (removing : s.removing = none)
    (outside : ∀ i, s.newNode i = none) (first : s.nodes.first () = some n) :
    Kept { s with nodes := s.nodes.unlinkBack () n, removing := some n } := by
  obtain ⟨accounted, l, q, threaded⟩ := kept
  have nodes := threaded.idle removing outside
  rw [nodes] at first
  obtain ⟨rest, rfl⟩ := head_of_first threaded.represents first
  obtain ⟨rest', list⟩ := first_served accounted here
  obtain ⟨rfl, -⟩ := List.cons.inj (threaded.list.trans list)
  exact ⟨accounted, l, _, threaded.represents, threaded.list, threaded.used,
    .remove n _ rest got (by rw [nodes]) outside rfl here rfl⟩

theorem unlinkFront_kept (kept : Kept s) (here : s.reads.server = .remove r got) (removing : s.removing = some n) :
    Kept { s with
      reads := s.unlinked r got
      nodes := s.nodes.unlinkFront () n
      used := update s.used n false
      removing := none } := by
  obtain ⟨accounted, l, q, threaded⟩ := kept
  cases threaded.amid with
  | idle _ _ quiet | append _ _ _ _ _ _ quiet =>
    rw [quiet] at removing
    cases removing
  | remove n' r' rest got' nodes outside removing' server first =>
    obtain rfl : n' = n := Option.some.inj (removing'.symm.trans removing)
    obtain ⟨rfl, rfl⟩ := ServerPlace.remove.inj (server.symm.trans here)
    subst first
    have list : s.reads.shared.list = r' :: rest.map Prod.snd := threaded.list.symm
    have erased : s.reads.shared.list.erase r' = rest.map Prod.snd := by rw [list, List.erase_cons_head]
    have represents := threaded.represents.remove (l := ()) (n := n') List.mem_cons_self
    have erases : ((n', r') :: rest).eraseP (fun e => e.1 = n') = rest := by simp
    rw [update_eq_const_of_subsingleton, erases] at represents
    have moves : Moves .kbd s.reads .server (s.unlinked r' got') := by
      unfold KbdReads.unlinked
      rw [erased]
      exact .server _ _ (here ▸ .remove r' r' got' _ list)
    have gone : n' ∉ rest.map Prod.fst := (List.nodup_cons.1 (threaded.represents.distinct ())).1
    refine ⟨moves.accounted accounted trivial (whole_kbd _ _), _, rest, represents, erased.symm, fun m member => ?_,
      .idle (by rw [nodes]; rfl) outside rfl⟩
    exact (update_of_ne (ne_of_mem_of_not_mem member gone) ..).trans (threaded.used m (.tail _ member))

end Remove

theorem serverNext_kept (kept : Kept s) (separate : atRemove s.reads.server = true → ∀ i, s.newNode i = none)
    (taken : s.serverNext = some s') : Kept s' := by
  unfold KbdReads.serverNext at taken
  split at taken
  · rename_i here
    cases taken
    exact withFirst_kept kept fun n => first_kept kept here
  · rename_i r got here removing
    cases taken
    exact withFirst_kept kept fun n => unlinkBack_kept kept here removing (separate (by rw [here]; rfl))
  · rename_i r got n here removing
    cases taken
    exact unlinkFront_kept kept here removing
  · rename_i first idle busy
    refine read_kept (a := .server) kept trivial nofun (fun _ r got here => ?_) taken
    cases removing : s.removing with
    | none => exact idle r got here removing
    | some n => exact busy r got n here removing

theorem kbdReadStep_kept {action : KbdReadAction ι} (kept : Kept s) (fits : KbdFits s action)
    (separate : Separate s action) (taken : kbdReadStep s action = some s') : Kept s' := by
  unfold kbdReadStep at taken
  split at taken
  · cases taken
  · split at taken
    · exact allocate_kept kept separate taken
    · exact submitNext_kept kept fits taken
    · exact serverNext_kept kept separate taken
    · rename_i a next server
      exact read_kept kept fits (fun i _ same => absurd same (next i)) (fun same => absurd same server) taken

omit [DecidableEq ι] in
theorem start_kept (memory : LinkedLists Unit Request) (used : Nat → Bool) : Kept (kbdReadStart ι memory used) where
  accounted := start_accounted
  threaded := ⟨memory.listInit (), [], ⟨fun _ => rfl, fun _ => rfl, nofun, fun _ => List.nodup_nil, nofun⟩, rfl, nofun,
    .idle rfl (fun _ => rfl) rfl⟩

instance (action : KbdReadAction ι) : Decidable (KbdFits s action) :=
  match action with
  | .kmalloc _ _ => isTrue trivial
  | .read a => inferInstanceAs (Decidable (Fits s.reads a))

instance [Fintype ι] (action : KbdReadAction ι) : Decidable (Separate s action) :=
  match action with
  | .kmalloc _ _ => inferInstanceAs (Decidable (s.removing = none))
  | .read .server => inferInstanceAs (Decidable (atRemove s.reads.server = true → ∀ i, s.newNode i = none))
  | .read (.submit ..) | .read (.next _) | .read (.input _) => isTrue trivial

def kbdBoot (ι : Type) : KbdReads ι :=
  kbdReadStart ι ⟨fun _ => none, fun _ => none, fun _ => none, fun _ => none, fun _ => ⟨0, 0, 0, 0, 0⟩⟩ fun _ => false

/-- A read of one byte up to the test in `list_append`. -/
def fills (i : ι) (flags : Word) (newNode : Nat) : List (KbdReadAction ι) :=
  .read (.submit i 0 vfsAsyncTypeRead 1 flags) :: List.replicate 3 (.read (.next i)) ++ [.kmalloc i (some newNode)]

def links (i : ι) : List (KbdReadAction ι) := List.replicate 4 (.read (.next i))

def serves (n : Nat) : List (KbdReadAction ι) := List.replicate n (.read .server)

def kbdReads : List (KbdReadAction Bool) :=
  [.read (.input [0x61]), .read (.input [0x62])] ++ fills true 0 0 ++ links true ++
    fills false vfsAsyncFlagWantWouldblock 1 ++ links false ++ serves 24

/-- The first read is removed while the second, whose `prev` it is, is not linked yet. -/
def removedBeside : List (KbdReadAction (Option Bool)) :=
  .read (.input [0x61]) :: fills none 0 0 ++ links none ++ serves 9 ++
    .read (.input [0x62]) :: fills (some false) vfsAsyncFlagWantWouldblock 1 ++ serves 3 ++ links (some false) ++
    fills (some true) 0 2 ++ links (some true) ++ serves 17

def secondRead : Request := ⟨1, 0, vfsAsyncTypeRead, 1, vfsAsyncFlagWantWouldblock⟩

end PiOS.Proof.KbdList
