import PiOS.Proof.Loads

namespace PiOS.Proof.PageStable
open Kernel Transition Pages Loads

inductive PageCall
  | makeKernelThread (stale : Proc) (entry : Word)
  | schedInitUserThread (stale : Proc)
  | physPageToLoad (i : Nat) (vaddr : Word) (prog : Bool)

def PageCall.op : PageCall → PageOp
  | .makeKernelThread stale entry => .makeKernelThread stale entry
  | .schedInitUserThread stale => .schedInitUserThread stale
  | .physPageToLoad i vaddr prog => .physPageToLoad i vaddr prog

structure Answer where
  i : Nat
  virtPage : Fin 16
  prog : Bool
  page : Word

def answers (s : PageState) : PageCall → List Answer
  | .physPageToLoad i vaddr prog =>
    (s.kernel.procs[i]?.map fun p =>
      ⟨i, virtPagePart vaddr, prog, (physPageToLoad s.kernel i p vaddr prog).1⟩).toList
  | _ => []

def callStep : PageState × List Answer → PageCall → Option (PageState × List Answer) :=
  watch (fun s call => pageStep s call.op) fun given s call _ => answers s call ++ given

def Returns (k : KernelState) (i : Nat) (virtPage : Fin 16) (prog : Bool) (page : Word) : Prop :=
  ∃ p, k.procs[i]? = some p ∧
    ∀ vaddr, virtPagePart vaddr = virtPage → (physPageToLoad k i p vaddr prog).1 = page

structure Stable (s : PageState × List Answer) : Prop where
  again : ∀ a ∈ s.2, Returns s.1.kernel a.i a.virtPage a.prog a.page
  halves : ∀ a ∈ s.2, ∀ b ∈ s.2, a.i = b.i → a.prog = true → b.prog = true →
    ∀ slot, (a.virtPage : Nat) = 2 * slot → (b.virtPage : Nat) = 2 * slot + 1 →
      ∃ progPage, a.page.toNat = 0x1000 + 2 * progPage ∧ b.page.toNat = 0x1000 + 2 * progPage + 1

def CallFree (s : PageState × List Answer) (call : PageCall) : Prop := ProgPageFree s.1 call.op

def Kept (k : KernelState) (a : Answer) : Prop :=
  ∃ p, k.procs[a.i]? = some p ∧ entryAt p a.prog a.virtPage ≠ unmappedPage ∧
    a.page = view a.prog a.virtPage (entryAt p a.prog a.virtPage)

section Calls

variable {k k' : KernelState} {i : Nat} {p : Proc} {a : Answer} {vaddr : Word} {prog : Bool}

theorem Kept.returns (kept : Kept k a) : Returns k a.i a.virtPage a.prog a.page := by
  obtain ⟨p, here, mapped, page⟩ := kept
  refine ⟨p, here, ?_⟩
  intro vaddr same
  rw [← same] at mapped page
  rw [physPageToLoad_of_mapped mapped, page]

theorem Kept.create (kept : Kept k a) (grown : ∃ q, k'.procs = k.procs ++ [q]) : Kept k' a := by
  obtain ⟨p, here, mapped, page⟩ := kept
  obtain ⟨q, procs⟩ := grown
  refine ⟨p, ?_, mapped, page⟩
  rw [procs, List.getElem?_append_left (List.getElem?_eq_some_iff.mp here).1, here]

theorem Kept.load (kept : Kept k a) (here : k.procs[i]? = some p) : Kept (physPageToLoad k i p vaddr prog).2 a := by
  by_cases empty : entryAt p prog (virtPagePart vaddr) = unmappedPage
  · obtain ⟨-, q, takes⟩ := physPageToLoad_of_empty here empty
    obtain ⟨r, there, mapped, page⟩ := kept
    by_cases same : a.i = i
    · obtain rfl : p = r := Option.some.inj (here.symm.trans (same ▸ there))
      refine ⟨q, same ▸ takes.own, ?_⟩
      rw [takes.entries, if_neg]
      · exact ⟨mapped, page⟩
      · rintro ⟨rfl, entry⟩
        exact mapped ((entryAt_congr p entry).trans empty)
    · exact ⟨r, (takes.others _ same).trans there, mapped, page⟩
  · rw [physPageToLoad_of_mapped empty]
    exact kept

theorem kept_answer (here : k.procs[i]? = some p)
    (fresh : entryAt p prog (virtPagePart vaddr) = unmappedPage → nextPage k prog ≠ unmappedPage) :
    Kept (physPageToLoad k i p vaddr prog).2 ⟨i, virtPagePart vaddr, prog, (physPageToLoad k i p vaddr prog).1⟩ := by
  by_cases empty : entryAt p prog (virtPagePart vaddr) = unmappedPage
  · obtain ⟨page, q, takes⟩ := physPageToLoad_of_empty here empty
    refine ⟨q, takes.own, ?_⟩
    rw [takes.entries, if_pos ⟨rfl, rfl⟩, page]
    exact ⟨fresh empty, rfl⟩
  · rw [physPageToLoad_of_mapped empty]
    exact ⟨p, here, empty, rfl⟩

theorem not_returns_of_mark (here : k.procs[i]? = some p)
    (empty : entryAt p true (virtPagePart vaddr) = unmappedPage) (mark : k.pages.firstFreeProgPage = unmappedPage) :
    ¬ Returns (physPageToLoad k i p vaddr true).2 i (virtPagePart vaddr) true (physPageToLoad k i p vaddr true).1 := by
  rintro ⟨q, own, again⟩
  obtain ⟨page, q', takes⟩ := physPageToLoad_of_empty here empty
  obtain rfl := Option.some.inj (own.symm.trans takes.own)
  have still : entryAt q true (virtPagePart vaddr) = unmappedPage := by
    rw [takes.entries, if_pos ⟨rfl, rfl⟩]
    exact mark
  have counter : nextPage (physPageToLoad k i p vaddr true).2 true = unmappedPage + 1 := by
    rw [show physPageToLoad k i p vaddr true = (_, k.takeProgPage i (progEntry vaddr)) from if_pos empty, ← mark]
    rfl
  have twice := again vaddr rfl
  rw [(physPageToLoad_of_empty own still).1, page, counter, show nextPage k true = unmappedPage from mark] at twice
  revert twice
  generalize virtPagePart vaddr = virtPage
  revert virtPage
  decide

end Calls

variable {s s' : PageState × List Answer} {call : PageCall}

structure CallInv (s : PageState × List Answer) : Prop where
  data : DataInv s.1
  prog : ProgInv s.1
  kept : ∀ a ∈ s.2, Kept s.1.kernel a

theorem CallInv.stable (inv : CallInv s) : Stable s where
  again a member := (inv.kept a member).returns
  halves a first b second same progA progB slot even odd := by
    obtain ⟨p, here, -, pageA⟩ := inv.kept a first
    obtain ⟨q, there, -, pageB⟩ := inv.kept b second
    obtain rfl : p = q := Option.some.inj (here.symm.trans (same ▸ there))
    have entry : entryOf true b.virtPage = entryOf true a.virtPage := Fin.ext (by simp [entryOf]; omega)
    have small := progPages_le inv.prog here (entryOf true a.virtPage)
    rw [progA, entryAt_prog] at pageA
    rw [progB, entryAt_prog, entry] at pageB
    refine ⟨(p.procState.progPages (entryOf true a.virtPage)).toNat, ?_, ?_⟩
    · rw [pageA, view_prog_toNat _ small]
      omega
    · rw [pageB, view_prog_toNat _ small]
      omega

theorem CallInv.step (inv : CallInv s) (free : CallFree s call) (taken : callStep s call = some s') : CallInv s' := by
  obtain ⟨taken, given⟩ := watch_eq_some taken
  refine ⟨step_dataInv inv.data taken, step_progInv inv.data inv.prog free taken, ?_⟩
  rw [given]
  cases call with
  | makeKernelThread | schedInitUserThread =>
    obtain ⟨k, made, same⟩ := Option.map_eq_some_iff.mp taken
    obtain ⟨_, _, made⟩ := bind_eq_ok.mp (toOption_eq_some.mp made)
    obtain ⟨_, _, made⟩ := bind_eq_ok.mp made
    cases made
    rw [← same]
    exact fun a member => (inv.kept a member).create ⟨_, rfl⟩
  | physPageToLoad i vaddr prog =>
    obtain ⟨p, here, same⟩ := Option.map_eq_some_iff.mp taken
    rw [← same]
    intro a member
    simp only [answers, here, Option.map_some, Option.toList_some, List.singleton_append, List.mem_cons] at member
    rcases member with rfl | old
    · refine kept_answer here ?_
      intro empty
      apply PagesInOrder.nextPage_ne ⟨s.1, rfl, inv.data, inv.prog⟩
      rintro rfl
      exact free ⟨p, here, empty⟩
    · exact (inv.kept a old).load here

theorem taken_at_mark_unstable (marked : ¬ CallFree s call) (taken : callStep s call = some s') : ¬ Stable s' := by
  obtain ⟨taken, given⟩ := watch_eq_some taken
  unfold CallFree ProgPageFree at marked
  push Not at marked
  obtain ⟨takes, mark⟩ := marked
  cases call with
  | makeKernelThread | schedInitUserThread => exact takes.elim
  | physPageToLoad i vaddr prog =>
    cases prog with
    | false => exact takes.elim
    | true =>
      obtain ⟨p, here, empty⟩ := takes
      obtain ⟨q, there, same⟩ := Option.map_eq_some_iff.mp taken
      obtain rfl : p = q := Option.some.inj (here.symm.trans there)
      intro stable
      have again := stable.again ⟨i, virtPagePart vaddr, true, (physPageToLoad s.1.kernel i p vaddr true).1⟩
        (by simp [given, answers, here])
      rw [← same] at again
      exact not_returns_of_mark here empty mark again

theorem page_stable_iff (phys : PhysMem) (calls : List PageCall) :
    Throughout callStep Stable (initPages phys, []) calls ↔ Guarded callStep CallFree (initPages phys, []) calls := by
  refine throughout_iff_guarded (I := CallInv) ?_ ?_ ?_ ?_
  · exact fun s inv => inv.stable
  · exact fun s call s' inv free taken => inv.step free taken
  · exact fun s call s' inv marked taken => taken_at_mark_unstable marked taken
  · exact ⟨dataInv_init phys, progInv_init phys, fun a member => absurd member List.not_mem_nil⟩

def loadsOf (i : Nat) : List PageCall :=
  .schedInitUserThread .zero ::
    (List.range 8).map fun n => .physPageToLoad i (BitVec.ofNat 16 (n * 0x2000)) true

theorem thirtieth_process_moves :
    ¬ Throughout callStep Stable (initPages fun _ _ => 0, []) ((List.range 30).flatMap loadsOf) := by
  intro stable
  have moved : (run callStep (initPages fun _ _ => 0, []) ((List.range 30).flatMap loadsOf)).map (fun s =>
      (s.2.any fun a => a.i = 29 ∧ a.virtPage = 12 ∧ a.prog ∧ a.page = 0x11fe,
        s.1.kernel.procs[29]?.map fun p => (physPageToLoad s.1.kernel 29 p 0xc000 true).1)) =
      some (true, some 0x1202) := by decide +kernel
  obtain ⟨s, reached, values⟩ := Option.map_eq_some_iff.mp moved
  obtain ⟨given, now⟩ := Prod.mk.inj values
  obtain ⟨⟨i, virtPage, prog, page⟩, member, call⟩ := List.any_eq_true.mp given
  simp only [decide_eq_true_eq] at call
  obtain ⟨rfl, rfl, rfl, rfl⟩ := call
  obtain ⟨p, here, again⟩ := (throughout_iff.mp stable _ (List.prefix_refl _) s reached).again _ member
  rw [here, Option.map_some, again 0xc000 (by decide)] at now
  exact absurd now (by decide)

end PiOS.Proof.PageStable
