import PiOS.Proof.ElfImage

namespace PiOS.Proof.ElfLoad
open Kernel Transition Pages Loads ElfImage

def byteAt (k : KernelState) (p : Proc) (prog : Bool) (x : Nat) : Byte :=
  k.phys (pageAt p prog (pageOf x)) (BitVec.ofNat 16 (x % 0x1000))

def InMemory (file : List Byte) (k : KernelState) (p : Proc) (seg : Segment) : Prop :=
  ∀ i < seg.fileSize, byteAt k p seg.prog (seg.vaddr + i) = file.getD (seg.offset + i) 0

def ImageIn (file : List Byte) (s : LoadShared Unit) : Prop :=
  ∃ c p, s.childOf () = some (c, p) ∧ (∀ seg ∈ segmentsOf file, InMemory file s.kernel p seg) ∧
    p.loadBrk.toNat = dataEnd (segmentsOf file)

def noteRead (record : List Word) (s : LoadShared Unit) (i : Unit) : LoadOp → List Word
  | .vfsReadBlocking .phBuff _ => record ++ [(s.call i).offset]
  | _ => record

def lowEmpty (p : Proc) : Finset (Fin 16) := (holdings p).emptyEntries.filter (· < 8)

def Roomy (k : KernelState) (child : Option Nat) : Prop :=
  ∀ c p, child = some c → k.procs[c]? = some p → k.pages.firstFreeProgPage.toNat + (lowEmpty p).card ≤ 0xfe

structure Solo (k : KernelState) (stale : Proc) (s : LoadShared Unit) (record : List Word)
    (a : Alone × List Word) : Prop where
  inv : LoadInv s
  agrees : Agrees s () a.1
  buffers : s.buffers = (s.call ()).own
  record_eq : record = a.2
  before : a.1.image = none → s.kernel = k ∧ (s.call ()).stale = stale
  roomy : Roomy s.kernel (s.call ()).child

section Progress

variable {k k' : KernelState} {stale : Proc} {s : LoadShared Unit} {record : List Word} {a : Alone × List Word}
  {vaddr : Word}

theorem Solo.childOf (solo : Solo k stale s record a) (made : a.1.image.isSome) :
    ∃ c p, s.childOf () = some (c, p) := by
  obtain ⟨image, at_image⟩ := Option.isSome_iff_exists.mp made
  have shows := solo.agrees.child
  rw [at_image] at shows
  cases child : (s.call ()).child with
  | none =>
    rw [child] at shows
    cases shows
  | some c =>
    rw [child] at shows
    cases shows with
    | present here _ => exact ⟨c, _, childOf_eq_some.mpr ⟨child, here⟩⟩

theorem progEntry_lt (vaddr : Word) : progEntry vaddr < 8 := by
  have bound := (virtPagePart vaddr).isLt
  rw [Fin.lt_def]
  show (virtPagePart vaddr : Nat) / 2 < 8
  omega

theorem mem_lowEmpty {p : Proc} (empty : p.procState.progPages (progEntry vaddr) = unmappedPage) :
    progEntry vaddr ∈ lowEmpty p :=
  Finset.mem_filter.mpr ⟨Finset.mem_filter.mpr ⟨Finset.mem_univ _, empty⟩, progEntry_lt vaddr⟩

variable {c : Nat} {p : Proc} {after : KernelState} {o : LoadOp}

theorem Roomy.below (roomy : Roomy k (some c)) (here : k.procs[c]? = some p)
    (empty : p.procState.progPages (progEntry vaddr) = unmappedPage) : k.pages.firstFreeProgPage.toNat ≤ 0xfd := by
  have bound := roomy c p rfl here
  have positive := Finset.card_pos.mpr ⟨_, mem_lowEmpty empty⟩
  omega

theorem Roomy.of_same {child : Option Nat} {f : Proc → Proc} (roomy : Roomy k child)
    (table : ∀ p, (f p).procState.progPages = p.procState.progPages) : Roomy (k.modifyProc c f) child := by
  intro d q held here
  by_cases own : c = d
  · subst own
    rw [modifyProc_self] at here
    obtain ⟨p, before, rfl⟩ := Option.map_eq_some_iff.mp here
    have same : lowEmpty (f p) = lowEmpty p := by
      unfold lowEmpty Holdings.emptyEntries holdings
      simp only [table p]
    rw [same]
    exact roomy c p held before
  · rw [modifyProc_of_ne _ _ _ (Ne.symm own)] at here
    exact roomy d q held here

theorem Roomy.physPageToLoad (roomy : Roomy k (some c)) (here : k.procs[c]? = some p) (vaddr : Word) (prog : Bool) :
    Roomy (physPageToLoad k c p vaddr prog).2 (some c) := by
  unfold Kernel.physPageToLoad
  cases prog with
  | false =>
    simp only [Bool.false_eq_true, if_false]
    split
    · exact roomy.of_same fun _ => rfl
    · exact roomy
  | true =>
    simp only [if_true]
    split
    · rename_i empty
      have below := roomy.below here empty
      have bound := roomy c p rfl here
      intro d q held there
      obtain rfl : c = d := Option.some.inj held
      have page : k.pages.firstFreeProgPage ≠ unmappedPage := by
        intro mark
        rw [mark] at below
        exact absurd below (by decide)
      have own : (k.takeProgPage c (progEntry vaddr)).procs[c]? = _ := modifyProc_self k c _
      rw [own, here, Option.map_some, Option.some.injEq] at there
      subst there
      have erased : lowEmpty { p with procState := { p.procState with
          progPages := Function.update p.procState.progPages (progEntry vaddr) k.pages.firstFreeProgPage } } =
          (lowEmpty p).erase (progEntry vaddr) := by
        have entries := emptyEntries_erase (holdings p) (progEntry vaddr) page
        rw [lowEmpty, lowEmpty, ← Finset.filter_erase, ← entries]
        rfl
      have card := Finset.card_erase_add_one (mem_lowEmpty empty)
      have next : (k.pages.firstFreeProgPage + 1).toNat = k.pages.firstFreeProgPage.toNat + 1 :=
        toNat_succ (by omega)
      rw [erased]
      simp only [KernelState.takeProgPage, next]
      omega
    · exact roomy

theorem Solo.undisturbed (solo : Solo k stale s record a) (o : LoadOp) : Undisturbed s () o := by
  cases o with
  | fetch b count => exact congrArg (fun buffers : Buffers => buffers.first b count) solo.buffers
  | physPageToLoad vaddr prog =>
    cases prog with
    | false => trivial
    | true =>
      by_cases free : s.kernel.pages.firstFreeProgPage = unmappedPage
      · refine Or.inl ?_
        cases child : s.childOf () with
        | none => rfl
        | some found =>
          obtain ⟨held, here⟩ := childOf_eq_some.mp child
          have roomy := solo.roomy
          rw [held] at roomy
          have filled : found.2.procState.progPages (progEntry vaddr) ≠ unmappedPage := by
            intro empty
            have below := roomy.below here empty
            rw [free] at below
            exact absurd below (by decide)
          simpa using filled
      · exact Or.inr free
  | _ => trivial

structure Carries (s : LoadShared Unit) (a : Alone) (o : LoadOp) (out : LoadShared Unit) : Prop where
  buffers : out.buffers = (out.call ()).own
  before : (handle o a).2.image = none → out.kernel = s.kernel ∧ (out.call ()).stale = (s.call ()).stale
  roomy : Roomy out.kernel (out.call ()).child

theorem Solo.carries_same (solo : Solo k stale s record a) (o : LoadOp) : Carries s a.1 o s :=
  ⟨solo.buffers, fun _ => ⟨rfl, rfl⟩, solo.roomy⟩

theorem Solo.carries_setCall (solo : Solo k stale s record a) (o : LoadOp) {call : LoadCall} {buffers : Buffers}
    (child : call.child = (s.call ()).child) (same : call.stale = (s.call ()).stale) (own : buffers = call.own) :
    Carries s a.1 o { s.setCall () call with buffers := buffers } where
  buffers := by simp [LoadShared.setCall, own]
  before _ := ⟨rfl, by simp [LoadShared.setCall, same]⟩
  roomy := by simpa [LoadShared.setCall, child] using solo.roomy

theorem Solo.carries_child (solo : Solo k stale s record a) {change : Image → Image}
    (made : a.1.image.isSome) (handled : (handle o a.1).2.image = a.1.image.map change)
    (roomy : Roomy after (s.call ()).child) : Carries s a.1 o { s with kernel := after } where
  buffers := solo.buffers
  before none := by
    rw [handled, Option.map_eq_none_iff] at none
    rw [none] at made
    cases made
  roomy := roomy

theorem lowEmpty_le (p : Proc) : (lowEmpty p).card ≤ 8 :=
  (Finset.card_le_card (Finset.filter_subset_filter _ (Finset.subset_univ _))).trans (by decide)

theorem roomy_new (made : schedInitUserThread k stale = .ok after)
    (start : k.pages.firstFreeProgPage.toNat ≤ 0xf6) : Roomy after (some k.procs.length) := by
  unfold schedInitUserThread at made
  obtain ⟨out, first, made⟩ := bind_eq_ok.mp made
  obtain ⟨node, second, made⟩ := bind_eq_ok.mp made
  cases made
  intro c p held here
  have counter := lowEmpty_le p
  show k.pages.firstFreeProgPage.toNat + _ ≤ 0xfe
  omega

theorem Solo.served (solo : Solo k stale s record a) (made : schedInitUserThread k stale = .ok k')
    (start : k.pages.firstFreeProgPage.toNat ≤ 0xf6) (isReady : ready o a) :
    ∃ out, serveLoad s () o = some out ∧ Carries s a.1 o out.2 := by
  cases o with
  | vfsReadBlocking b size => exact ⟨_, rfl, solo.carries_setCall _ rfl rfl (by rw [solo.buffers])⟩
  | fetch | vfsSeekCur => exact ⟨_, rfl, solo.carries_same _⟩
  | vfsSeekSet offset =>
    by_cases negative : offset.toInt < 0
    · exact ⟨((), s), by simp [serveLoad, negative], solo.carries_same _⟩
    · refine ⟨((), { s.setCall () { s.call () with offset := offset } with buffers := s.buffers }), ?_,
        solo.carries_setCall _ rfl rfl solo.buffers⟩
      simp [serveLoad, negative, LoadShared.setCall]
  | schedInitUserThread =>
    obtain ⟨kernel, proc⟩ := solo.before isReady
    refine ⟨_, by rw [serveLoad, kernel, proc, made]; rfl, ?_⟩
    refine ⟨by simpa [LoadShared.setCall] using solo.buffers, fun none => absurd none (by simp [handle]), ?_⟩
    simpa [LoadShared.setCall, kernel] using roomy_new made start
  | setPc | setLoadBrk =>
    obtain ⟨c, p, child⟩ := solo.childOf isReady
    refine ⟨_, by rw [serveLoad, child]; rfl, solo.carries_child isReady rfl ?_⟩
    exact solo.roomy.of_same fun _ => rfl
  | physPageToLoad vaddr prog =>
    obtain ⟨c, p, child⟩ := solo.childOf isReady
    obtain ⟨held, here⟩ := childOf_eq_some.mp child
    have roomy := solo.roomy
    rw [held] at roomy
    refine ⟨_, by rw [serveLoad, child]; rfl, solo.carries_child isReady rfl ?_⟩
    rw [held]
    exact roomy.physPageToLoad here vaddr prog
  | store vaddr prog start bytes =>
    obtain ⟨c, p, child⟩ := solo.childOf isReady
    refine ⟨_, by rw [serveLoad, child]; rfl, solo.carries_child isReady rfl ?_⟩
    exact solo.roomy

theorem image_none_of_handle {a : Alone} (none : (handle o a).2.image = Option.none) : a.image = Option.none := by
  cases o with
  | vfsReadBlocking | fetch | vfsSeekCur => exact none
  | vfsSeekSet offset =>
    simp only [handle] at none
    split at none <;> exact none
  | schedInitUserThread => cases none
  | setPc _ | physPageToLoad _ _ | store _ _ _ _ | setLoadBrk _ => exact Option.map_eq_none_iff.mp none

theorem Solo.step (solo : Solo k stale s record a) (made : schedInitUserThread k stale = .ok k')
    (start : k.pages.firstFreeProgPage.toNat ≤ 0xf6) (isReady : ready o a) :
    ∃ out, serveLoad s () o = some out ∧ out.1 = (logging headerRead handle o a).1 ∧
      Solo k stale out.2 (noteRead record s () o) (logging headerRead handle o a).2 := by
  obtain ⟨out, served, carries⟩ := solo.served made start isReady
  have sound := serveLoad_sound solo.inv (solo.undisturbed o) served
  obtain ⟨answer, agrees⟩ := sound.own a.1 solo.agrees
  refine ⟨out, served, answer.symm, sound.keeps, agrees, carries.buffers, ?_, ?_, carries.roomy⟩
  · show noteRead record s () o = a.2 ++ headerRead o a.1
    rw [solo.record_eq]
    unfold noteRead headerRead
    split
    · rw [solo.agrees.offset]
    · rename_i other
      split
      · exact absurd rfl (other _)
      · simp
  · intro none
    obtain ⟨kernel, proc⟩ := carries.before none
    have earlier := image_none_of_handle none
    obtain ⟨kernel', proc'⟩ := solo.before earlier
    exact ⟨kernel.trans kernel', proc.trans proc'⟩

end Progress

variable {k : KernelState}

theorem solo_start (order : PagesInOrder k) (buffers : Buffers) (file : List Byte) (stale : Proc) :
    Solo k stale (loadStart k buffers (fun _ : Unit => file) fun _ => stale).shared []
      (aloneStart file buffers stale, []) where
  inv := LoadInv.start order buffers _ _
  agrees := ⟨rfl, rfl, rfl, rfl, .absent⟩
  buffers := rfl
  record_eq := rfl
  before _ := ⟨rfl, rfl⟩
  roomy c p held := by cases held

section Result

variable {file : List Byte} {k : KernelState} {p : Proc} {image : Image} {c : Contents}

theorem byteAt_of_shows (shows : Shows k p image) (holds : Holds image c) {prog : Bool} {x : Nat} {b : Byte}
    (small : x < 0x10000) (known : c prog x = some b) : byteAt k p prog x = b := by
  rw [← holds prog x small] at known
  exact shows.bytes prog (pageOf x) _ b known

theorem inMemory_iff_found {seg : Segment} (shows : Shows k p image) (holds : Holds image c) (sound : seg.Sound file)
    (known : ∀ i < seg.fileSize, (c seg.prog (seg.vaddr + i)).isSome) : InMemory file k p seg ↔ seg.Found file c := by
  refine forall₂_congr fun i inside => ?_
  have fits := sound.fits
  have within := sound.within
  obtain ⟨b, here⟩ := Option.isSome_iff_exists.mp (known i inside)
  rw [byteAt_of_shows shows holds (by omega) here, here, Option.some.injEq]

theorem imageIn_iff {s : LoadShared Unit} {child : Nat} (loadable : Loadable file)
    (made : s.childOf () = some (child, p)) (shows : Shows s.kernel p image)
    (holds : Holds image ((segmentsOf file).foldl (Segment.place file) fun _ _ => none))
    (brk : image.loadBrk.toNat = (segmentsOf file).foldl Segment.raise 0) :
    ImageIn file s ↔ Kept file (segmentsOf file) ∧ Covered (segmentsOf file) := by
  rw [← found_iff_kept loadable.sounds loadable.apart, ← raise_eq_dataEnd_iff, ← brk, ← shows.loadBrk]
  have each : (∀ seg ∈ segmentsOf file, InMemory file s.kernel p seg) ↔ _ :=
    forall₂_congr fun seg member => inMemory_iff_found shows holds (loadable.sounds seg member)
      fun i inside => placeAll_some member inside
  rw [← each]
  constructor
  · rintro ⟨child', q, made', found, same⟩
    rw [made, Option.some.injEq, Prod.mk.injEq] at made'
    obtain ⟨rfl, rfl⟩ := made'
    exact ⟨found, same⟩
  · rintro ⟨found, same⟩
    exact ⟨child, p, made, found, same⟩

end Result

def loadRun (k : KernelState) (buffers : Buffers) (stale : Proc) (file : List Byte) (n : Nat) :
    Option (LoadState Unit × List Word) :=
  run (watch loadStep (noteOp noteRead)) (loadStart k buffers (fun _ => file) fun _ => stale, []) (List.replicate n ())

def Returns (k : KernelState) (buffers : Buffers) (stale : Proc) (file : List Byte)
    (w : LoadState Unit × List Word) : Prop :=
  (∃ n, loadRun k buffers stale file n = some w) ∧ w.1.script () = .done .proc

def LoadsImage (k : KernelState) (buffers : Buffers) (stale : Proc) (file : List Byte) : Prop :=
  ∃ w, Returns k buffers stale file w ∧
    w.2.map BitVec.toNat = (List.range (phnum file)).map (headerPlace file) ∧ ImageIn file w.1.shared

theorem Returns.unique {buffers : Buffers} {stale : Proc} {file : List Byte}
    {w w' : LoadState Unit × List Word} (first : Returns k buffers stale file w)
    (second : Returns k buffers stale file w') : w = w' := by
  have stops : ∀ {w : LoadState Unit × List Word}, w.1.script () = .done .proc →
      watch loadStep (noteOp noteRead) w () = none := by
    intro w ended
    simp [watch, loadStep, weaveStep, ended]
  obtain ⟨⟨n, reached⟩, ended⟩ := first
  obtain ⟨⟨m, reached'⟩, ended'⟩ := second
  exact run_replicate_unique reached (stops ended) reached' (stops ended')

section Loading

variable {phys : PhysMem} {ops : List PageOp} {s : PageState} {k : KernelState} {stale : Proc} {file : List Byte}

theorem returns_of_loadable (reached : run pageStep (initPages phys) ops = some s)
    (start : s.kernel.pages.firstFreeProgPage.toNat ≤ 0xf6)
    (made : schedInitUserThread s.kernel stale = .ok k) (loadable : Loadable file) (typed : Typed file)
    (buffers : Buffers) :
    ∃ w, Returns s.kernel buffers stale file w ∧
      w.2.map BitVec.toNat = (List.range (phnum file)).map (headerPlace file) ∧
      (ImageIn file w.1.shared ↔ Kept file (segmentsOf file) ∧ Covered (segmentsOf file)) := by
  have free := progPageFree_of_counter_le (counterInv_init phys) reached (by omega)
  have order := pagesInOrder_of_run free reached
  have meets : Yields (fun (result : LoadEnd) (a : Alone × List Word) => result = LoadEnd.proc ∧
      LoadDone ((segmentsOf file).foldl (Segment.place file) fun _ _ => none)
        ((segmentsOf file).foldl Segment.raise 0) (placesOf file (List.range (phnum file))) a) elfLoad
      (aloneStart file buffers stale, []) :=
    yields_elfLoad loadable typed rfl rfl rfl rfl fun _ loaded => ⟨rfl, loaded⟩
  obtain ⟨n, w, run, result, a, ended, solo, rfl, loaded⟩ :=
    meets.runs (fun _ _ _ _ solo isReady => solo.step made start isReady) rfl (solo_start order buffers file stale)
  obtain ⟨image, at_image, holds, brk⟩ := loaded.image
  have shows := solo.agrees.child
  obtain ⟨child, p, there⟩ := solo.childOf (Option.isSome_iff_exists.mpr ⟨image, at_image⟩)
  obtain ⟨held, here⟩ := childOf_eq_some.mp there
  rw [at_image, held] at shows
  cases shows with
  | present here' placed =>
    obtain rfl : _ = p := Option.some.inj (here'.symm.trans here)
    refine ⟨w, ⟨⟨n, run⟩, ended⟩, ?_, imageIn_iff loadable there placed.toShows holds brk⟩
    rw [solo.record_eq, loaded.log_eq, placesOf, List.map_map]
    refine List.map_congr_left fun j member => ?_
    have inside := loadable.table j (List.mem_range.mp member)
    have short := loadable.short
    rw [Function.comp_apply, word_ofNat_toNat (by omega)]

end Loading

def elfHeader (headers : Byte) : List Byte :=
  [0x7f, 0x45, 0x4c, 0x46, 1, 1, 1, 0, 0, 0, 0, 0, 0, 0, 0, 0, 2, 0, 0x88, 0x08, 1, 0, 0, 0, 0, 0, 0, 0,
    56, 0, 0, 0, 0, 0, 0, 0, 0, 0, 0, 0, 52, 0, 32, 0, headers, 0, 40, 0, 0, 0, 0, 0, 0, 0, 0, 0]

def loadHeader (offset : Byte) (page fileSize memSize flags : Byte) : List Byte :=
  [1, 0, 0, 0, offset, 0, 0, 0, 0, page, 0, 0, 0, 0, 0, 0, fileSize, 0, 0, 0, memSize, 0, 0, 0, flags, 0, 0, 0, 0, 0, 0, 0]

def threeSegments : List Byte :=
  elfHeader 3 ++ loadHeader 152 0x20 2 2 6 ++ loadHeader 154 0 4 4 5 ++ loadHeader 158 0x10 2 8 6 ++
    [1, 2, 3, 4, 5, 6, 7, 8]

theorem segmentsOf_threeSegments : segmentsOf threeSegments =
    [⟨false, 152, 0x2000, 2, 2⟩, ⟨true, 154, 0, 4, 4⟩, ⟨false, 158, 0x1000, 2, 8⟩] := by decide +kernel

theorem loadable_threeSegments : Loadable threeSegments where
  short := by decide +kernel
  header := by decide +kernel
  valid := by decide +kernel
  table := by decide +kernel
  sounds := by
    rw [segmentsOf_threeSegments]
    decide +kernel
  apart := by
    rw [segmentsOf_threeSegments]
    refine .cons ?_ (.cons ?_ (List.pairwise_singleton _ _))
    · rw [List.forall_mem_cons, List.forall_mem_singleton]
      exact ⟨fun space => (nomatch space), fun _ x => by dsimp only; omega⟩
    · rw [List.forall_mem_singleton]
      exact fun space => nomatch space

theorem child_made : ∃ k, schedInitUserThread callersState.kernel .zero = .ok k := by
  have made : (schedInitUserThread callersState.kernel .zero).toOption.isSome = true := by decide +kernel
  obtain ⟨k, here⟩ := Option.isSome_iff_exists.mp made
  exact ⟨k, toOption_eq_some.mp here⟩

theorem typed_threeSegments : Typed threeSegments := by
  unfold Typed
  decide +kernel

def lastPage : List Byte := elfHeader 1 ++ loadHeader 88 0xf0 4 8 6 ++ [1, 2, 3, 4]

theorem segmentsOf_lastPage : segmentsOf lastPage = [⟨false, 88, 0xf000, 4, 8⟩] := by decide +kernel

theorem loadable_lastPage : Loadable lastPage where
  short := by decide +kernel
  header := by decide +kernel
  valid := by decide +kernel
  table := by decide +kernel
  sounds := by
    rw [segmentsOf_lastPage]
    decide +kernel
  apart := by
    rw [segmentsOf_lastPage]
    exact List.pairwise_singleton _ _

end PiOS.Proof.ElfLoad
