import PiOS.Proof.Pages

namespace PiOS.Proof.Loads
open Kernel Blocks Transition Pages

structure Image where
  pc : Word
  loadBrk : Word
  mapped : Bool → Fin 16 → Bool
  bytes : Bool → Fin 16 → Word → Option Byte

structure Alone where
  file : List Byte
  offset : Word
  buffers : Buffers
  staleBrk : Word
  image : Option Image

def entryOf (prog : Bool) (virtPage : Fin 16) : Fin 16 :=
  if prog then ⟨virtPage / 2, half_lt virtPage⟩ else virtPage

def Image.new (loadBrk : Word) : Image where
  pc := 0
  loadBrk := loadBrk
  mapped := fun prog virtPage => !prog && virtPage = 15
  bytes := fun _ _ _ => none

def Image.map (image : Image) (prog : Bool) (virtPage : Fin 16) : Image :=
  { image with
    mapped := fun prog' virtPage' =>
      image.mapped prog' virtPage' || (prog' = prog && entryOf prog' virtPage' = entryOf prog virtPage) }

def Image.write (image : Image) (prog : Bool) (virtPage : Fin 16) (start : Word) (data : List Byte) : Image :=
  { image with
    bytes := fun prog' virtPage' a =>
      if image.mapped prog virtPage ∧ prog' = prog ∧ virtPage' = virtPage ∧ start.toNat ≤ a.toNat then
        data[a.toNat - start.toNat]?.or (image.bytes prog' virtPage' a)
      else
        image.bytes prog' virtPage' a }

def handle : (o : LoadOp) → Alone → o.Answer × Alone
  | .vfsReadBlocking b size, a =>
    let data := readFile a.file a.offset size
    (BitVec.ofNat 16 data.length,
      { a with offset := a.offset + BitVec.ofNat 16 data.length, buffers := a.buffers.fill b data })
  | .fetch b count, a => (a.buffers.first b count, a)
  | .vfsSeekCur, a => (a.offset, a)
  | .vfsSeekSet offset, a => ((), if offset.toInt < 0 then a else { a with offset := offset })
  | .schedInitUserThread, a => ((), { a with image := some (.new a.staleBrk) })
  | .setPc pc, a => ((), { a with image := a.image.map fun image => { image with pc := pc } })
  | .physPageToLoad vaddr prog, a =>
    ((), { a with image := a.image.map fun image => image.map prog (virtPagePart vaddr) })
  | .store vaddr prog start bytes, a =>
    ((), { a with image := a.image.map fun image => image.write prog (virtPagePart vaddr) start bytes })
  | .setLoadBrk loadBrk, a =>
    ((), { a with image := a.image.map fun image => { image with loadBrk := loadBrk } })

def aloneStart (file : List Byte) (buffers : Buffers) (stale : Proc) : Alone :=
  ⟨file, 0, buffers, stale.loadBrk, none⟩

def loadedAlone (file : List Byte) (buffers : Buffers) (stale : Proc) : LoadEnd × Alone :=
  elfLoad.exec handle (aloneStart file buffers stale)

def entryAt (p : Proc) (prog : Bool) (virtPage : Fin 16) : Word :=
  if prog then p.procState.progPages (entryOf true virtPage) else p.procState.memPages virtPage

structure Shows (k : KernelState) (p : Proc) (image : Image) : Prop where
  pc : p.procState.pc = image.pc
  loadBrk : p.loadBrk = image.loadBrk
  mapped : ∀ prog virtPage, image.mapped prog virtPage = true ↔ entryAt p prog virtPage ≠ unmappedPage
  bytes : ∀ prog virtPage a b, image.bytes prog virtPage a = some b →
    k.phys (pageAt p prog virtPage) a = b

section Property

variable {ι : Type}

def LoadsApart (files : ι → List Byte) (buffers : Buffers) (stale : ι → Proc) (s : LoadState ι) : Prop :=
  ∀ i result, s.script i = .done result →
    result = (loadedAlone (files i) buffers (stale i)).1 ∧
    ∀ image, (loadedAlone (files i) buffers (stale i)).2.image = some image →
      ∃ p, (s.shared.childOf i).map Prod.snd = some p ∧ Shows s.shared.kernel p image

def Undisturbed (s : LoadShared ι) (i : ι) : LoadOp → Prop
  | .fetch b count => s.buffers.first b count = (s.call i).own.first b count
  | .physPageToLoad vaddr true =>
    (s.childOf i).all (fun child => child.2.procState.progPages (progEntry vaddr) ≠ unmappedPage) ∨
      s.kernel.pages.firstFreeProgPage ≠ unmappedPage
  | _ => True

instance (s : LoadShared ι) (i : ι) : (o : LoadOp) → Decidable (Undisturbed s i o)
  | .fetch b count =>
    inferInstanceAs (Decidable (s.buffers.first b count = (s.call i).own.first b count))
  | .physPageToLoad _ true => instDecidableOr
  | .physPageToLoad _ false | .vfsReadBlocking _ _ | .vfsSeekCur | .vfsSeekSet _ | .schedInitUserThread
  | .setPc _ | .store _ _ _ _ | .setLoadBrk _ => isTrue trivial

end Property

def view (prog : Bool) (virtPage : Fin 16) (w : Word) : Word :=
  if prog then ((w <<< 1) ||| BitVec.ofNat 16 (virtPage % 2)) + (0x800 <<< 1) else w

theorem pageAt_eq_view (p : Proc) (prog : Bool) (virtPage : Fin 16) :
    pageAt p prog virtPage = view prog virtPage (entryAt p prog virtPage) := by
  cases prog <;> simp [pageAt, view, entryAt, entryOf]

theorem view_prog_toNat (virtPage : Fin 16) {w : Word} (small : w.toNat ≤ 0xff) :
    (view true virtPage w).toNat = 0x1000 + 2 * w.toNat + virtPage % 2 := by
  have half : (virtPage : Nat) % 2 < 2 ^ 1 := Nat.mod_lt _ (by decide)
  have bit : (BitVec.ofNat 16 (virtPage % 2)).toNat = virtPage % 2 := word_ofNat_toNat (by omega)
  have shifted : (w <<< 1).toNat = w.toNat <<< 1 := by
    rw [BitVec.toNat_shiftLeft, Nat.mod_eq_of_lt]
    rw [Nat.shiftLeft_eq]
    omega
  have joined : (w <<< 1 ||| BitVec.ofNat 16 (virtPage % 2)).toNat = 2 * w.toNat + virtPage % 2 := by
    rw [BitVec.toNat_or, shifted, bit, ← Nat.shiftLeft_add_eq_or_of_lt half, Nat.shiftLeft_eq]
    omega
  have base : (view true virtPage w).toNat = (2 * w.toNat + virtPage % 2 + 0x1000) % 2 ^ 16 := by
    rw [← joined]
    exact BitVec.toNat_add _ _
  rw [base]
  omega

@[simp] theorem view_data (virtPage : Fin 16) (w : Word) : view false virtPage w = w := rfl

@[simp] theorem entryAt_data (p : Proc) (virtPage : Fin 16) :
    entryAt p false virtPage = p.procState.memPages virtPage := rfl

@[simp] theorem entryAt_prog (p : Proc) (virtPage : Fin 16) :
    entryAt p true virtPage = p.procState.progPages (entryOf true virtPage) := rfl

theorem entryAt_congr (p : Proc) {prog : Bool} {virtPage virtPage' : Fin 16}
    (same : entryOf prog virtPage = entryOf prog virtPage') : entryAt p prog virtPage = entryAt p prog virtPage' := by
  cases prog with
  | true => exact congrArg p.procState.progPages same
  | false => exact congrArg p.procState.memPages same

def firstPage (prog : Bool) : Nat := if prog then 0x11 else 0x211

section Exclusive

variable {s : PageState} {c d : Nat} {p q : Proc}

theorem memPages_lt (data : DataInv s) (here : s.kernel.procs[c]? = some p) (entry : Fin 16) :
    (p.procState.memPages entry).toNat < s.kernel.pages.firstFreePage.toNat := by
  have held : cell (fun h entry => (h.data entry).map BitVec.toNat) s.table (c, DataEntry.mem entry) =
      some (p.procState.memPages entry).toNat := by
    simp [cell, PageState.table, here, holdings, Holdings.data]
  exact (data.ledger.known _ _ held).resolve_right id

theorem progPages_le (prog : ProgInv s) (here : s.kernel.procs[c]? = some p) (entry : Fin 16) :
    (p.procState.progPages entry).toNat ≤ 0xff := by
  have held : cell (fun h entry => some (h.prog entry).toNat) s.table (c, entry) =
      some (p.procState.progPages entry).toNat := by
    simp [cell, PageState.table, here, holdings]
  have ahead : s.kernel.pages.firstFreeProgPage.toNat ≤ 0xff := prog.ledger.ahead _ rfl
  rcases prog.ledger.known _ _ held with below | mark
  · exact (Nat.le_of_lt below).trans ahead
  · exact Nat.le_of_eq mark

theorem pageAt_inj (data : DataInv s) (prog : ProgInv s) (atC : s.kernel.procs[c]? = some p)
    (atD : s.kernel.procs[d]? = some q) {spaceP spaceQ : Bool} {pageP pageQ : Fin 16}
    (fresh : firstPage spaceQ ≤ (entryAt q spaceQ pageQ).toNat) (mapped : entryAt q spaceQ pageQ ≠ unmappedPage)
    (same : pageAt p spaceP pageP = pageAt q spaceQ pageQ) : c = d ∧ spaceP = spaceQ ∧ pageP = pageQ := by
  have counter := data.counter_le
  have values := congrArg BitVec.toNat same
  rw [pageAt_eq_view, pageAt_eq_view] at values
  cases spaceP with
  | false =>
    have lowP := memPages_lt data atC pageP
    rw [view_data, entryAt_data] at values
    cases spaceQ with
    | false =>
      rw [view_data, entryAt_data] at values
      have slots := data.ledger.single (c, .mem pageP) (d, .mem pageQ) (q.procState.memPages pageQ).toNat
        fresh (memPages_lt data atD pageQ)
        (by simpa [cell, PageState.table, atC, holdings, Holdings.data] using values)
        (by simp [cell, PageState.table, atD, holdings, Holdings.data])
      simp only [Prod.mk.injEq, DataEntry.mem.injEq] at slots
      exact ⟨slots.1, rfl, slots.2⟩
    | true =>
      rw [entryAt_prog, view_prog_toNat pageQ (progPages_le prog atD _)] at values
      omega
  | true =>
    rw [entryAt_prog, view_prog_toNat pageP (progPages_le prog atC _)] at values
    cases spaceQ with
    | false =>
      have lowQ := memPages_lt data atD pageQ
      rw [view_data, entryAt_data] at values
      omega
    | true =>
      rw [entryAt_prog, view_prog_toNat pageQ (progPages_le prog atD _)] at values
      rw [entryAt_prog] at fresh mapped
      have equal : (p.procState.progPages (entryOf true pageP)).toNat =
          (q.procState.progPages (entryOf true pageQ)).toNat := by omega
      have held : cell (fun h entry => some (h.prog entry).toNat) s.table (d, entryOf true pageQ) =
          some (q.procState.progPages (entryOf true pageQ)).toNat := by
        simp [cell, PageState.table, atD, holdings]
      have below := (prog.ledger.known _ _ held).resolve_right
        fun mark => mapped (BitVec.eq_of_toNat_eq mark)
      have slots := prog.ledger.single (c, entryOf true pageP) (d, entryOf true pageQ)
        (q.procState.progPages (entryOf true pageQ)).toNat fresh below
        (by simpa [cell, PageState.table, atC, holdings] using equal) held
      simp only [Prod.mk.injEq, entryOf, if_true, Fin.mk.injEq] at slots
      exact ⟨slots.1, rfl, Fin.ext (by omega)⟩

end Exclusive

structure Placed (k : KernelState) (p : Proc) (image : Image) : Prop extends Shows k p image where
  fresh : ∀ prog virtPage, image.mapped prog virtPage = true → firstPage prog ≤ (entryAt p prog virtPage).toNat
  stored : ∀ prog virtPage a b, image.bytes prog virtPage a = some b → image.mapped prog virtPage = true

def PagesInOrder (k : KernelState) : Prop := ∃ s : PageState, s.kernel = k ∧ DataInv s ∧ ProgInv s

section Kernels

variable {k k' : KernelState} {p q : Proc} {image : Image} {stale : Proc} {prog : Bool}

theorem PagesInOrder.mapped {loads : Prop} (order : PagesInOrder k) (mapped : Mapped loads k k')
    (free : loads → k.pages.firstFreeProgPage ≠ unmappedPage) : PagesInOrder k' := by
  obtain ⟨s, rfl, data, prog⟩ := order
  have effect : Effect loads s (s.advance k') := mapped.effect data.heap id
  exact ⟨s.advance k', rfl, effect.dataInv data, effect.progInv prog free⟩

theorem PagesInOrder.schedInitUserThread (order : PagesInOrder k)
    (made : schedInitUserThread k stale = .ok k') : PagesInOrder k' := by
  obtain ⟨s, rfl, data, prog⟩ := order
  have taken : pageStep s (.schedInitUserThread stale) = some (s.advance k') := by
    simp [pageStep, made, Except.toOption]
  have free : ProgPageFree s (.schedInitUserThread stale) := fun takes => False.elim takes
  exact ⟨s.advance k', rfl, step_dataInv data taken, step_progInv data prog free taken⟩

theorem Placed.of_phys (placed : Placed k p image)
    (same : ∀ prog virtPage, image.mapped prog virtPage = true →
      k'.phys (pageAt p prog virtPage) = k.phys (pageAt p prog virtPage)) : Placed k' p image where
  pc := placed.pc
  loadBrk := placed.loadBrk
  mapped := placed.mapped
  bytes prog virtPage a b holds := by
    rw [same prog virtPage (placed.stored _ _ _ _ holds)]
    exact placed.bytes prog virtPage a b holds
  fresh := placed.fresh
  stored := placed.stored

theorem Placed.map {virtPage : Fin 16} {w : Word} (placed : Placed k p image)
    (phys : k'.phys = k.phys) (pc : q.procState.pc = p.procState.pc) (loadBrk : q.loadBrk = p.loadBrk)
    (empty : entryAt p prog virtPage = unmappedPage) (taken : w ≠ unmappedPage) (range : firstPage prog ≤ w.toNat)
    (entries : ∀ prog' virtPage', entryAt q prog' virtPage' =
      if prog' = prog ∧ entryOf prog' virtPage' = entryOf prog virtPage then w else entryAt p prog' virtPage') :
    Placed k' q (image.map prog virtPage) := by
  have others : ∀ prog' virtPage', image.mapped prog' virtPage' = true →
      entryAt q prog' virtPage' = entryAt p prog' virtPage' := by
    intro prog' virtPage' before
    rw [entries, if_neg]
    rintro ⟨rfl, entry⟩
    exact (placed.mapped _ _).mp before ((entryAt_congr p entry).trans empty)
  refine ⟨⟨pc.trans placed.pc, loadBrk.trans placed.loadBrk, ?_, ?_⟩, ?_, ?_⟩
  · intro prog' virtPage'
    simp only [Image.map, Bool.or_eq_true, Bool.and_eq_true, decide_eq_true_eq]
    rw [entries, placed.mapped]
    by_cases here : prog' = prog ∧ entryOf prog' virtPage' = entryOf prog virtPage
    · obtain ⟨rfl, entry⟩ := here
      simp [entry, taken]
    · simp [here]
  · intro prog' virtPage' a b holds
    have before := placed.stored prog' virtPage' a b holds
    rw [pageAt_eq_view, others _ _ before, ← pageAt_eq_view, phys]
    exact placed.bytes prog' virtPage' a b holds
  · intro prog' virtPage' now
    by_cases before : image.mapped prog' virtPage' = true
    · rw [others _ _ before]
      exact placed.fresh prog' virtPage' before
    · simp only [Image.map, Bool.or_eq_true, Bool.and_eq_true, decide_eq_true_eq] at now
      have here := now.resolve_left before
      rw [entries, if_pos here, here.1]
      exact range
  · intro prog' virtPage' a b holds
    simp only [Image.map, Bool.or_eq_true]
    exact Or.inl (placed.stored prog' virtPage' a b holds)

theorem PagesInOrder.unmapped_lt (order : PagesInOrder k) :
    firstPage false ≤ k.pages.firstFreePage.toNat ∧ firstPage true ≤ k.pages.firstFreeProgPage.toNat := by
  obtain ⟨s, rfl, data, prog⟩ := order
  exact ⟨data.ledger.base_le, prog.ledger.base_le⟩

variable {c d : Nat} {vaddr : Word}

theorem Placed.write_other (order : PagesInOrder k) (atC : k.procs[c]? = some p) (atD : k.procs[d]? = some q)
    (placed : Placed k q image) (other : c ≠ d) (prog : Bool) (virtPage : Fin 16) (start : Word) (data : List Byte) :
    Placed { k with phys := writePage k.phys (pageAt p prog virtPage) start data } q image := by
  obtain ⟨s, rfl, dataInv, progInv⟩ := order
  refine placed.of_phys ?_
  intro prog' virtPage' mapped
  funext a
  simp only [writePage]
  rw [if_neg]
  rintro ⟨same, -⟩
  exact other (pageAt_inj dataInv progInv atC atD (placed.fresh _ _ mapped) ((placed.mapped _ _).mp mapped)
    same.symm).1

theorem Placed.write (order : PagesInOrder k) (here : k.procs[c]? = some p) (placed : Placed k p image)
    (prog : Bool) (virtPage : Fin 16) (start : Word) (data : List Byte) :
    Placed { k with phys := writePage k.phys (pageAt p prog virtPage) start data } p
      (image.write prog virtPage start data) := by
  obtain ⟨s, rfl, dataInv, progInv⟩ := order
  refine ⟨⟨placed.pc, placed.loadBrk, placed.mapped, ?_⟩, placed.fresh, ?_⟩
  · intro prog' virtPage' a b holds
    simp only [Image.write] at holds
    split at holds
    · rename_i inside
      obtain ⟨mapped, rfl, rfl, after⟩ := inside
      simp only [writePage, true_and, if_pos after, List.getD_eq_getElem?_getD]
      cases stored : data[a.toNat - start.toNat]? with
      | some byte => simpa [stored] using holds
      | none =>
        simp only [stored, Option.none_or] at holds
        exact placed.bytes _ _ _ _ holds
    · rename_i outside
      have mapped := placed.stored _ _ _ _ holds
      simp only [writePage]
      rw [if_neg]
      · exact placed.bytes _ _ _ _ holds
      · rintro ⟨same, after⟩
        obtain ⟨-, rfl, rfl⟩ := pageAt_inj dataInv progInv here here (placed.fresh _ _ mapped)
          ((placed.mapped _ _).mp mapped) same.symm
        exact outside ⟨mapped, rfl, rfl, after⟩
  · intro prog' virtPage' a b holds
    simp only [Image.write] at holds
    split at holds
    · rename_i inside
      obtain ⟨mapped, rfl, rfl, -⟩ := inside
      exact mapped
    · exact placed.stored _ _ _ _ holds

theorem Placed.new (order : PagesInOrder k) (made : schedInitUserThread k stale = .ok k') :
    ∃ p, k'.procs = k.procs ++ [p] ∧ k'.phys = k.phys ∧ Placed k' p (.new stale.loadBrk) := by
  have range := order.unmapped_lt.1
  unfold schedInitUserThread at made
  cases first : kmalloc k.heap (BitVec.ofNat 16 sizeofProc) with
  | error stop => simp [first, bind, Except.bind] at made
  | ok out =>
    cases second : kmalloc out.2 (BitVec.ofNat 16 sizeofListNode) with
    | error stop => simp [first, second, bind, Except.bind] at made
    | ok node =>
      simp only [first, second, bind, Except.bind, Except.ok.injEq] at made
      subst made
      refine ⟨_, rfl, rfl, ⟨rfl, rfl, ?_, ?_⟩, ?_, ?_⟩
      · intro prog virtPage
        cases prog with
        | true => simp [Image.new]
        | false =>
          have taken : k.pages.firstFreePage ≠ unmappedPage := by
            intro mark
            rw [mark] at range
            exact absurd range (by decide)
          by_cases stack : virtPage = 15
          · simp [Image.new, stack, taken]
          · simp [Image.new, stack]
      · intro prog virtPage a b holds
        cases holds
      · intro prog virtPage mapped
        simp only [Image.new, Bool.and_eq_true, Bool.not_eq_true', decide_eq_true_eq] at mapped
        obtain ⟨rfl, rfl⟩ := mapped
        exact range
      · intro prog virtPage a b holds
        cases holds

def nextPage (k : KernelState) (prog : Bool) : Word :=
  if prog then k.pages.firstFreeProgPage else k.pages.firstFreePage

theorem PagesInOrder.nextPage_ge (order : PagesInOrder k) (prog : Bool) : firstPage prog ≤ (nextPage k prog).toNat := by
  cases prog with
  | true => exact order.unmapped_lt.2
  | false => exact order.unmapped_lt.1

theorem PagesInOrder.nextPage_ne (order : PagesInOrder k)
    (free : prog = true → k.pages.firstFreeProgPage ≠ unmappedPage) : nextPage k prog ≠ unmappedPage := by
  cases prog with
  | true => exact free rfl
  | false =>
    intro mark
    have range := order.nextPage_ge false
    rw [mark] at range
    exact absurd range (by decide)

structure TakesPage (k k' : KernelState) (c : Nat) (p q : Proc) (prog : Bool) (virtPage : Fin 16) : Prop where
  own : k'.procs[c]? = some q
  others : ∀ d ≠ c, k'.procs[d]? = k.procs[d]?
  length : k'.procs.length = k.procs.length
  phys : k'.phys = k.phys
  pc : q.procState.pc = p.procState.pc
  loadBrk : q.loadBrk = p.loadBrk
  entries : ∀ prog' virtPage', entryAt q prog' virtPage' =
    if prog' = prog ∧ entryOf prog' virtPage' = entryOf prog virtPage then nextPage k prog
    else entryAt p prog' virtPage'

theorem physPageToLoad_of_mapped
    (mapped : entryAt p prog (virtPagePart vaddr) ≠ unmappedPage) : physPageToLoad k c p vaddr prog =
      (view prog (virtPagePart vaddr) (entryAt p prog (virtPagePart vaddr)), k) := by
  cases prog with
  | true => exact if_neg mapped
  | false => exact if_neg mapped

theorem physPageToLoad_of_empty (here : k.procs[c]? = some p)
    (empty : entryAt p prog (virtPagePart vaddr) = unmappedPage) :
    (physPageToLoad k c p vaddr prog).1 = view prog (virtPagePart vaddr) (nextPage k prog) ∧
      ∃ q, TakesPage k (physPageToLoad k c p vaddr prog).2 c p q prog (virtPagePart vaddr) := by
  cases prog with
  | true =>
    rw [show physPageToLoad k c p vaddr true = (_, k.takeProgPage c (progEntry vaddr)) from if_pos empty]
    refine ⟨rfl, _, (modifyProc_self k c _).trans (congrArg _ here), fun d => modifyProc_of_ne k c _,
      modifyProc_length k c _, rfl, rfl, rfl, ?_⟩
    intro prog' virtPage'
    cases prog' with
    | true => simp [Function.update_apply, progEntry, entryOf, nextPage]
    | false => simp
  | false =>
    rw [show physPageToLoad k c p vaddr false = (_, k.takePage c (virtPagePart vaddr)) from if_pos empty]
    refine ⟨rfl, _, (modifyProc_self k c _).trans (congrArg _ here), fun d => modifyProc_of_ne k c _,
      modifyProc_length k c _, rfl, rfl, rfl, ?_⟩
    intro prog' virtPage'
    cases prog' with
    | true => simp
    | false => simp [Function.update_apply, entryOf, nextPage]

theorem Placed.physPageToLoad (order : PagesInOrder k) (here : k.procs[c]? = some p)
    (placed : Placed k p image) (vaddr : Word) (prog : Bool)
    (free : prog = true → p.procState.progPages (progEntry vaddr) = unmappedPage →
      k.pages.firstFreeProgPage ≠ unmappedPage) : ∃ q, (physPageToLoad k c p vaddr prog).2.procs[c]? = some q ∧
      Placed (physPageToLoad k c p vaddr prog).2 q (image.map prog (virtPagePart vaddr)) := by
  by_cases empty : entryAt p prog (virtPagePart vaddr) = unmappedPage
  · obtain ⟨-, q, takes⟩ := physPageToLoad_of_empty here empty
    have taken : nextPage k prog ≠ unmappedPage := by
      apply order.nextPage_ne
      rintro rfl
      exact free rfl empty
    exact ⟨q, takes.own, placed.map takes.phys takes.pc takes.loadBrk empty taken (order.nextPage_ge prog)
      takes.entries⟩
  · have after : (Kernel.physPageToLoad k c p vaddr prog).2 = k := by rw [physPageToLoad_of_mapped empty]
    have same : image.map prog (virtPagePart vaddr) = image := by
      unfold Image.map
      congr 1
      funext prog' virtPage'
      rw [Bool.or_eq_left_iff_imp]
      intro both
      simp only [Bool.and_eq_true, decide_eq_true_eq] at both
      obtain ⟨rfl, entry⟩ := both
      rw [placed.mapped, entryAt_congr p entry]
      exact empty
    rw [after, same]
    exact ⟨p, here, placed⟩

structure ChildStep (k k' : KernelState) (c : Nat) (p : Proc) (change : Image → Image) : Prop where
  order : PagesInOrder k'
  length : k'.procs.length = k.procs.length
  own : ∀ image, Placed k p image → ∃ q, k'.procs[c]? = some q ∧ Placed k' q (change image)
  others : ∀ d q image, c ≠ d → k.procs[d]? = some q → Placed k q image →
    k'.procs[d]? = some q ∧ Placed k' q image

section

variable (order : PagesInOrder k) (here : k.procs[c]? = some p)
include order here

theorem childStep_modifyProc {f : Proc → Proc} {change : Image → Image} (block : ∀ q, procBlock (f q) = procBlock q)
    (keeps : ∀ q, holdings (f q) = holdings q)
    (own : ∀ image, Placed k p image → Placed (k.modifyProc c f) (f p) (change image)) :
    ChildStep k (k.modifyProc c f) c p change where
  order :=
    have same : Mapped False k (k.modifyProc c f) := .same rfl rfl block keeps rfl
    order.mapped same False.elim
  length := modifyProc_length k c f
  own image placed := ⟨f p, by simp [here], own image placed⟩
  others d q image other there placed :=
    ⟨by rw [modifyProc_of_ne _ _ _ (Ne.symm other)]; exact there, placed.of_phys fun _ _ _ => rfl⟩

theorem childStep_setPc (pc : Word) :
    ChildStep k (k.modifyProc c fun p => { p with procState := { p.procState with pc := pc } }) c p
      fun image => { image with pc := pc } :=
  childStep_modifyProc order here (fun _ => rfl) (fun _ => rfl) fun _ placed =>
    ⟨⟨rfl, placed.loadBrk, placed.mapped, placed.bytes⟩, placed.fresh, placed.stored⟩

theorem childStep_setLoadBrk (loadBrk : Word) :
    ChildStep k (k.modifyProc c fun p => { p with loadBrk := loadBrk }) c p
      fun image => { image with loadBrk := loadBrk } :=
  childStep_modifyProc order here (fun _ => rfl) (fun _ => rfl) fun _ placed =>
    ⟨⟨placed.pc, rfl, placed.mapped, placed.bytes⟩, placed.fresh, placed.stored⟩

theorem childStep_store (prog : Bool) (virtPage : Fin 16) (start : Word) (data : List Byte) :
    ChildStep k { k with phys := writePage k.phys (pageAt p prog virtPage) start data } c p
      fun image => image.write prog virtPage start data where
  order :=
    have same : Mapped False k { k with phys := writePage k.phys (pageAt p prog virtPage) start data } :=
      ⟨rfl, rfl, .nothing⟩
    order.mapped same False.elim
  length := rfl
  own _ placed := ⟨p, here, placed.write order here prog virtPage start data⟩
  others _ _ _ other there placed := ⟨there, placed.write_other order here there other prog virtPage start data⟩

theorem childStep_physPageToLoad (vaddr : Word) (prog : Bool)
    (free : prog = true → p.procState.progPages (progEntry vaddr) = unmappedPage →
      k.pages.firstFreeProgPage ≠ unmappedPage) :
    ChildStep k (physPageToLoad k c p vaddr prog).2 c p fun image => image.map prog (virtPagePart vaddr) where
  order := order.mapped (physPageToLoad_mapped vaddr prog here) fun both => free both.1 both.2
  length := by
    by_cases empty : entryAt p prog (virtPagePart vaddr) = unmappedPage
    · obtain ⟨-, q, takes⟩ := physPageToLoad_of_empty here empty
      exact takes.length
    · rw [physPageToLoad_of_mapped empty]
  own _ placed := placed.physPageToLoad order here vaddr prog free
  others d q image other there placed := by
    by_cases empty : entryAt p prog (virtPagePart vaddr) = unmappedPage
    · obtain ⟨-, q, takes⟩ := physPageToLoad_of_empty here empty
      exact ⟨(takes.others d (Ne.symm other)).trans there, placed.of_phys fun _ _ _ => by rw [takes.phys]⟩
    · rw [physPageToLoad_of_mapped empty]
      exact ⟨there, placed⟩

end

end Kernels

section Calls

variable {ι : Type} [DecidableEq ι] {s s' : LoadShared ι} {i : ι} {a : Alone}

inductive ChildShows (k : KernelState) : Option Nat → Option Image → Prop
  | absent : ChildShows k none none
  | present {c p image} (here : k.procs[c]? = some p) (placed : Placed k p image) :
      ChildShows k (some c) (some image)

variable {k k' : KernelState} {o : LoadOp} {image : Option Image} {child : Option Nat} {answer : o.Answer}
  {buffers : Buffers} {call : LoadCall} {p : Proc} {c : Nat} {j : ι}

theorem ChildShows.change {change : Image → Image} (shows : ChildShows k child image)
    (next : ∀ c p image, child = some c → k.procs[c]? = some p → Placed k p image →
      ∃ q, k'.procs[c]? = some q ∧ Placed k' q (change image)) : ChildShows k' child (image.map change) := by
  cases shows with
  | absent => exact .absent
  | present here placed =>
    obtain ⟨q, now, after⟩ := next _ _ _ rfl here placed
    exact .present now after

theorem ChildShows.keep (shows : ChildShows k child image)
    (next : ∀ c p image, child = some c → k.procs[c]? = some p → Placed k p image →
      k'.procs[c]? = some p ∧ Placed k' p image) : ChildShows k' child image := by
  cases shows with
  | absent => exact .absent
  | present here placed =>
    obtain ⟨now, after⟩ := next _ _ _ rfl here placed
    exact .present now after

structure Agrees (s : LoadShared ι) (i : ι) (a : Alone) : Prop where
  file : (s.call i).file = a.file
  offset : (s.call i).offset = a.offset
  own : (s.call i).own = a.buffers
  staleBrk : (s.call i).stale.loadBrk = a.staleBrk
  child : ChildShows s.kernel (s.call i).child a.image

structure LoadInv (s : LoadShared ι) : Prop where
  order : PagesInOrder s.kernel
  inside : ∀ i c, (s.call i).child = some c → c < s.kernel.procs.length
  distinct : ∀ i j c, (s.call i).child = some c → (s.call j).child = some c → i = j

structure Sound (s : LoadShared ι) (i : ι) (o : LoadOp) (out : o.Answer × LoadShared ι) : Prop where
  keeps : LoadInv out.2
  own : ∀ a, Agrees s i a → (handle o a).1 = out.1 ∧ Agrees out.2 i (handle o a).2
  others : ∀ j a, j ≠ i → Agrees s j a → Agrees out.2 j a

theorem setCall_self (call : LoadCall) : (s.setCall i call).call i = call := by
  simp [LoadShared.setCall]

theorem setCall_of_ne (call : LoadCall) (other : j ≠ i) : (s.setCall i call).call j = s.call j := by
  simp [LoadShared.setCall, other]

theorem setCall_child (same : call.child = (s.call i).child) (j : ι) :
    ((s.setCall i call).call j).child = (s.call j).child := by
  by_cases own : j = i
  · rw [own, setCall_self, same]
  · rw [setCall_of_ne call own]

omit [DecidableEq ι]

theorem LoadInv.of_child (inv : LoadInv s) (order : PagesInOrder s'.kernel)
    (length : s'.kernel.procs.length = s.kernel.procs.length)
    (child : ∀ j, (s'.call j).child = (s.call j).child) : LoadInv s' := by
  refine ⟨order, ?_, ?_⟩
  · intro j c holds
    rw [length]
    exact inv.inside j c (child j ▸ holds)
  · intro j l c first second
    exact inv.distinct j l c (child j ▸ first) (child l ▸ second)

theorem Agrees.of_call (agrees : Agrees s j a) (call : s'.call j = s.call j)
    (child : ChildShows s'.kernel (s.call j).child a.image) : Agrees s' j a where
  file := call ▸ agrees.file
  offset := call ▸ agrees.offset
  own := call ▸ agrees.own
  staleBrk := call ▸ agrees.staleBrk
  child := call ▸ child

theorem childOf_eq_some : s.childOf i = some (c, p) ↔ (s.call i).child = some c ∧ s.kernel.procs[c]? = some p := by
  simp only [LoadShared.childOf, Option.bind_eq_some_iff, Option.map_eq_some_iff, Prod.mk.injEq]
  constructor
  · rintro ⟨c, child, p, here, rfl, rfl⟩
    exact ⟨child, here⟩
  · rintro ⟨child, here⟩
    exact ⟨c, child, p, here, rfl, rfl⟩

theorem sound_childStep {change : Image → Image} (inv : LoadInv s) (child : s.childOf i = some (c, p))
    (step : ChildStep s.kernel k' c p change)
    (handled : ∀ a, handle o a = (answer, { a with image := a.image.map change })) :
    Sound s i o (answer, { s with kernel := k' }) := by
  obtain ⟨held, here⟩ := childOf_eq_some.mp child
  refine ⟨inv.of_child step.order step.length fun _ => rfl, ?_, ?_⟩
  · intro a agrees
    rw [handled]
    refine ⟨rfl, ⟨agrees.file, agrees.offset, agrees.own, agrees.staleBrk, ?_⟩⟩
    refine agrees.child.change ?_
    intro d q image held' there placed
    obtain rfl : c = d := Option.some.inj (held.symm.trans held')
    obtain rfl : p = q := Option.some.inj (here.symm.trans there)
    exact step.own image placed
  · intro j a other agrees
    refine agrees.of_call rfl (agrees.child.keep ?_)
    intro d q image held' there placed
    have apart : c ≠ d := fun same => other (inv.distinct j i d held' (same ▸ held))
    exact step.others d q image apart there placed

theorem sound_setCall [DecidableEq ι]
    (inv : LoadInv s) (child : call.child = (s.call i).child) (stale : call.stale = (s.call i).stale)
    (handled : ∀ a, Agrees s i a →
      handle o a = (answer, { a with file := call.file, offset := call.offset, buffers := call.own })) :
    Sound s i o (answer, { s.setCall i call with buffers := buffers }) := by
  refine ⟨inv.of_child inv.order rfl (setCall_child child), ?_, ?_⟩
  · intro a agrees
    rw [handled a agrees]
    refine ⟨rfl, ?_⟩
    have own : ({ s.setCall i call with buffers := buffers } : LoadShared ι).call i = call := setCall_self call
    refine ⟨by rw [own], by rw [own], by rw [own], ?_, ?_⟩
    · rw [own, stale]
      exact agrees.staleBrk
    · rw [own, child]
      exact agrees.child
  · intro j a other agrees
    exact agrees.of_call (setCall_of_ne call other) agrees.child

theorem sound_same (inv : LoadInv s)
    (handled : ∀ a, Agrees s i a → handle o a = (answer, a)) : Sound s i o (answer, s) := by
  refine ⟨inv, ?_, fun _ _ _ agrees => agrees⟩
  intro a agrees
  rw [handled a agrees]
  exact ⟨rfl, agrees⟩

theorem sound_schedInitUserThread [DecidableEq ι] (inv : LoadInv s)
    (made : schedInitUserThread s.kernel (s.call i).stale = .ok k') : Sound s i .schedInitUserThread
      ((), { s.setCall i { s.call i with child := some s.kernel.procs.length } with kernel := k' }) := by
  obtain ⟨p, procs, phys, placed⟩ := Placed.new inv.order made
  have others : ∀ (d : Nat) q image, s.kernel.procs[d]? = some q → Placed s.kernel q image →
      k'.procs[d]? = some q ∧ Placed k' q image := by
    intro d q image there placed
    have inside := (List.getElem?_eq_some_iff.mp there).1
    refine ⟨?_, placed.of_phys fun _ _ _ => by rw [phys]⟩
    rw [procs, List.getElem?_append_left inside, there]
  have children : ∀ j c, (({ s.setCall i { s.call i with child := some s.kernel.procs.length } with
      kernel := k' } : LoadShared ι).call j).child = some c →
      (j = i ∧ c = s.kernel.procs.length) ∨ (j ≠ i ∧ (s.call j).child = some c) := by
    intro j c held
    by_cases own : j = i
    · subst own
      rw [setCall_self] at held
      exact Or.inl ⟨rfl, (Option.some.inj held).symm⟩
    · rw [setCall_of_ne _ own] at held
      exact Or.inr ⟨own, held⟩
  refine ⟨⟨inv.order.schedInitUserThread made, ?_, ?_⟩, ?_, ?_⟩
  · intro j c held
    change c < k'.procs.length
    rw [procs, List.length_append, List.length_singleton]
    rcases children j c held with ⟨rfl, rfl⟩ | ⟨-, before⟩
    · exact Nat.lt_succ_self _
    · exact Nat.lt_succ_of_lt (inv.inside j c before)
  · intro j l c first second
    rcases children j c first with ⟨rfl, rfl⟩ | ⟨-, beforeJ⟩ <;>
      rcases children l _ second with ⟨rfl, last⟩ | ⟨-, beforeL⟩
    · rfl
    · exact absurd (inv.inside l _ beforeL) (Nat.lt_irrefl _)
    · exact absurd (last ▸ inv.inside j c beforeJ) (Nat.lt_irrefl _)
    · exact inv.distinct j l c beforeJ beforeL
  · intro a agrees
    refine ⟨rfl, ?_⟩
    have own : ({ s.setCall i { s.call i with child := some s.kernel.procs.length } with
        kernel := k' } : LoadShared ι).call i = { s.call i with child := some s.kernel.procs.length } :=
      setCall_self _
    refine ⟨by rw [own]; exact agrees.file, by rw [own]; exact agrees.offset, by rw [own]; exact agrees.own,
      by rw [own]; exact agrees.staleBrk, ?_⟩
    rw [own]
    refine .present (p := p) ?_ ?_
    · change k'.procs[s.kernel.procs.length]? = some p
      rw [procs, List.getElem?_append_right (Nat.le_refl _), Nat.sub_self]
      rfl
    · rw [← agrees.staleBrk]
      exact placed
  · intro j a other agrees
    refine agrees.of_call (setCall_of_ne _ other) (agrees.child.keep ?_)
    intro d q image _ there placed
    exact others d q image there placed

theorem serveLoad_sound [DecidableEq ι] {out : o.Answer × LoadShared ι} (inv : LoadInv s)
    (undisturbed : Undisturbed s i o) (served : serveLoad s i o = some out) : Sound s i o out := by
  cases o with
  | vfsReadBlocking b size =>
    cases served
    refine sound_setCall inv rfl rfl ?_
    intro a agrees
    simp only [handle, agrees.file, agrees.offset, agrees.own]
  | fetch b count =>
    cases served
    refine sound_same inv ?_
    intro a agrees
    rw [show s.buffers.first b count = (s.call i).own.first b count from undisturbed, agrees.own]
    rfl
  | vfsSeekCur =>
    cases served
    refine sound_same inv ?_
    intro a agrees
    rw [agrees.offset]
    rfl
  | vfsSeekSet offset =>
    cases served
    by_cases negative : offset.toInt < 0
    · rw [if_pos negative]
      refine sound_same inv ?_
      intro a agrees
      simp [handle, negative]
    · rw [if_neg negative]
      have moved : Sound s i (.vfsSeekSet offset)
          ((), { s.setCall i { s.call i with offset := offset } with buffers := s.buffers }) := by
        refine sound_setCall inv rfl rfl ?_
        intro a agrees
        simp [handle, negative, agrees.file, agrees.own]
      exact moved
  | schedInitUserThread =>
    obtain ⟨k', made, rfl⟩ := Option.map_eq_some_iff.mp served
    exact sound_schedInitUserThread inv (toOption_eq_some.mp made)
  | setPc pc =>
    obtain ⟨⟨c, p⟩, child, rfl⟩ := Option.map_eq_some_iff.mp served
    exact sound_childStep inv child (childStep_setPc inv.order (childOf_eq_some.mp child).2 pc) fun _ => rfl
  | physPageToLoad vaddr prog =>
    obtain ⟨⟨c, p⟩, child, rfl⟩ := Option.map_eq_some_iff.mp served
    refine sound_childStep inv child
      (childStep_physPageToLoad inv.order (childOf_eq_some.mp child).2 vaddr prog ?_) fun _ => rfl
    rintro rfl empty
    have either : _ ∨ s.kernel.pages.firstFreeProgPage ≠ unmappedPage := undisturbed
    rw [child] at either
    exact either.resolve_left (by simp [empty])
  | store vaddr prog start bytes =>
    obtain ⟨⟨c, p⟩, child, rfl⟩ := Option.map_eq_some_iff.mp served
    exact sound_childStep inv child
      (childStep_store inv.order (childOf_eq_some.mp child).2 prog (virtPagePart vaddr) start bytes) fun _ => rfl
  | setLoadBrk loadBrk =>
    obtain ⟨⟨c, p⟩, child, rfl⟩ := Option.map_eq_some_iff.mp served
    exact sound_childStep inv child
      (childStep_setLoadBrk inv.order (childOf_eq_some.mp child).2 loadBrk) fun _ => rfl

theorem serveLoad_separates [DecidableEq ι] :
    Separates handle (serveLoad (ι := ι)) LoadInv Agrees Undisturbed where
  keeps _ _ _ _ inv undisturbed served := (serveLoad_sound inv undisturbed served).keeps
  own _ _ _ _ a inv undisturbed served := (serveLoad_sound inv undisturbed served).own a
  others _ _ _ _ j a inv undisturbed served := (serveLoad_sound inv undisturbed served).others j a

theorem LoadInv.start (order : PagesInOrder k) (buffers : Buffers)
    (files : ι → List Byte) (stale : ι → Proc) : LoadInv (loadStart k buffers files stale).shared := by
  refine ⟨order, ?_, ?_⟩
  · intro i c held
    cases held
  · intro i j c held
    cases held

theorem onCourse_start (k : KernelState) (buffers : Buffers) (files : ι → List Byte) (stale : ι → Proc) :
    OnCourse handle Agrees (fun i => loadedAlone (files i) buffers (stale i)) (loadStart k buffers files stale) :=
  fun i => ⟨aloneStart (files i) buffers (stale i), ⟨rfl, rfl, rfl, rfl, .absent⟩, rfl⟩

theorem loadsApart_of_onCourse {s : LoadState ι} {files : ι → List Byte} {stale : ι → Proc}
    (course : OnCourse handle Agrees (fun i => loadedAlone (files i) buffers (stale i)) s) :
    LoadsApart files buffers stale s := by
  intro i result ended
  obtain ⟨equal, agrees⟩ := course.result ended
  refine ⟨equal.symm, ?_⟩
  intro image final
  have shows := agrees.child
  rw [final] at shows
  cases held : (s.shared.call i).child with
  | none =>
    rw [held] at shows
    cases shows
  | some c =>
    rw [held] at shows
    cases shows with
    | present here placed =>
      refine ⟨_, ?_, placed.toShows⟩
      rw [childOf_eq_some.mpr ⟨held, here⟩]
      rfl

end Calls

theorem pagesInOrder_of_run {phys : PhysMem} {ops : List PageOp} {s : PageState}
    (free : Guarded pageStep ProgPageFree (initPages phys) ops)
    (reached : run pageStep (initPages phys) ops = some s) : PagesInOrder s.kernel := by
  have kept := throughout_of_guarded (I := fun s => DataInv s ∧ ProgInv s)
    (fun s op s' inv free taken => ⟨step_dataInv inv.1 taken, step_progInv inv.1 inv.2 free taken⟩)
    ⟨dataInv_init phys, progInv_init phys⟩ free
  exact ⟨s, rfl, throughout_iff.mp kept ops (List.prefix_refl ops) s reached⟩

theorem loads_apart_of_undisturbed {ι : Type} [DecidableEq ι] {phys : PhysMem} {ops : List PageOp}
    {s : PageState} (free : Guarded pageStep ProgPageFree (initPages phys) ops)
    (reached : run pageStep (initPages phys) ops = some s) (buffers : Buffers) (files : ι → List Byte)
    (stale : ι → Proc) (schedule : List ι)
    (undisturbed : Guarded loadStep (AtOp Undisturbed) (loadStart s.kernel buffers files stale) schedule) :
    Throughout loadStep (LoadsApart files buffers stale) (loadStart s.kernel buffers files stale) schedule := by
  have course := onCourse_of_guarded serveLoad_separates
    (LoadInv.start (pagesInOrder_of_run free reached) buffers files stale)
    (onCourse_start s.kernel buffers files stale) undisturbed
  exact throughout_mono (fun _ => loadsApart_of_onCourse) course

def oneInstruction (entry : Byte) : List Byte :=
  [0x7f, 0x45, 0x4c, 0x46, 1, 1, 1, 0, 0, 0, 0, 0, 0, 0, 0, 0, 2, 0, 0x88, 0x08, 1, 0, 0, 0, entry, 0, 0, 0,
    56, 0, 0, 0, 0, 0, 0, 0, 0, 0, 0, 0, 52, 0, 32, 0, 1, 0, 40, 0, 0, 0, 0, 0, 0, 0, 0, 0] ++
  [1, 0, 0, 0, 88, 0, 0, 0, 0, 0, 0, 0, 0, 0, 0, 0, 4, 0, 0, 0, 4, 0, 0, 0, 5, 0, 0, 0, 0, 0, 0, 0] ++
  [entry, 1, 2, 3]

def callers : List PageOp := [.schedInitUserThread .zero, .schedInitUserThread .zero]

def callersState : PageState :=
  (run pageStep (initPages fun _ _ => 0) callers).get (by decide +kernel)

def callersFiles : Bool → List Byte
  | false => oneInstruction 4
  | true => oneInstruction 8

def twoLoads : LoadState Bool := loadStart callersState.kernel noBytes callersFiles fun _ => .zero

theorem callers_free : Guarded pageStep ProgPageFree (initPages fun _ _ => 0) callers :=
  fun _ _ => ⟨False.elim, fun _ _ => ⟨False.elim, trivial⟩⟩

def endOf {ι : Type} (s : LoadState ι) (i : ι) : Option LoadEnd :=
  match s.script i with
  | .done result => some result
  | .op _ _ => none

theorem loads_apart_in_turn :
    (run loadStep twoLoads (List.replicate 18 false ++ List.replicate 18 true)).map (fun s => (endOf s false, endOf s true)) =
        some (some .proc, some .proc) ∧
      Throughout loadStep (LoadsApart callersFiles noBytes fun _ => .zero) twoLoads
        (List.replicate 18 false ++ List.replicate 18 true) :=
  ⟨by decide +kernel, loads_apart_of_undisturbed callers_free (Option.some_get _).symm _ _ _ _ (by decide +kernel)⟩

theorem endOf_eq_some {ι : Type} {s : LoadState ι} {i : ι} {result : LoadEnd} :
    endOf s i = some result ↔ s.script i = .done result := by
  unfold endOf
  cases s.script i with
  | done other => simp
  | op o next => simp

theorem header_replaced_during_read :
    ¬ Throughout loadStep (LoadsApart callersFiles noBytes fun _ => .zero) twoLoads
      ([false, true] ++ List.replicate 17 false) := by
  intro apart
  have reached : (run loadStep twoLoads ([false, true] ++ List.replicate 17 false)).map (fun s =>
      (endOf s false, (s.shared.childOf false).map fun child => child.2.procState.pc)) =
      some (some .proc, some 8) := by decide +kernel
  have alone : (loadedAlone (callersFiles false) noBytes .zero).2.image.map Image.pc = some 4 := by
    decide +kernel
  obtain ⟨s, action, values⟩ := Option.map_eq_some_iff.mp reached
  obtain ⟨ended, loaded⟩ := Prod.mk.inj values
  obtain ⟨image, final, pc⟩ := Option.map_eq_some_iff.mp alone
  have last := throughout_iff.mp apart _ (List.prefix_refl _) s action false .proc (endOf_eq_some.mp ended)
  obtain ⟨p, child, shows⟩ := last.2 image final
  obtain ⟨⟨c, q⟩, found, rfl⟩ := Option.map_eq_some_iff.mp child
  rw [found, Option.map_some, Option.some.injEq] at loaded
  have same := shows.pc
  rw [loaded, pc] at same
  exact absurd same (by decide)

end PiOS.Proof.Loads
