import PiOS.Proof.ElfLoad
import PiOS.Proof.UserWindow

namespace PiOS.Proof.ZeroFill
open Kernel Blocks Transition Pages Loads ElfPages ElfImage Function
  PiOS.Proof.ElfLoad
open UserWindow (flat_storeByte kernelTable_inside)

/-- Of the bytes the kernel can reach, only `len` from `off` on have changed. -/
def ClearsOnly (memPages : Fin 16 → Word) (off len : Word) (phys phys' : PhysMem) : Prop :=
  ∀ x, (∀ j < len.toNat, x ≠ placeOf memPages (off + BitVec.ofNat 16 j)) → flat phys' x = flat phys x

section ZeroPage

variable {memPages : Fin 16 → Word} {phys : PhysMem} {off len : Word} {x : Word × Word} {n : Nat}

theorem storeU16_kept (low : x ≠ placeOf memPages off) (high : x ≠ placeOf memPages (off + 1)) (w : Word) :
    flat (storeU16 memPages phys off w) x = flat phys x := by
  rw [storeU16, flat_storeByte, flat_storeByte, update_of_ne high, update_of_ne low]

theorem storeU16_cleared (hit : x = placeOf memPages off ∨ x = placeOf memPages (off + 1) ∨ flat phys x = 0) :
    flat (storeU16 memPages phys off 0) x = 0 := by
  rw [storeU16, flat_storeByte, flat_storeByte, update_apply, update_apply]
  split
  · rfl
  · split
    · rfl
    · rename_i high low
      exact (hit.resolve_left low).resolve_left high

theorem next_place (j : Nat) : off + 1 + BitVec.ofNat 16 j = off + BitVec.ofNat 16 (j + 1) := by
  rw [BitVec.add_assoc, BitVec.add_comm 1, BitVec.ofNat_add]
  rfl

theorem zeroPageLoop_kept (outside : ∀ j ≤ n, x ≠ placeOf memPages (off + BitVec.ofNat 16 j)) :
    flat (zeroPageLoop memPages n off phys) x = flat phys x := by
  induction n generalizing off phys with
  | zero => rfl
  | succ n ih =>
    have first : x ≠ placeOf memPages off := by
      have here := outside 0 (Nat.zero_le _)
      rwa [BitVec.add_zero] at here
    have second := outside 1 (by omega)
    rw [zeroPageLoop, ih, storeU16_kept first second]
    intro j inside
    rw [next_place]
    exact outside (j + 1) (by omega)

theorem zeroPageLoop_cleared
    (inside : (∃ j ≤ n, 0 < n ∧ x = placeOf memPages (off + BitVec.ofNat 16 j)) ∨ flat phys x = 0) :
    flat (zeroPageLoop memPages n off phys) x = 0 := by
  induction n generalizing off phys with
  | zero =>
    rcases inside with ⟨j, -, none, -⟩ | zero
    · exact absurd none (Nat.lt_irrefl 0)
    · exact zero
  | succ n ih =>
    apply ih
    rcases inside with ⟨j, small, -, rfl⟩ | zero
    · match j with
      | 0 =>
        rw [BitVec.add_zero]
        exact .inr (storeU16_cleared (.inl rfl))
      | 1 => exact .inr (storeU16_cleared (.inr (.inl rfl)))
      | j + 2 => exact .inl ⟨j + 1, by omega, by omega, by rw [next_place]⟩
    · exact .inr (storeU16_cleared (.inr (.inr zero)))

theorem clearsOnly_iff (memPages : Fin 16 → Word) (phys : PhysMem) (off len : Word) :
    ClearsOnly memPages off len phys (zeroPageLoop memPages len.toNat off phys) ↔
      len = 0 ∨ (∃ j < len.toNat, placeOf memPages (off + len) = placeOf memPages (off + BitVec.ofNat 16 j)) ∨
        flat phys (placeOf memPages (off + len)) = 0 := by
  have last : BitVec.ofNat 16 len.toNat = len := by rw [BitVec.ofNat_toNat, BitVec.setWidth_eq]
  constructor
  · intro confined
    by_cases none : len = 0
    · exact .inl none
    · by_cases shared : ∃ j < len.toNat, placeOf memPages (off + len) = placeOf memPages (off + BitVec.ofNat 16 j)
      · exact .inr (.inl shared)
      · push Not at shared
        have positive : 0 < len.toNat := word_pos none
        rw [← confined _ shared]
        exact .inr (.inr (zeroPageLoop_cleared (.inl ⟨len.toNat, le_rfl, positive, by rw [last]⟩)))
  · intro harmless y outside
    by_cases none : len = 0
    · rw [none]
      rfl
    · by_cases next : y = placeOf memPages (off + len)
      · rcases (harmless.resolve_left none) with ⟨j, inside, same⟩ | zero
        · exact absurd (next.trans same) (outside j inside)
        · rw [next, zero]
          exact zeroPageLoop_cleared (.inr zero)
      · apply zeroPageLoop_kept
        intro j small
        rcases Nat.lt_or_eq_of_le small with inside | rfl
        · exact outside j inside
        · rwa [last]

/-- In user memory `zero_page` does what the loader stores; behind the end of the page it goes on in the
memory of the kernel. -/
theorem zeroPageLoop_eq_writePage {page q a : Word} (some : len ≠ 0) (inPage : off.toNat + len.toNat ≤ 0x1000)
    (inside : a.toNat < 0x1000) (user : q ≠ kernelTable page 1) :
    flat (zeroPageLoop (kernelTable page) len.toNat off phys) (q, a) =
      writePage phys page off (List.replicate (len.toNat + 1) 0) q a := by
  have positive : 0 < len.toNat := word_pos some
  have sum : ∀ j ≤ len.toNat, (off + BitVec.ofNat 16 j).toNat = off.toNat + j := by
    intro j small
    have value : (BitVec.ofNat 16 j).toNat = j := word_ofNat_toNat (by omega)
    rw [word_add_toNat (by omega), value]
  by_cases hit : q = page ∧ off.toNat ≤ a.toNat ∧ a.toNat ≤ off.toNat + len.toNat
  · obtain ⟨rfl, low, high⟩ := hit
    have place : off + BitVec.ofNat 16 (a.toNat - off.toNat) = a := by
      apply BitVec.eq_of_toNat_eq
      rw [sum _ (by omega)]
      omega
    rw [writePage, if_pos ⟨rfl, low⟩, List.getD_eq_getElem?_getD, List.getElem?_replicate_of_lt (by omega),
      Option.getD_some]
    exact zeroPageLoop_cleared (.inl ⟨a.toNat - off.toNat, by omega, positive, by rw [place, kernelTable_inside inside]⟩)
  · have kept : writePage phys page off (List.replicate (len.toNat + 1) 0) q a = phys q a := by
      rw [writePage]
      split
      · rename_i after
        have beyond : (List.replicate (len.toNat + 1) (0 : Byte)).length ≤ a.toNat - off.toNat := by
          by_contra short
          rw [List.length_replicate] at short
          exact hit ⟨after.1, after.2, by omega⟩
        rw [List.getD_eq_getElem?_getD, List.getElem?_eq_none beyond, Option.getD_none]
      · rfl
    rw [kept]
    apply zeroPageLoop_kept
    intro j small same
    have value := sum j small
    by_cases last : off.toNat + j < 0x1000
    · rw [kernelTable_inside (by omega)] at same
      obtain ⟨rfl, rfl⟩ := Prod.mk.inj same
      exact hit ⟨rfl, by omega, by omega⟩
    · have page : virtPagePart (off + BitVec.ofNat 16 j) = 1 := by
        rw [Fin.ext_iff, virtPagePart_toNat, value]
        show (off.toNat + j) / 0x1000 = 1
        omega
      rw [placeOf, page] at same
      exact user (Prod.mk.inj same).1

theorem zeroPageLoop_eq_writePage_five :
    flat (zeroPageLoop (kernelTable 0x300) (5 : Word).toNat 0x10 fun _ _ => 7) (0x300, 0x12) = 0 :=
  (zeroPageLoop_eq_writePage (by decide) (by decide) (by decide) (by decide)).trans (by decide)

end ZeroPage

abbrev Passes (script : Load) (s s' : LoadShared Unit) : Prop := script.Ends (fun s o => serveLoad s () o) s .proc s'

def OwnPages (p : Proc) : Prop :=
  ∀ e, p.procState.memPages e = unmappedPage ∨ firstPage false ≤ (p.procState.memPages e).toNat

def pageFor (k : KernelState) (p : Proc) (vaddr : Word) : Word :=
  if p.procState.memPages (virtPagePart vaddr) = unmappedPage then
    k.pages.firstFreePage
  else
    p.procState.memPages (virtPagePart vaddr)

structure LoadOrder (s : LoadShared Unit) : Prop where
  order : ∃ pages : PageState, pages.kernel = s.kernel ∧ DataInv pages
  own : ∀ c p, s.childOf () = some (c, p) → OwnPages p

section Order

variable {s : LoadShared Unit} {c : Nat} {p : Proc} {k : KernelState} {p₁ : Proc}

theorem LoadOrder.counter (inv : LoadOrder s) : firstPage false ≤ s.kernel.pages.firstFreePage.toNat := by
  obtain ⟨pages, same, data⟩ := inv.order
  rw [← same]
  exact data.ledger.base_le

theorem LoadOrder.setCall (inv : LoadOrder s) (call : LoadCall) (child : call.child = (s.call ()).child)
    (buffers : Buffers) : LoadOrder { s.setCall () call with buffers := buffers } where
  order := inv.order
  own c p there := by
    obtain ⟨held, here⟩ := childOf_eq_some.mp there
    refine inv.own c p (childOf_eq_some.mpr ⟨?_, here⟩)
    rw [← child, ← held]
    simp [LoadShared.setCall]

theorem loadOrder_change (child : s.childOf () = some (c, p))
    (order : ∃ pages : PageState, pages.kernel = k ∧ DataInv pages) (there : k.procs[c]? = some p₁) (own : OwnPages p₁) :
    LoadOrder { s with kernel := k } where
  order := order
  own c' q found := by
    obtain ⟨held, here⟩ := childOf_eq_some.mp found
    obtain rfl : c = c' := Option.some.inj ((childOf_eq_some.mp child).1.symm.trans held)
    obtain rfl : p₁ = q := Option.some.inj (there.symm.trans here)
    exact own

theorem LoadOrder.modify (inv : LoadOrder s) (child : s.childOf () = some (c, p)) {f : Proc → Proc}
    (block : ∀ q, procBlock (f q) = procBlock q) (keeps : ∀ q, holdings (f q) = holdings q) :
    LoadOrder { s with kernel := s.kernel.modifyProc c f } := by
  obtain ⟨pages, kernel, data⟩ := inv.order
  have here := (childOf_eq_some.mp child).2
  have same : Mapped False pages.kernel (s.kernel.modifyProc c f) := by
    rw [kernel]
    exact .same rfl rfl block keeps rfl
  have table : (f p).procState.memPages = p.procState.memPages := congrArg Holdings.mem (keeps p)
  refine loadOrder_change child ⟨_, rfl, (same.effect data.heap id).dataInv data⟩
    ((modifyProc_self s.kernel c f).trans (congrArg _ here)) ?_
  intro e
  rw [table]
  exact inv.own c p child e

theorem physPageToLoad_data (here : k.procs[c]? = some p) (vaddr : Word) :
    (physPageToLoad k c p vaddr false).2.phys = k.phys ∧
      ∃ p₁, (physPageToLoad k c p vaddr false).2.procs[c]? = some p₁ ∧ p₁.procState.memPages =
        update p.procState.memPages (virtPagePart vaddr) (pageFor k p vaddr) := by
  unfold physPageToLoad pageFor
  simp only [Bool.false_eq_true, if_false]
  split
  · refine ⟨rfl, _, (modifyProc_self k c _).trans (congrArg _ here), rfl⟩
  · exact ⟨rfl, p, here, by rw [update_eq_self]⟩

theorem LoadOrder.own_update {vaddr : Word} (inv : LoadOrder s) (child : s.childOf () = some (c, p))
    (table : p₁.procState.memPages =
      update p.procState.memPages (virtPagePart vaddr) (pageFor s.kernel p vaddr)) : OwnPages p₁ := by
  intro e
  rw [table, update_apply]
  split
  · unfold pageFor
    split
    · exact .inr inv.counter
    · exact inv.own c p child _
  · exact inv.own c p child e

theorem LoadOrder.physPageToLoad (inv : LoadOrder s) (child : s.childOf () = some (c, p)) (vaddr : Word) (prog : Bool) :
    LoadOrder { s with kernel := (physPageToLoad s.kernel c p vaddr prog).2 } := by
  obtain ⟨pages, kernel, data⟩ := inv.order
  have here := (childOf_eq_some.mp child).2
  have taken : pageStep pages (.physPageToLoad c vaddr prog) =
      some (pages.advance (Kernel.physPageToLoad s.kernel c p vaddr prog).2) := by
    rw [pageStep, kernel, here]
    rfl
  have order := step_dataInv data taken
  cases prog with
  | false =>
    obtain ⟨-, p₁, there, table⟩ := physPageToLoad_data here vaddr
    exact loadOrder_change child ⟨_, rfl, order⟩ there (inv.own_update child table)
  | true =>
    have there : ∃ p₁, (Kernel.physPageToLoad s.kernel c p vaddr true).2.procs[c]? = some p₁ ∧
        p₁.procState.memPages = p.procState.memPages := by
      unfold Kernel.physPageToLoad
      simp only [if_true]
      split
      · exact ⟨_, (modifyProc_self s.kernel c _).trans (congrArg _ here), rfl⟩
      · exact ⟨p, here, rfl⟩
    obtain ⟨p₁, there, table⟩ := there
    refine loadOrder_change child ⟨_, rfl, order⟩ there fun e => ?_
    rw [table]
    exact inv.own c p child e

theorem LoadOrder.schedInitUserThread {stale : Proc} (inv : LoadOrder s)
    (made : schedInitUserThread s.kernel stale = .ok k) (call : LoadCall) :
    LoadOrder { s.setCall () { call with child := some s.kernel.procs.length } with kernel := k } := by
  obtain ⟨pages, kernel, data⟩ := inv.order
  refine ⟨⟨pages.advance k, rfl, ?_⟩, ?_⟩
  · have taken : pageStep pages (.schedInitUserThread stale) = some (pages.advance k) := by
      rw [pageStep, kernel, made]
      rfl
    exact step_dataInv data taken
  · intro c p child
    obtain ⟨held, here⟩ := childOf_eq_some.mp child
    have position : s.kernel.procs.length = c := by simpa [LoadShared.setCall] using held
    subst position
    unfold Kernel.schedInitUserThread at made
    obtain ⟨out, first, made⟩ := bind_eq_ok.mp made
    obtain ⟨node, second, made⟩ := bind_eq_ok.mp made
    cases made
    simp only [List.getElem?_concat_length, Option.some.injEq] at here
    subst here
    intro e
    by_cases stack : e = 15
    · exact .inr (by simpa [stack] using inv.counter)
    · exact .inl (by simp [stack])

theorem LoadOrder.served (inv : LoadOrder s) {o : LoadOp} {out : o.Answer × LoadShared Unit}
    (served : serveLoad s () o = some out) : LoadOrder out.2 := by
  cases o with
  | vfsReadBlocking b size =>
    cases served
    exact inv.setCall { s.call () with
      offset := (s.call ()).offset + BitVec.ofNat 16 (readFile (s.call ()).file (s.call ()).offset size).length
      own := (s.call ()).own.fill b (readFile (s.call ()).file (s.call ()).offset size) } rfl _
  | fetch | vfsSeekCur =>
    cases served
    exact inv
  | vfsSeekSet offset =>
    cases served
    dsimp only
    split
    · exact inv
    · exact inv.setCall { s.call () with offset := offset } rfl s.buffers
  | schedInitUserThread =>
    obtain ⟨k, made, rfl⟩ := Option.map_eq_some_iff.mp served
    exact inv.schedInitUserThread (toOption_eq_some.mp made) (s.call ())
  | setPc | setLoadBrk =>
    obtain ⟨⟨c, p⟩, child, rfl⟩ := Option.map_eq_some_iff.mp served
    exact inv.modify child (fun _ => rfl) fun _ => rfl
  | physPageToLoad vaddr prog =>
    obtain ⟨⟨c, p⟩, child, rfl⟩ := Option.map_eq_some_iff.mp served
    exact inv.physPageToLoad child vaddr prog
  | store vaddr prog start bytes =>
    obtain ⟨⟨c, p⟩, child, rfl⟩ := Option.map_eq_some_iff.mp served
    obtain ⟨pages, kernel, data⟩ := inv.order
    refine loadOrder_change child ⟨{ pages with kernel := _ }, rfl, ?_⟩ (childOf_eq_some.mp child).2 (inv.own c p child)
    exact ⟨by rw [← kernel]; exact data.heap, by rw [← kernel]; exact data.ledger, by rw [← kernel]; exact data.taken⟩

end Order

structure Loading (s : LoadShared Unit) (ph : List Byte) (c : Nat) (p : Proc) : Prop extends LoadOrder s where
  child : s.childOf () = some (c, p)
  header : s.buffers.first .phBuff phSize.toNat = ph

def Grown (p p₁ : Proc) : Prop :=
  ∀ e, p.procState.memPages e ≠ unmappedPage → p₁.procState.memPages e = p.procState.memPages e

theorem Grown.refl (p : Proc) : Grown p p := fun _ _ => rfl

theorem Grown.trans {p p₁ p₂ : Proc} (first : Grown p p₁) (second : Grown p₁ p₂) : Grown p p₂ := by
  intro e mapped
  rw [second e (by rwa [first e mapped]), first e mapped]

def ChangedIn (page : Word) (low high : Nat) (phys phys' : PhysMem) : Prop :=
  ∀ (q a : Word), ¬(q = page ∧ low ≤ a.toNat ∧ a.toNat < high) → phys' q a = phys q a

section Changes

variable {page : Word} {low high low' high' : Nat} {phys phys₁ phys₂ : PhysMem}

theorem ChangedIn.refl : ChangedIn page low high phys phys := fun _ _ _ => rfl

theorem ChangedIn.mono (changed : ChangedIn page low high phys phys₁) (lower : low' ≤ low) (higher : high ≤ high') :
    ChangedIn page low' high' phys phys₁ :=
  fun q a outside => changed q a fun inside => outside ⟨inside.1, by omega, by omega⟩

theorem ChangedIn.trans (first : ChangedIn page low high phys phys₁) (second : ChangedIn page low high phys₁ phys₂) :
    ChangedIn page low high phys phys₂ :=
  fun q a outside => (second q a outside).trans (first q a outside)

end Changes

theorem writePage_zeros (phys : PhysMem) (page start : Word) (n : Nat) (q a : Word) :
    writePage phys page start (List.replicate n 0) q a = 0 ∨
      writePage phys page start (List.replicate n 0) q a = phys q a := by
  rw [writePage]
  split
  · rw [List.getD_eq_getElem?_getD, List.getElem?_replicate]
    split
    · exact .inl rfl
    · exact .inr rfl
  · exact .inr rfl

structure Clears (k : KernelState) (p : Proc) (k₁ : KernelState) (p₁ : Proc) (low high : Nat) : Prop where
  grown : Grown p p₁
  cleared : ∀ x, low ≤ x → x < high → p₁.procState.memPages (pageOf x) ≠ unmappedPage ∧ byteAt k₁ p₁ false x = 0
  zero : ∀ x, p.procState.memPages (pageOf x) ≠ unmappedPage → byteAt k p false x = 0 → byteAt k₁ p₁ false x = 0
  below : ∀ x < low, p.procState.memPages (pageOf x) ≠ unmappedPage → byteAt k₁ p₁ false x = byteAt k p false x

section Clearing

variable {k k₁ k₂ : KernelState} {p p₁ p₂ : Proc} {low mid high : Nat}

theorem Clears.refl (nothing : high ≤ low) : Clears k p k p low high where
  grown := .refl p
  cleared x lower upper := by omega
  zero _ _ zero := zero
  below _ _ _ := rfl

theorem Clears.append (first : Clears k p k₁ p₁ low mid) (second : Clears k₁ p₁ k₂ p₂ mid high) (le : low ≤ mid) :
    Clears k p k₂ p₂ low high where
  grown := first.grown.trans second.grown
  cleared x lower upper := by
    by_cases before : x < mid
    · obtain ⟨mapped, zero⟩ := first.cleared x lower before
      refine ⟨?_, second.zero x mapped zero⟩
      rwa [second.grown _ mapped]
    · exact second.cleared x (by omega) upper
  zero x mapped zero := second.zero x (by rwa [first.grown _ mapped]) (first.zero x mapped zero)
  below x lower mapped := by
    rw [second.below x (by omega) (by rwa [first.grown _ mapped]), first.below x lower mapped]

end Clearing

section Passing

variable {s s' : LoadShared Unit} {ph : List Byte} {c : Nat} {p : Proc} {next : Load} {vaddr : Word}

theorem Loading.here (loading : Loading s ph c p) : s.kernel.procs[c]? = some p := (childOf_eq_some.mp loading.child).2

theorem Loading.distinct (loading : Loading s ph c p) {e e' : Fin 16}
    (mapped : p.procState.memPages e ≠ unmappedPage) (same : p.procState.memPages e = p.procState.memPages e') :
    e = e' := by
  obtain ⟨pages, kernel, data⟩ := loading.order
  have here := loading.here
  rw [← kernel] at here
  have slots := data.ledger.single (c, .mem e) (c, .mem e') (p.procState.memPages e).toNat
    ((loading.own c p loading.child e).resolve_left mapped) (memPages_lt data here e)
    (by simp [cell, PageState.table, here, holdings, Holdings.data])
    (by simp [cell, PageState.table, here, holdings, Holdings.data, same])
  simpa using slots

theorem pageFor_ne (loading : Loading s ph c p) (vaddr : Word) : pageFor s.kernel p vaddr ≠ unmappedPage := by
  have counter := loading.counter
  unfold pageFor
  split
  · intro mark
    rw [mark] at counter
    exact absurd counter (by decide)
  · assumption

theorem passes_assert {condition : Bool} {text : String} (passes : Passes (.assert condition text next) s s') :
    condition = true ∧ Passes next s s' := by
  unfold Load.assert at passes
  split at passes
  · rename_i holds
    exact ⟨holds, passes⟩
  · cases passes.1

theorem passes_physPageToLoad (loading : Loading s ph c p) (passes : Passes (.physPageToLoad vaddr false next) s s') :
    ∃ s₁ p₁, Passes next s₁ s' ∧ Loading s₁ ph c p₁ ∧ s₁.kernel.phys = s.kernel.phys ∧ p₁.procState.memPages =
        update p.procState.memPages (virtPagePart vaddr) (pageFor s.kernel p vaddr) := by
  obtain ⟨out, served, rest⟩ := passes
  have order := loading.toLoadOrder.served served
  simp only [serveLoad, loading.child, Option.map_some, Option.some.injEq] at served
  subst served
  obtain ⟨phys, p₁, there, table⟩ := physPageToLoad_data loading.here vaddr
  refine ⟨_, p₁, rest, ⟨order, childOf_eq_some.mpr ⟨?_, there⟩, loading.header⟩, phys, table⟩
  exact (childOf_eq_some.mp loading.child).1

theorem passes_store {start : Word} {bytes : List Byte} (loading : Loading s ph c p)
    (passes : Passes (.store vaddr false start bytes next) s s') : ∃ s₁, Passes next s₁ s' ∧ Loading s₁ ph c p ∧
      s₁.kernel.phys = writePage s.kernel.phys (p.procState.memPages (virtPagePart vaddr)) start bytes := by
  obtain ⟨out, served, rest⟩ := passes
  have order := loading.toLoadOrder.served served
  simp only [serveLoad, loading.child, Option.map_some, Option.some.injEq] at served
  subst served
  exact ⟨_, rest, ⟨order, loading.child, loading.header⟩, rfl⟩

variable {size memSize : Word} {fuel : Nat}

theorem passes_read {next : Word → Load} (loading : Loading s ph c p)
    (passes : Passes (.vfsReadBlocking .loadBuff size next) s s') :
    ∃ s₁ read, Passes (next read) s₁ s' ∧ Loading s₁ ph c p ∧ s₁.kernel = s.kernel ∧ read.toNat ≤ size.toNat := by
  obtain ⟨out, served, rest⟩ := passes
  have order := loading.toLoadOrder.served served
  cases served
  refine ⟨_, _, rest, ⟨order, ?_, (first_fill_of_ne (by decide)).trans loading.header⟩, rfl, ?_⟩
  · simpa [LoadShared.childOf, LoadShared.setCall] using loading.child
  · have short : (readFile (s.call ()).file (s.call ()).offset size).length ≤ size.toNat := by
      simp only [readFile, List.length_take]
      omega
    rw [word_ofNat_toNat (by have := size.isLt; omega)]
    exact short

theorem passes_fetch {b : Buffer} {count : Nat} {next : List Byte → Load} (passes : Passes (.fetch b count next) s s') :
    Passes (next (s.buffers.first b count)) s s' := by
  obtain ⟨out, served, rest⟩ := passes
  cases served
  exact rest

theorem writePage_changedIn (phys : PhysMem) (page start : Word) (bytes : List Byte) :
    ChangedIn page start.toNat (start.toNat + bytes.length) phys (writePage phys page start bytes) := by
  intro q a outside
  rw [writePage]
  split
  · rename_i inPage
    have beyond : bytes.length ≤ a.toNat - start.toNat := by
      by_contra inside
      exact outside ⟨inPage.1, inPage.2, by omega⟩
    rw [List.getD_eq_getElem?_getD, List.getElem?_eq_none beyond, Option.getD_none]
  · rfl

theorem passes_loadIntoUserspace {offset : Word} (loading : Loading s ph c p)
    (passes : Passes (loadIntoUserspace vaddr false size offset next) s s') :
    ∃ s₁, Passes next s₁ s' ∧ Loading s₁ ph c p ∧ ChangedIn (p.procState.memPages (virtPagePart vaddr)) offset.toNat
      (offset.toNat + size.toNat) s.kernel.phys s₁.kernel.phys := by
  obtain ⟨-, passes⟩ := passes_assert passes
  obtain ⟨-, passes⟩ := passes_assert passes
  obtain ⟨s₁, rest, loading₁, stored⟩ := passes_store loading (passes_fetch passes)
  refine ⟨s₁, rest, loading₁, ?_⟩
  have length : (s.buffers.first .loadBuff size.toNat).length = size.toNat := by simp [Buffers.first]
  have changed := writePage_changedIn s.kernel.phys (p.procState.memPages (virtPagePart vaddr)) offset
    (s.buffers.first .loadBuff size.toNat)
  rwa [length, ← stored] at changed

theorem passes_loadToPageLoop {endAddr : Word} (last : endAddr.toNat < 0x1000) {mAddr : Word}
    (loading : Loading s ph c p) (passes : Passes (loadToPageLoop endAddr vaddr false next fuel mAddr) s s') :
    ∃ s₁, Passes next s₁ s' ∧ Loading s₁ ph c p ∧ ChangedIn (p.procState.memPages (virtPagePart vaddr)) mAddr.toNat
      (endAddr.toNat + 1) s.kernel.phys s₁.kernel.phys := by
  induction fuel generalizing s mAddr with
  | zero => exact ⟨s, passes, loading, .refl⟩
  | succ fuel ih =>
    unfold loadToPageLoop at passes
    split at passes
    · rename_i more
      have order : mAddr.toNat ≤ endAddr.toNat := more
      obtain ⟨s₁, read, passes, loading₁, kernel, bound⟩ := passes_read loading passes
      rw [readSize_toNat more last] at bound
      have within : mAddr.toNat + read.toNat ≤ endAddr.toNat + 1 := by omega
      obtain ⟨-, passes⟩ := passes_assert passes
      obtain ⟨s₂, passes, loading₂, changed⟩ := passes_loadIntoUserspace loading₁ passes
      obtain ⟨s₃, rest, loading₃, later⟩ := ih loading₂ passes
      rw [word_add_toNat (by omega)] at later
      rw [kernel] at changed
      exact ⟨s₃, rest, loading₃, (changed.mono le_rfl within).trans (later.mono (Nat.le_add_right _ _) le_rfl)⟩
    · exact ⟨s, passes, loading, .refl⟩

section

variable (loading : Loading s ph c p)
include loading

theorem passes_loadToPage {off endAddr : Word} (passes : Passes (loadToPage off endAddr vaddr false next) s s') :
    ∃ s₁ p₁, Passes next s₁ s' ∧ Loading s₁ ph c p₁ ∧ p₁.procState.memPages =
        update p.procState.memPages (virtPagePart vaddr) (pageFor s.kernel p vaddr) ∧
      ChangedIn (pageFor s.kernel p vaddr) off.toNat (endAddr.toNat + 1) s.kernel.phys s₁.kernel.phys := by
  obtain ⟨s₁, p₁, passes, loading₁, phys, table⟩ := passes_physPageToLoad loading passes
  obtain ⟨last, passes⟩ := passes_assert passes
  obtain ⟨s₂, rest, loading₂, changed⟩ := passes_loadToPageLoop (by simpa [BitVec.lt_def, pageBytes] using last)
    loading₁ passes
  refine ⟨s₂, p₁, rest, loading₂, table, ?_⟩
  rwa [table, update_self, phys] at changed

theorem passes_loadCalls {calls : List PageCall}
    (passes : Passes (loadCalls false calls next) s s') : ∃ s₁ p₁, Passes next s₁ s' ∧ Loading s₁ ph c p₁ := by
  induction calls generalizing s p with
  | nil => exact ⟨s, p, passes, loading⟩
  | cons d calls ih =>
    obtain ⟨s₁, p₁, passes, loading₁, -⟩ := passes_loadToPage loading passes
    exact ih loading₁ passes

theorem passes_loadFilePart {next : Word → Load}
    (same : getU16 ph phOffVaddr = vaddr) (passes : Passes (loadFilePart false memSize vaddr next) s s') :
    ∃ s₁ p₁, Passes (next (afterSegment memSize vaddr)) s₁ s' ∧ Loading s₁ ph c p₁ ∧
      (memSize ≠ 0 → memSize.toNat ≤ 0x1000 → p₁.procState.memPages =
          update p.procState.memPages (virtPagePart vaddr) (pageFor s.kernel p vaddr) ∧
        ChangedIn (pageFor s.kernel p vaddr) (vaddr.toNat % 0x1000) memSize.toNat s.kernel.phys s₁.kernel.phys) := by
  by_cases none : memSize = 0
  · rw [loadFilePart, if_pos none] at passes
    rw [afterSegment, if_pos none]
    exact ⟨s, p, passes, loading, fun some => absurd none some⟩
  · obtain ⟨later, script, looked⟩ := @loadFilePart_eq memSize vaddr false next none
    rw [script] at passes
    obtain ⟨s₁, p₁, passes, loading₁, table, changed⟩ := passes_loadToPage loading passes
    have passes := passes_fetch passes
    rw [loading₁.header, looked ph same] at passes
    by_cases small : memSize.toNat ≤ 0x1000
    · have positive : 0 < memSize.toNat := word_pos none
      have few : pagesOf memSize ≤ 1 := by
        rw [pagesOf_small (by omega)]
        omega
      rw [laterCalls_none few] at passes
      refine ⟨s₁, p₁, passes, loading₁, fun _ _ => ⟨table, changed.mono (Nat.le_of_eq start_toNat.symm) ?_⟩⟩
      rw [firstCall_endAddr positive]
      exact Nat.min_le_right ..
    · obtain ⟨s₂, p₂, rest, loading₂⟩ := passes_loadCalls loading₁ passes
      exact ⟨s₂, p₂, rest, loading₂, fun _ other => absurd other small⟩

theorem passes_zeroPage {off len : Word} (passes : Passes (zeroPage off len vaddr next) s s') :
    ∃ s₁ p₁, Passes next s₁ s' ∧ Loading s₁ ph c p₁ ∧ p₁.procState.memPages =
        update p.procState.memPages (virtPagePart vaddr) (pageFor s.kernel p vaddr) ∧
      s₁.kernel.phys = writePage s.kernel.phys (pageFor s.kernel p vaddr) off
        (if len = 0 then [] else List.replicate (len.toNat + 1) 0) := by
  obtain ⟨s₁, p₁, passes, loading₁, phys, table⟩ := passes_physPageToLoad loading passes
  obtain ⟨-, passes⟩ := passes_assert passes
  obtain ⟨s₂, rest, loading₂, stored⟩ := passes_store loading₁ passes
  refine ⟨s₂, p₁, rest, loading₂, table, ?_⟩
  rw [stored, table, update_self, phys]

end

theorem pageOf_toNat (vaddr : Word) : pageOf vaddr.toNat = virtPagePart vaddr := by
  have bound := vaddr.isLt
  rw [Fin.ext_iff, virtPagePart_toNat]
  show vaddr.toNat / 0x1000 % 16 = _
  omega

theorem passes_chunk (positive : size ≠ 0) (inPage : vaddr.toNat % 0x1000 + size.toNat ≤ 0x1000)
    (loading : Loading s ph c p) (passes : Passes (zeroPage (vaddr % pageBytes) size vaddr next) s s') :
    ∃ s₁ p₁, Passes next s₁ s' ∧ Loading s₁ ph c p₁ ∧
      Clears s.kernel p s₁.kernel p₁ vaddr.toNat (vaddr.toNat + size.toNat) := by
  obtain ⟨s₁, p₁, rest, loading₁, table, stored⟩ := passes_zeroPage loading passes
  rw [if_neg positive] at stored
  have bound := vaddr.isLt
  have start := @start_toNat vaddr
  have own : p₁.procState.memPages (virtPagePart vaddr) = pageFor s.kernel p vaddr := by rw [table, update_self]
  have mapped := pageFor_ne loading vaddr
  have grown : Grown p p₁ := by
    intro e held
    rw [table, update_apply]
    split
    · rename_i same
      subst same
      exact if_neg held
    · rfl
  refine ⟨s₁, p₁, rest, loading₁, grown, ?_, ?_, ?_⟩
  · intro x low high
    have page : pageOf x = virtPagePart vaddr := by
      rw [← pageOf_toNat, Fin.ext_iff]
      show x / 0x1000 % 16 = vaddr.toNat / 0x1000 % 16
      omega
    have place : (BitVec.ofNat 16 (x % 0x1000)).toNat = x % 0x1000 := word_ofNat_toNat (by omega)
    rw [page, own]
    refine ⟨mapped, ?_⟩
    show s₁.kernel.phys (p₁.procState.memPages (pageOf x)) _ = 0
    rw [page, own, stored, writePage, if_pos ⟨rfl, by rw [place, start]; omega⟩, List.getD_eq_getElem?_getD,
      List.getElem?_replicate_of_lt (by rw [place, start]; omega), Option.getD_some]
  · intro x held zero
    show s₁.kernel.phys (p₁.procState.memPages (pageOf x)) _ = 0
    rw [grown _ held, stored]
    rcases writePage_zeros s.kernel.phys (pageFor s.kernel p vaddr) (vaddr % pageBytes) (size.toNat + 1)
      (p.procState.memPages (pageOf x)) (BitVec.ofNat 16 (x % 0x1000)) with cleared | kept
    · exact cleared
    · rw [kept]
      exact zero
  · intro x below held
    show s₁.kernel.phys (p₁.procState.memPages (pageOf x)) _ = s.kernel.phys (p.procState.memPages (pageOf x)) _
    rw [grown _ held, stored, writePage, if_neg]
    rintro ⟨same, after⟩
    rw [← own, ← grown _ held] at same
    have page := loading₁.distinct (by rwa [grown _ held]) same
    rw [← pageOf_toNat, Fin.ext_iff] at page
    have page : x / 0x1000 % 16 = vaddr.toNat / 0x1000 % 16 := page
    rw [start, word_ofNat_toNat (by omega)] at after
    omega

theorem passes_loadBss {bssEnd : Word}
    (enough : bssEnd.toNat ≤ vaddr.toNat ∨ bssEnd.toNat ≤ (vaddr.toNat / 0x1000 + fuel) * 0x1000)
    (loading : Loading s ph c p) (passes : Passes (loadBss bssEnd next fuel vaddr) s s') :
    ∃ s₁ p₁, Passes next s₁ s' ∧ Loading s₁ ph c p₁ ∧ Clears s.kernel p s₁.kernel p₁ vaddr.toNat bssEnd.toNat := by
  induction fuel generalizing s p vaddr with
  | zero => exact ⟨s, p, passes, loading, .refl (by omega)⟩
  | succ fuel ih =>
    unfold loadBss at passes
    split at passes
    · rename_i more
      have order : vaddr.toNat < bssEnd.toNat := more
      have size := zeroSize_toNat more
      dsimp only at passes
      generalize wordMin (pageBytes - vaddr % pageBytes) (bssEnd - vaddr) = count at size passes
      have bound := bssEnd.isLt
      have next_toNat : (vaddr + count).toNat = vaddr.toNat + count.toNat := word_add_toNat (by omega)
      have positive : count ≠ 0 := by
        rintro rfl
        rw [show (0 : Word).toNat = 0 from rfl] at size
        omega
      obtain ⟨s₁, p₁, passes, loading₁, first⟩ := passes_chunk positive (by omega) loading passes
      obtain ⟨s₂, p₂, rest, loading₂, second⟩ := ih (by rw [next_toNat]; omega) loading₁ passes
      rw [next_toNat] at second
      exact ⟨s₂, p₂, rest, loading₂, first.append second (by omega)⟩
    · rename_i finished
      have order : ¬vaddr.toNat < bssEnd.toNat := finished
      exact ⟨s, p, passes, loading, .refl (by omega)⟩

theorem passes_loadSegment {loadBrk : Word} {vaddr zeroMemSize : Word}
    (data : getU16 ph phOffFlags &&& 1 = 0) (vaddr_eq : getU16 ph phOffVaddr = vaddr)
    (memSize_eq : getU16 ph phOffFilesz = memSize) (zeroMemSize_eq : getU16 ph phOffMemsz = zeroMemSize)
    (longer : memSize < zeroMemSize) (fits : vaddr.toNat + zeroMemSize.toNat < 0x10000) (loading : Loading s ph c p)
    (passes : Passes (loadSegment ph loadBrk fun _ => .done .proc) s s') : ∃ s₁ p₁ p', Loading s₁ ph c p₁ ∧
      (memSize ≠ 0 → memSize.toNat ≤ 0x1000 → p₁.procState.memPages =
          update p.procState.memPages (virtPagePart vaddr) (pageFor s.kernel p vaddr) ∧
        ChangedIn (pageFor s.kernel p vaddr) (vaddr.toNat % 0x1000) memSize.toNat s.kernel.phys s₁.kernel.phys) ∧
      s'.childOf () = some (c, p') ∧
      Clears s₁.kernel p₁ s'.kernel p' (afterSegment memSize vaddr).toNat (vaddr.toNat + zeroMemSize.toNat) := by
  have shorter : memSize.toNat < zeroMemSize.toNat := longer
  unfold loadSegment at passes
  simp only [data, vaddr_eq, memSize_eq, zeroMemSize_eq] at passes
  obtain ⟨out, served, passes⟩ := passes
  have seeked : Loading out.2 ph c p ∧ out.2.kernel = s.kernel := by
    have order := loading.toLoadOrder.served served
    simp only [serveLoad, Option.some.injEq] at served
    subst served
    dsimp only at order ⊢
    split
    · exact ⟨loading, rfl⟩
    · rw [if_neg (by assumption)] at order
      refine ⟨⟨order, ?_, loading.header⟩, rfl⟩
      simpa [LoadShared.childOf, LoadShared.setCall] using loading.child
  obtain ⟨loading₀, kernel⟩ := seeked
  obtain ⟨s₁, p₁, passes, loading₁, file⟩ := passes_loadFilePart loading₀ vaddr_eq passes
  rw [kernel] at file
  rw [if_pos ⟨by simp, longer⟩] at passes
  have stop : (vaddr + zeroMemSize).toNat = vaddr.toNat + zeroMemSize.toNat := word_add_toNat fits
  obtain ⟨s₂, p₂, ⟨-, rfl⟩, loading₂, clears⟩ := passes_loadBss (by rw [stop]; omega) loading₁ passes
  rw [stop] at clears
  exact ⟨s₁, p₁, p₂, loading₁, file, loading₂.child, clears⟩

end Passing

def ZeroFilled (s : LoadShared Unit) (low high : Nat) : Prop :=
  ∃ c p, s.childOf () = some (c, p) ∧ ∀ x, low ≤ x → x < high → byteAt s.kernel p false x = 0

def skippedEnd (fileSize vaddr : Nat) : Nat :=
  if 0 < fileSize ∧ fileSize ≤ 0x1000 ∧ vaddr < 0xf000 then
    vaddr + min (0x1000 - vaddr % 0x1000) (vaddr + fileSize)
  else
    vaddr + fileSize

def SkippedZero (k : KernelState) (p : Proc) (vaddr : Word) (fileSize memSize : Nat) : Prop :=
  ∀ x, vaddr.toNat + fileSize ≤ x → x < vaddr.toNat + memSize → x < skippedEnd fileSize vaddr.toNat →
    k.phys (pageFor k p vaddr) (BitVec.ofNat 16 (x % 0x1000)) = 0

theorem start_cases (memSize vaddr : Word) (fits : vaddr.toNat + memSize.toNat < 0x10000) :
    (afterSegment memSize vaddr).toNat ≤ vaddr.toNat + memSize.toNat ∧
        skippedEnd memSize.toNat vaddr.toNat ≤ vaddr.toNat + memSize.toNat ∨ memSize ≠ 0 ∧ memSize.toNat ≤ 0x1000 ∧
        (afterSegment memSize vaddr).toNat = skippedEnd memSize.toNat vaddr.toNat ∧
        skippedEnd memSize.toNat vaddr.toNat ≤ vaddr.toNat / 0x1000 * 0x1000 + 0x1000 := by
  by_cases none : memSize = 0
  · left
    subst none
    exact ⟨Nat.le_refl _, by simp [skippedEnd]⟩
  · have positive : 0 < memSize.toNat := word_pos none
    by_cases small : memSize.toNat ≤ 0x1000
    · have start := afterSegment_one_page positive small fits
      by_cases low : vaddr.toNat < 0xf000
      · right
        have skipped : skippedEnd memSize.toNat vaddr.toNat =
            vaddr.toNat + min (0x1000 - vaddr.toNat % 0x1000) (vaddr.toNat + memSize.toNat) :=
          if_pos ⟨positive, small, low⟩
        rw [start, skipped]
        exact ⟨none, small, by omega, by omega⟩
      · left
        have skipped : skippedEnd memSize.toNat vaddr.toNat = vaddr.toNat + memSize.toNat :=
          if_neg fun all => low all.2.2
        rw [start, skipped]
        exact ⟨by omega, Nat.le_refl _⟩
    · left
      have skipped : skippedEnd memSize.toNat vaddr.toNat = vaddr.toNat + memSize.toNat :=
        if_neg fun all => small all.2.1
      rw [skipped]
      exact ⟨(afterSegment_many_pages (by omega) fits).1, Nat.le_refl _⟩

theorem Loading.zeroFilled_iff {s s' : LoadShared Unit} {ph : List Byte} {c : Nat} {p : Proc} {loadBrk : Word}
    (loading : Loading s ph c p) (data : getU16 ph phOffFlags &&& 1 = 0)
    (longer : getU16 ph phOffFilesz < getU16 ph phOffMemsz)
    (fits : (getU16 ph phOffVaddr).toNat + (getU16 ph phOffMemsz).toNat < 0x10000)
    (passes : Passes (loadSegment ph loadBrk fun _ => .done .proc) s s') :
    ZeroFilled s' ((getU16 ph phOffVaddr).toNat + (getU16 ph phOffFilesz).toNat)
        ((getU16 ph phOffVaddr).toNat + (getU16 ph phOffMemsz).toNat) ↔
      SkippedZero s.kernel p (getU16 ph phOffVaddr) (getU16 ph phOffFilesz).toNat (getU16 ph phOffMemsz).toNat := by
  obtain ⟨s₁, p₁, p', loading₁, file, child, clears⟩ := passes_loadSegment data rfl rfl rfl longer fits loading passes
  generalize getU16 ph phOffVaddr = vaddr at *
  generalize getU16 ph phOffFilesz = memSize at *
  generalize getU16 ph phOffMemsz = zeroMemSize at *
  have shorter : memSize.toNat < zeroMemSize.toNat := longer
  rcases start_cases memSize vaddr (by omega) with
    ⟨start, skipped⟩ | ⟨some, small, start, inPage⟩
  · refine ⟨fun _ x low _ inside => by omega, fun _ => ⟨c, p', child, ?_⟩⟩
    intro x low high
    exact (clears.cleared x (by omega) high).2
  · obtain ⟨table, changed⟩ := file some small
    -- what is skipped is in the page of the segment, behind what was read from the file
    have skipped : ∀ x, vaddr.toNat + memSize.toNat ≤ x → x < skippedEnd memSize.toNat vaddr.toNat →
        byteAt s'.kernel p' false x = s.kernel.phys (pageFor s.kernel p vaddr) (BitVec.ofNat 16 (x % 0x1000)) := by
      intro x low high
      have bound := vaddr.isLt
      have page : pageOf x = virtPagePart vaddr := by
        rw [← pageOf_toNat, Fin.ext_iff]
        show x / 0x1000 % 16 = vaddr.toNat / 0x1000 % 16
        omega
      have own : p₁.procState.memPages (pageOf x) = pageFor s.kernel p vaddr := by
        rw [page, table, update_self]
      rw [clears.below x (by omega) (by rw [own]; exact pageFor_ne loading vaddr)]
      show s₁.kernel.phys (p₁.procState.memPages (pageOf x)) _ = _
      rw [own]
      apply changed
      rintro ⟨-, -, inside⟩
      rw [word_ofNat_toNat (by omega)] at inside
      omega
    constructor
    · rintro ⟨c', q, child', zero⟩ x low high inside
      obtain ⟨-, rfl⟩ := Prod.mk.inj (Option.some.inj (child.symm.trans child'))
      rw [← skipped x low inside]
      exact zero x low high
    · intro zero
      refine ⟨c, p', child, fun x low high => ?_⟩
      by_cases inside : x < skippedEnd memSize.toNat vaddr.toNat
      · rw [skipped x low inside]
        exact zero x low high inside
      · exact (clears.cleared x (by omega) high).2

theorem loadOrder_of_run {phys : PhysMem} {ops : List PageOp} {pages : PageState} {buffers : Buffers} {file : List Byte}
    {stale : Proc} {n : Nat} {w : LoadState Unit} (reached : run pageStep (initPages phys) ops = some pages)
    (loads : run loadStep (loadStart pages.kernel buffers (fun _ => file) fun _ => stale) (List.replicate n ()) = some w) :
    LoadOrder w.shared := by
  have data : DataInv pages := run_invariant (fun _ _ _ => step_dataInv) (dataInv_init phys) reached
  refine run_invariant (I := fun w : LoadState Unit => LoadOrder w.shared) ?_ ⟨⟨pages, rfl, data⟩, ?_⟩ loads
  · intro w i w' inv taken
    obtain ⟨o, next, out, -, served, rfl⟩ := weaveStep_cases taken
    exact inv.served served
  · intro c p child
    cases child

theorem zero_fill_iff {phys : PhysMem} {ops : List PageOp} {pages : PageState} {buffers : Buffers} {file ph : List Byte}
    {stale : Proc} {n : Nat} {w : LoadState Unit} {s' : LoadShared Unit} {c : Nat} {p : Proc} {loadBrk : Word}
    (reached : run pageStep (initPages phys) ops = some pages)
    (loads : run loadStep (loadStart pages.kernel buffers (fun _ => file) fun _ => stale) (List.replicate n ()) = some w)
    (child : w.shared.childOf () = some (c, p)) (header : w.shared.buffers.first .phBuff phSize.toNat = ph)
    (data : getU16 ph phOffFlags &&& 1 = 0) (longer : getU16 ph phOffFilesz < getU16 ph phOffMemsz)
    (fits : (getU16 ph phOffVaddr).toNat + (getU16 ph phOffMemsz).toNat < 0x10000)
    (passes : Passes (loadSegment ph loadBrk fun _ => .done .proc) w.shared s') :
    (ZeroFilled s' ((getU16 ph phOffVaddr).toNat + (getU16 ph phOffFilesz).toNat)
        ((getU16 ph phOffVaddr).toNat + (getU16 ph phOffMemsz).toNat) ↔
      SkippedZero w.shared.kernel p (getU16 ph phOffVaddr) (getU16 ph phOffFilesz).toNat
        (getU16 ph phOffMemsz).toNat) ∧
    ∀ phys off len page phys', zeroPageMem phys off len page = .ok phys' →
      (ClearsOnly (kernelTable page) off len phys phys' ↔
        len = 0 ∨ (∃ j < len.toNat, placeOf (kernelTable page) (off + len) =
          placeOf (kernelTable page) (off + BitVec.ofNat 16 j)) ∨
        flat phys (placeOf (kernelTable page) (off + len)) = 0) := by
  subst header
  have loading : Loading w.shared _ c p := ⟨loadOrder_of_run reached loads, child, rfl⟩
  refine ⟨loading.zeroFilled_iff data longer fits passes, ?_⟩
  intro phys off len page phys' cleared
  unfold zeroPageMem at cleared
  split at cleared
  · cases cleared
    exact clearsOnly_iff (kernelTable page) phys off len
  · cases cleared

def oneSegment (fileSize : Byte) : List Byte := elfHeader 1 ++ loadHeader 88 0x10 fileSize 8 6 ++ [1, 2]

def sevens : PageState := (run pageStep (initPages fun _ _ => 7) callers).get (by decide +kernel)

def atSegment (fileSize : Byte) : Option (LoadState Unit) :=
  run loadStep (loadStart sevens.kernel noBytes (fun _ => oneSegment fileSize) fun _ => .zero) (List.replicate 9 ())

def headerOf (w : LoadState Unit) : List Byte := w.shared.buffers.first .phBuff phSize.toNat

def overSegment (w : LoadState Unit) (n : Nat) : Option (LoadState Unit) :=
  run loadStep ⟨w.shared, fun _ => loadSegment (headerOf w) 0 fun _ => .done .proc⟩ (List.replicate n ())

theorem passes_of_over {w w' : LoadState Unit} {n : Nat} (ran : overSegment w n = some w')
    (ended : endOf w' () = some .proc) : Passes (loadSegment (headerOf w) 0 fun _ => .done .proc) w.shared w'.shared :=
  (Script.ends_iff_run (w := ⟨w.shared, fun _ => loadSegment (headerOf w) 0 fun _ => .done .proc⟩) rfl).mpr
    ⟨n, w', ran, endOf_eq_some.mp ended, rfl⟩

theorem zero_fill_empty_file_part :
    ∃ w s', atSegment 0 = some w ∧ Passes (loadSegment (headerOf w) 0 fun _ => .done .proc) w.shared s' ∧
      ZeroFilled s' 0x1000 0x1008 := by
  have header : (atSegment 0).map (fun w => ((w.shared.childOf ()).isSome, getU16 (headerOf w) phOffFlags &&& 1,
      getU16 (headerOf w) phOffVaddr, getU16 (headerOf w) phOffFilesz, getU16 (headerOf w) phOffMemsz)) =
      some (true, 0, 0x1000, 0, 8) := by decide +kernel
  have ends : ((atSegment 0).bind fun w => overSegment w 3).map (fun w => endOf w ()) = some (some .proc) := by
    decide +kernel
  obtain ⟨w, reached, fields⟩ := Option.map_eq_some_iff.mp header
  obtain ⟨w', ran, ended⟩ := Option.map_eq_some_iff.mp ends
  rw [reached, Option.bind_some] at ran
  simp only [Prod.mk.injEq] at fields
  obtain ⟨made, flags, vaddr, fileSize, memSize⟩ := fields
  obtain ⟨⟨c, p⟩, child⟩ := Option.isSome_iff_exists.mp made
  have filled := (zero_fill_iff (Option.some_get _).symm reached child (show _ = headerOf w from rfl) flags
    (by rw [fileSize, memSize]; decide) (by rw [vaddr, memSize]; decide) (passes_of_over ran ended)).1
  rw [vaddr, fileSize, memSize] at filled
  refine ⟨w, w'.shared, reached, passes_of_over ran ended, filled.mpr ?_⟩
  intro x low high inside
  have none : skippedEnd 0 0x1000 = 0x1000 := rfl
  have low : 0x1000 ≤ x := low
  have inside : x < skippedEnd 0 0x1000 := inside
  omega

theorem bytes_behind_data_stay :
    (∃ w s', atSegment 2 = some w ∧ (getU16 (headerOf w) phOffVaddr, getU16 (headerOf w) phOffFilesz,
        getU16 (headerOf w) phOffMemsz) = (0x1000, 2, 8) ∧
      Passes (loadSegment (headerOf w) 0 fun _ => .done .proc) w.shared s' ∧ ¬ZeroFilled s' 0x1002 0x1008) ∧
    ∃ phys', zeroPageMem (fun _ _ => 7) 0 2 0x300 = .ok phys' ∧ ¬ClearsOnly (kernelTable 0x300) 0 2 (fun _ _ => 7) phys' := by
  have header : (atSegment 2).map (fun w => (getU16 (headerOf w) phOffVaddr, getU16 (headerOf w) phOffFilesz,
      getU16 (headerOf w) phOffMemsz)) = some (0x1000, 2, 8) := by decide +kernel
  have ends : ((atSegment 2).bind fun w => overSegment w 6).map (fun w => (endOf w (),
      (w.shared.childOf ()).map fun child => byteAt w.shared.kernel child.2 false 0x1002)) = some (some .proc, some 7) := by
    decide +kernel
  refine ⟨?_, _, rfl, ?_⟩
  · obtain ⟨w, reached, fields⟩ := Option.map_eq_some_iff.mp header
    obtain ⟨w', ran, values⟩ := Option.map_eq_some_iff.mp ends
    rw [reached, Option.bind_some] at ran
    obtain ⟨ended, byte⟩ := Prod.mk.inj values
    refine ⟨w, w'.shared, reached, fields, passes_of_over ran ended, ?_⟩
    rintro ⟨c, p, child, zero⟩
    rw [child, Option.map_some, zero 0x1002 (by decide) (by decide)] at byte
    cases byte
  · intro confined
    have third := confined (0x300, 2) (by decide)
    exact absurd third (by decide)

end PiOS.Proof.ZeroFill
