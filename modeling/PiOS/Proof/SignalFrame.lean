import Mathlib.Tactic.FinCases
import PiOS.Proof.Frame

namespace PiOS.Proof
open Kernel

theorem word_of_bytes (w : Word) : ((w >>> 8).setWidth 8).setWidth 16 <<< 8 ||| (w.setWidth 8).setWidth 16 = w := by
  apply BitVec.eq_of_getLsbD_eq
  intro j small
  by_cases low : j < 8
  · simp [low, small]
  · have upper : j - 8 < 8 := by omega
    have back : 8 + (j - 8) = j := by omega
    simp [low, small, upper, back]

theorem getD_wordBytes (words : List Word) (n : Nat) :
    (words.flatMap wordBytes).getD (2 * n) 0 = (words.getD n 0).setWidth 8 ∧
      (words.flatMap wordBytes).getD (2 * n + 1) 0 = (words.getD n 0 >>> 8).setWidth 8 := by
  induction words generalizing n with
  | nil => simp
  | cons w words ih =>
    cases n with
    | zero => exact ⟨rfl, rfl⟩
    | succ n => exact ih n

theorem wordAt_wordBytes (words : List Word) (n : Nat) : wordAt (words.flatMap wordBytes) n = words.getD n 0 := by
  obtain ⟨low, high⟩ := getD_wordBytes words n
  rw [wordAt, low, high, word_of_bytes]

theorem ofBytes_bytes (s : ProcState) : ProcState.ofBytes s.bytes = s := by
  have word : ∀ n, wordAt s.bytes n = s.words.getD n 0 := wordAt_wordBytes s.words
  obtain ⟨regs, pc, arithFlags, memPages, progPages⟩ := s
  simp only [ProcState.ofBytes, word, ProcState.mk.injEq]
  refine ⟨?_, rfl, rfl, ?_, ?_⟩
  · funext r
    fin_cases r <;> rfl
  · funext e
    fin_cases e <;> rfl
  · funext e
    fin_cases e <;> rfl

abbrev PageTables : Type := (Fin 16 → Word) × (Fin 16 → Word)

def tables (s : ProcState) : PageTables := (s.memPages, s.progPages)

def tableOffset : Nat := 20

theorem drop_eq_iff {α : Type} {n : Nat} {a b : List α} : a.drop n = b.drop n ↔ ∀ j, n ≤ j → a[j]? = b[j]? := by
  constructor
  · intro same j beyond
    have equal := congrArg (fun list => list[j - n]?) same
    simpa only [List.getElem?_drop, Nat.add_sub_cancel' beyond] using equal
  · intro same
    apply List.ext_getElem?
    intro j
    simp only [List.getElem?_drop]
    exact same _ (Nat.le_add_right n j)

theorem ofBytes_tables {a b : List Byte} (same : a.drop tableOffset = b.drop tableOffset) :
    tables (ProcState.ofBytes a) = tables (ProcState.ofBytes b) := by
  have word : ∀ n, 10 ≤ n → wordAt a n = wordAt b n := by
    intro n beyond
    have low := drop_eq_iff.mp same (2 * n) (by unfold tableOffset; omega)
    have high := drop_eq_iff.mp same (2 * n + 1) (by unfold tableOffset; omega)
    simp only [wordAt, List.getD_eq_getElem?_getD, low, high]
  exact Prod.ext (funext fun e => word _ (by omega)) (funext fun e => word _ (by omega))

theorem readPage_length (phys : PhysMem) (page start : Word) (length : Nat) :
    (readPage phys page start length).length = length := by simp [readPage]

theorem virtLocalPart_lt (addr : Word) : (virtLocalPart addr).toNat < pageSize := by
  rw [virtLocalPart_toNat]
  exact Nat.mod_lt _ (by decide)

theorem splice_kept {old image chunk rest : List Byte} {done : Nat}
    (kept : image.drop tableOffset = old.drop tableOffset)
    (intact : (image.take done ++ (chunk ++ rest)).drop tableOffset = old.drop tableOffset)
    (inside : done ≤ image.length) : (image.take done ++ chunk ++ image.drop (done + chunk.length)).drop tableOffset =
      old.drop tableOffset := by
  rw [drop_eq_iff] at kept intact ⊢
  intro j beyond
  have length : (image.take done ++ chunk).length = done + chunk.length := by
    rw [List.length_append, List.length_take_of_le inside]
  rcases lt_or_ge j (done + chunk.length) with early | late
  · have inChunk : j < (image.take done ++ chunk).length := by omega
    rw [← intact j beyond, ← List.append_assoc, List.getElem?_append_left inChunk,
      List.getElem?_append_left inChunk]
  · rw [List.getElem?_append_right (by omega), List.getElem?_drop, length, Nat.add_sub_cancel' late]
    exact kept j beyond

variable {phys : PhysMem} {ubuff : Word} {s : ProcState}

theorem copyState_image {old : List Byte} {fuel done : Nat} {image : List Byte}
    {size page : Word} (whole : done + size.toNat = image.length) (enough : size.toNat ≤ fuel)
    (kept : image.drop tableOffset = old.drop tableOffset)
    (intact : (image.take done ++ readUser phys (userChunks (ProcState.ofBytes old).memPages fuel ubuff
      size)).drop tableOffset = old.drop tableOffset) : (copyState phys fuel image done ubuff size page).1 =
      image.take done ++ readUser phys (userChunks (ProcState.ofBytes old).memPages fuel ubuff size) := by
  induction fuel generalizing image done ubuff size page with
  | zero =>
    have all : done = image.length := by omega
    simp [copyState, userChunks, readUser, all]
  | succ fuel ih =>
    by_cases empty : size = 0
    · have all : done = image.length := by simpa [empty] using whole
      simp [copyState, userChunks, readUser, all, empty]
    · have page_eq : (ProcState.ofBytes image).memPages (virtPagePart ubuff) =
          (ProcState.ofBytes old).memPages (virtPagePart ubuff) :=
        congrFun (congrArg Prod.fst (ofBytes_tables kept)) (virtPagePart ubuff)
      have room := virtLocalPart_lt ubuff
      set count := min size.toNat (pageSize - (virtLocalPart ubuff).toNat) with counted
      have some_left : size.toNat ≠ 0 := fun zero => empty (BitVec.eq_of_toNat_eq zero)
      have positive : 0 < count := by omega
      have small : count ≤ size.toNat := by omega
      have left : (size - BitVec.ofNat 16 count).toNat = size.toNat - count := by bv_omega
      set chunk := readPage phys ((ProcState.ofBytes old).memPages (virtPagePart ubuff))
        (virtLocalPart ubuff) count with chunked
      have length : chunk.length = count := readPage_length _ _ _ _
      have unfolded : readUser phys (userChunks (ProcState.ofBytes old).memPages (fuel + 1) ubuff size) =
          chunk ++ readUser phys (userChunks (ProcState.ofBytes old).memPages fuel
            (ubuff + BitVec.ofNat 16 count) (size - BitVec.ofNat 16 count)) := by
        rw [userChunks, if_neg empty]
        rfl
      rw [unfolded] at intact ⊢
      have fits : done ≤ image.length := by omega
      have next := splice_kept kept intact fits
      rw [length] at next
      rw [copyState, if_neg empty]
      simp only [page_eq, ← counted, ← chunked]
      have taken : (image.take done ++ chunk ++ image.drop (done + count)).take (done + count) =
          image.take done ++ chunk := by
        apply List.take_left'
        rw [List.length_append, List.length_take_of_le fits, length]
      rw [ih ?_ ?_ next ?_]
      · rw [taken, List.append_assoc]
      · simp only [List.length_append, List.length_take_of_le fits, length, List.length_drop, left]
        omega
      · omega
      · rw [taken, List.append_assoc]
        exact intact

theorem bytes_length (s : ProcState) : s.bytes.length = sizeofProcState := by
  simp [ProcState.bytes, ProcState.words, wordBytes, sizeofProcState]

theorem copyState_frame (page : Word) (intact : (readUser phys (userChunks s.memPages sizeofProcState ubuff
      (BitVec.ofNat 16 sizeofProcState))).drop tableOffset = s.bytes.drop tableOffset) :
    (copyState phys sizeofProcState s.bytes 0 ubuff (BitVec.ofNat 16 sizeofProcState) page).1 =
      readUser phys (userChunks s.memPages sizeofProcState ubuff (BitVec.ofNat 16 sizeofProcState)) := by
  have own : (ProcState.ofBytes s.bytes).memPages = s.memPages := by rw [ofBytes_bytes]
  rw [← own] at intact ⊢
  set copied := readUser phys (userChunks (ProcState.ofBytes s.bytes).memPages sizeofProcState ubuff
    (BitVec.ofNat 16 sizeofProcState))
  have image : (copyState phys sizeofProcState s.bytes 0 ubuff (BitVec.ofNat 16 sizeofProcState) page).1 =
      s.bytes.take 0 ++ copied := copyState_image (by rw [bytes_length]; rfl) (le_of_eq rfl) rfl intact
  rwa [List.take_zero, List.nil_append] at image

theorem copyState_tables (page : Word) (intact : (readUser phys (userChunks s.memPages sizeofProcState ubuff
      (BitVec.ofNat 16 sizeofProcState))).drop tableOffset = s.bytes.drop tableOffset) :
    tables (ProcState.ofBytes (copyState phys sizeofProcState s.bytes 0 ubuff
      (BitVec.ofNat 16 sizeofProcState) page).1) = tables s := by
  rw [copyState_frame page intact]
  have same := ofBytes_tables intact
  rwa [ofBytes_bytes] at same

theorem bytes_tables {t : ProcState} (same : tables s = tables t) :
    s.bytes.drop tableOffset = t.bytes.drop tableOffset := by
  have split : ∀ s : ProcState, s.bytes.drop tableOffset =
      (List.ofFn s.memPages ++ List.ofFn s.progPages).flatMap wordBytes := by
    intro s
    have whole : s.bytes = (List.ofFn s.regs ++ [s.pc, s.arithFlags]).flatMap wordBytes ++
        (List.ofFn s.memPages ++ List.ofFn s.progPages).flatMap wordBytes := by
      simp [ProcState.bytes, ProcState.words]
    rw [whole]
    apply List.drop_left'
    simp [wordBytes, tableOffset]
  obtain ⟨mem, prog⟩ := Prod.mk.inj same
  rw [split, split, mem, prog]

def savedFrame (phys : PhysMem) (p : Proc) : List Byte :=
  readUser phys (userChunks p.syscallState.memPages sizeofProcState
    (p.syscallState.regs 5 + BitVec.ofNat 16 sizeofSignal + 2) (BitVec.ofNat 16 sizeofProcState))

/-- No call stores behind an array, and a handler returns with the tables its process has. -/
def Intact (m : Machine) : Action → Prop
  | .call answers => ∀ i ∈ m.kernel.currentProc, ∀ p ∈ m.kernel.procs[i]?, ¬ Overruns p answers ∧
      (p.syscall = some .sighdlrret →
        (savedFrame m.kernel.phys p).drop tableOffset = p.syscallState.bytes.drop tableOffset)
  | _ => True

instance (m : Machine) (action : Action) : Decidable (Intact m action) := by
  apply @Kernel.Action.casesOn (fun action => Decidable (Intact m action)) action <;> intros <;>
    dsimp only [Intact] <;> infer_instance

end PiOS.Proof
