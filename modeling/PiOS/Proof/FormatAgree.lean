import PiOS.Proof.Stdio
import PiOS.Proof.Vsprintf

namespace PiOS.Proof.FormatAgree
open Kernel Libc Format Vsprintf Proof.Printf Proof.Stdio

structure Matches (args : PrintfArgs) (items : List Item) : Prop where
  known : ∀ item ∈ items, ∀ l, item ≠ .lx l
  format : args.format = spelling items
  words : ∀ j w, (words items)[j]? = some w → args.vlist j = w
  strings : ∀ item ∈ items, ∀ q ∈ item.strings, args.string q.1 = q.2

section Render

variable {args : PrintfArgs} {item : Item} {items : List Item} {i : Nat}

theorem render_item (known : ∀ l, item ≠ .lx l) (words : ∀ w, item.words[0]? = some w → args.vlist i = w)
    (strings : ∀ q ∈ item.strings, args.string q.1 = q.2) (rest : List Byte) :
    render args (item.spelling ++ rest) i = item.rendering ++ render args rest (i + item.words.length) := by
  cases item with
  | literal b plain => exact render_plain plain.2 rest i
  | d w | i w =>
    rw [Item.rendering, ← formatInt_eq, ← words w rfl]
    rfl
  | u w | x w =>
    rw [Item.rendering, ← utoa_eq (by decide) (by decide), ← words w rfl]
    rfl
  | s ptr text free =>
    have string : args.string ptr = text := strings (ptr, text) List.mem_cons_self
    have printed : render args (Item.spelling (.s ptr text free) ++ rest) i =
      args.string (args.vlist i) ++ render args rest (i + 1) := rfl
    rw [printed, words ptr rfl, string]
    rfl
  | c w =>
    rw [Item.rendering, ← words w rfl]
    rfl
  | lx l => exact absurd rfl (known l)

theorem render_items (known : ∀ item ∈ items, ∀ l, item ≠ .lx l)
    (words : ∀ j w, (words items)[j]? = some w → args.vlist (i + j) = w)
    (strings : ∀ item ∈ items, ∀ q ∈ item.strings, args.string q.1 = q.2) :
    render args (spelling items) i = Format.rendering items := by
  induction items generalizing i with
  | nil => rfl
  | cons item items ih =>
    rw [List.forall_mem_cons] at known strings
    have listed : Format.words (item :: items) = item.words ++ Format.words items := rfl
    rw [listed] at words
    have spelled : spelling (item :: items) = item.spelling ++ spelling items := rfl
    have first : ∀ w, item.words[0]? = some w → args.vlist i = w := by
      intro w here
      refine words 0 w ?_
      rwa [List.getElem?_append_left (List.getElem?_eq_some_iff.mp here).1]
    have rest : render args (spelling items) (i + item.words.length) = Format.rendering items := by
      refine ih known.2 (fun j w there => ?_) strings.2
      rw [Nat.add_assoc]
      refine words _ w ?_
      rwa [List.getElem?_append_right (Nat.le_add_right _ _), Nat.add_sub_cancel_left]
    rw [spelled, render_item known.1 first strings.1, rest]
    rfl

theorem Matches.rendering (matched : Matches args items) : Printf.rendering args = Format.rendering items := by
  rw [Printf.rendering, matched.format]
  refine render_items matched.known (fun j w there => ?_) matched.strings
  rw [Nat.zero_add]
  exact matched.words j w there

end Render

section Stream

variable {answer : StdioEvent → Word} {file : File} {events : List StdioEvent}

theorem store_unbuffered (answer : StdioEvent → Word) (unbuffered : file.buffType = .unbuff) {data : List Byte} (short : data.length < 0x10000) :
    sentBytes (store answer file data).2.2 = data ∧ (store answer file data).2.1.buffType = .unbuff := by
  have direct : ¬ Buffers file data := fun buffers => buffers.1.1 unbuffered
  have flushed : fflush answer file = (0, file, []) := if_pos (Or.inl unbuffered)
  rw [store_eq short, if_neg direct, flushed]
  simp only [ne_eq, not_true_eq_false, if_false, List.nil_append]
  split <;> exact ⟨List.append_nil _, unbuffered⟩

theorem stores_unbuffered {writes : List (List Byte)} (unbuffered : file.buffType = .unbuff)
    (short : ∀ data ∈ writes, data.length < 0x10000) :
    sentBytes (stores answer (file, events) writes).2 = sentBytes events ++ writes.flatten := by
  induction writes generalizing file events with
  | nil => exact (List.append_nil _).symm
  | cons data writes ih =>
    rw [List.forall_mem_cons] at short
    obtain ⟨sent, still⟩ := store_unbuffered answer unbuffered short.1
    rw [stores, List.foldl_cons]
    refine (ih still short.2).trans ?_
    rw [sentBytes_append, sent, List.flatten_cons, List.append_assoc]

theorem vfprintf_unbuffered (answer : StdioEvent → Word) (unbuffered : file.buffType = .unbuff) (args : PrintfArgs) :
    sentBytes (vfprintf answer file args).2.2 = Printf.rendering args := by
  have fed := congrArg Prod.snd (@feed_calls answer ⟨file, 0, []⟩ (calls args args.format 0))
  have short : ∀ data ∈ (calls args args.format 0).map Call.text, data.length < 0x10000 := by
    intro data member
    obtain ⟨c, among, rfl⟩ := List.mem_map.mp member
    have sound := calls_sound args args.format 0 c among
    cases c with
    | putc c => exact Nat.lt_of_succ_lt (by decide : 2 < 0x10000)
    | write run => exact sound.2
  simp only [vfprintf, sink_loop_eq]
  refine (congrArg sentBytes fed).trans ?_
  rw [stores_unbuffered unbuffered short, ← rendering_eq, List.flatMap_def]
  rfl

end Stream

section Buffer

variable {buffer bufsz : Word} {args : PrintfArgs} {mem : Word → Byte}

theorem storesTo_untouched {place : Word} {stores : List (Word × Byte)} (apart : ∀ st ∈ stores, st.1 ≠ place) :
    storesTo mem stores place = mem place := by
  induction stores generalizing mem with
  | nil => rfl
  | cons st stores ih =>
    rw [List.forall_mem_cons] at apart
    rw [storesTo, List.foldl_cons]
    exact (ih apart.2).trans (Function.update_of_ne (Ne.symm apart.1) _ _)

theorem start_limit (special : bufsz ≠ 0xffff) {cap : Nat} (limit : (buffer + bufsz - 1).toNat = buffer.toNat + cap) :
    (vsnprintfStart buffer bufsz).buffMax = BitVec.ofNat 16 (buffer.toNat + cap) := by
  rw [← limit, BitVec.ofNat_toNat, BitVec.setWidth_eq]
  exact if_neg special

theorem afterText_placed (args : PrintfArgs) (special : bufsz ≠ 0xffff) {cap : Nat} (limit : (buffer + bufsz - 1).toNat = buffer.toNat + cap)
    (large : (Printf.rendering args).length ≤ cap) :
    Placed buffer.toNat cap (Printf.rendering args) (afterText buffer bufsz args) := by
  have room : 0 + ((calls args args.format 0).flatMap Call.text).length ≤ cap := by
    rw [rendering_eq]
    omega
  have bound := (buffer + bufsz - 1).isLt
  have placed := (placed_start (start_limit special limit)).run (by omega) (fits_of_room room)
  rwa [List.nil_append, rendering_eq] at placed

theorem limit_toNat (buffer : Word) (large : 1 < bufsz.toNat) :
    (buffer + bufsz - 1).toNat = (buffer.toNat + (bufsz.toNat - 1)) % 0x10000 := by
  have one : (1 : Word).toNat = 1 := rfl
  rw [BitVec.toNat_sub, BitVec.toNat_add, one]
  omega

theorem vsnprintf_stores (special : bufsz ≠ 0xffff) (large : (Printf.rendering args).length + 1 < bufsz.toNat)
    (below : buffer.toNat + bufsz.toNat ≤ 0xffff) :
    (vsnprintf buffer bufsz args).2 = memcpy buffer (Printf.rendering args ++ [0]) := by
  have limit : (buffer + bufsz - 1).toNat = buffer.toNat + (bufsz.toNat - 1) := by
    rw [limit_toNat buffer (by omega), Nat.mod_eq_of_lt (by omega)]
  have placed := afterText_placed args special limit (by omega)
  have positive : bufsz ≠ 0 := by
    rintro rfl
    exact absurd large (Nat.not_lt_zero _)
  rw [vsnprintf_eq positive, (finish_below placed.toTrack (by omega)).2, placed.stores, placed.place (by omega),
    List.take_of_length_le (by omega), memcpy_append, BitVec.ofNat_toNat, BitVec.setWidth_eq]
  rfl

structure Wrapped (base bound : Nat) (s : Printf) : Prop where
  limit : s.buffMax.toNat < base
  pointer : s.buffToWrite.toNat = base ∨ s.buffToWrite = s.buffMax
  stores : ∀ st ∈ s.stores, st.1.toNat < bound

variable {base bound : Nat} {s : Printf}

theorem Wrapped.exec (wrapped : Wrapped base bound s) (c : Call)
    (short : base + c.text.length ≤ bound) (inside : bound ≤ 0xffff) : Wrapped base bound (c.exec s) := by
  obtain ⟨limit, pointer, stores⟩ := wrapped
  have low : s.buffMax.toNat ≤ s.buffToWrite.toNat ∧ s.buffToWrite.toNat ≤ base := by
    rcases pointer with start | down
    · omega
    · rw [down]
      omega
  cases c with
  | putc c =>
    rw [Call.exec_putc, Printf.printfPutc, if_neg (BitVec.not_lt.mpr low.1)]
    exact ⟨limit, pointer, stores⟩
  | write run =>
    rw [Call.text_write] at short
    have place : ∀ j ≤ run.length, (s.buffToWrite + BitVec.ofNat 16 j).toNat = s.buffToWrite.toNat + j := by
      intro j le
      rw [BitVec.toNat_add, BitVec.toNat_ofNat]
      omega
    have past : s.buffMax ≤ s.buffToWrite + BitVec.ofNat 16 run.length := by
      rw [BitVec.le_def, place _ le_rfl]
      omega
    refine ⟨limit, Or.inr ?_, ?_⟩
    · simp only [Call.exec_write, Printf.printfWrite, past, if_true]
      exact add_sub_cancel _ _
    · intro st member
      rcases List.mem_append.mp member with old | new
      · exact stores st old
      · obtain ⟨j, less, at_j⟩ := of_mem_memcpy new
        rw [at_j, place j less.le]
        omega

theorem Wrapped.run (wrapped : Wrapped base bound s) (cs : List Call)
    (short : base + (cs.flatMap Call.text).length ≤ bound) (inside : bound ≤ 0xffff) :
    Wrapped base bound (cs.foldl Call.exec s) := by
  induction cs generalizing s with
  | nil => exact wrapped
  | cons c cs ih =>
    rw [List.flatMap_cons, List.length_append] at short
    exact ih (wrapped.exec c (by omega) inside) (by omega)

theorem Wrapped.finish (wrapped : Wrapped base bound s) (le : base ≤ bound) :
    ∀ st ∈ (Printf.finish s).stores, st.1.toNat < bound := by
  obtain ⟨limit, pointer, stores⟩ := wrapped
  unfold Printf.finish Printf.printfPutc
  split
  · rename_i less
    have down : s.buffToWrite = s.buffMax := by
      rcases pointer with start | down
      · have raised : (s.buffMax + 1).toNat ≤ base := by
          rw [BitVec.toNat_add]
          exact (Nat.mod_le _ _).trans limit
        exact absurd (BitVec.lt_def.mp less) (by simp only; omega)
      · exact down
    intro st member
    rcases List.mem_append.mp member with old | new
    · exact stores st old
    · obtain rfl := List.mem_singleton.mp new
      simp only [down]
      omega
  · exact stores

theorem vsnprintf_unterminated (special : bufsz ≠ 0xffff) (large : (Printf.rendering args).length + 1 < bufsz.toNat)
    (inside : buffer.toNat + (Printf.rendering args).length ≤ 0xffff) (above : 0xffff < buffer.toNat + bufsz.toNat) :
    storesTo mem (vsnprintf buffer bufsz args).2 (buffer + BitVec.ofNat 16 (Printf.rendering args).length) =
      mem (buffer + BitVec.ofNat 16 (Printf.rendering args).length) := by
  have positive : bufsz ≠ 0 := by
    rintro rfl
    exact absurd large (Nat.not_lt_zero _)
  have small := bufsz.isLt
  have limit := limit_toNat buffer (show 1 < bufsz.toNat by omega)
  rw [vsnprintf_eq positive]
  rcases Nat.lt_or_ge 0x10000 (buffer.toNat + bufsz.toNat) with beyond | top
  · have start : Wrapped buffer.toNat (buffer.toNat + (Printf.rendering args).length) (vsnprintfStart buffer bufsz) := by
      refine ⟨?_, Or.inl rfl, nofun⟩
      rw [vsnprintfStart, if_neg special, limit]
      have : bufsz.toNat ≠ 0xffff := fun same => special (BitVec.eq_of_toNat_eq same)
      omega
    have wrapped := start.run (calls args args.format 0) (by rw [rendering_eq]) inside
    apply storesTo_untouched
    intro st member same
    have bound := wrapped.finish (Nat.le_add_right _ _) st member
    rw [same, BitVec.toNat_add, BitVec.toNat_ofNat] at bound
    omega
  · have last : (buffer + bufsz - 1).toNat = buffer.toNat + (0xffff - buffer.toNat) := by omega
    have placed := afterText_placed args special last (by omega)
    have top : (afterText buffer bufsz args).buffMax = 0xffff := by
      rw [placed.buffMax, Nat.add_sub_of_le (by omega)]
      rfl
    rw [(finish_top top).2, placed.stores, List.take_of_length_le (by omega), BitVec.ofNat_toNat, BitVec.setWidth_eq,
      storesTo_outside le_rfl (by omega)]

end Buffer

/-- `vsprintf` and `vsnprintf` leave the same `n` bytes and a zero behind them, and `vfprintf` sends these bytes
without the zero. -/
def Agree (limit : Nat) (c : Printer) (n : Nat) (buffer bufsz : Word) (file : File) (args : PrintfArgs) : Prop :=
  ∃ c', c.vsprintf limit = .ok c' ∧
    (∀ mem : Word → Byte, (List.range (n + 1)).map (fun i =>
      storesTo mem (vsnprintf buffer bufsz args).2 (buffer + BitVec.ofNat 16 i)) = c'.bytes.read c.buff (n + 1)) ∧
    c'.bytes.read c.buff (n + 1) = sentBytes (vfprintf accepting file args).2.2 ++ [0]

theorem formatters_agree_iff (limit : Nat) (c : Printer) (items : List Item) (loaded : Loaded c.buff limit c items)
    (room : c.buff + (rendering items).length < limit) (args : PrintfArgs) (matched : Matches args items) (file : File)
    (unbuffered : file.buffType = .unbuff) (buffer bufsz : Word) (large : (rendering items).length + 1 < bufsz.toNat)
    (special : bufsz ≠ 0xffff) (inside : buffer.toNat + (rendering items).length ≤ 0xffff) :
    Agree limit c (rendering items).length buffer bufsz file args ↔ buffer.toNat + bufsz.toNat ≤ 0xffff := by
  obtain ⟨c', printed, -, text⟩ := vsprintf_items loaded room
  have sent : sentBytes (vfprintf accepting file args).2.2 = rendering items :=
    (vfprintf_unbuffered accepting unbuffered args).trans matched.rendering
  have small := bufsz.isLt
  rw [← matched.rendering] at large inside text sent ⊢
  constructor
  · rintro ⟨c'', again, same, -⟩
    obtain rfl := Except.ok.inj (printed.symm.trans again)
    by_contra above
    have last := congrArg (fun bytes => bytes[(Printf.rendering args).length]?) (same fun _ => 1)
    rw [text] at last
    simp [vsnprintf_unterminated special large inside (Nat.lt_of_not_le above)] at last
  · intro below
    refine ⟨c', printed, fun mem => ?_, by rw [text, sent]⟩
    rw [text, vsnprintf_stores special large below]
    apply List.ext_getElem
    · simp
    · intro i less _
      rw [List.length_map, List.length_range] at less
      rw [List.getElem_map, List.getElem_range,
        storesTo_inside (by rw [List.length_append, List.length_singleton]; omega) (by simpa using less)]

def numberItems : List Item := [.literal (ascii 'n') (by decide), .x 0x2f]

def numberPrinter : Printer where
  bytes := (HeapBytes.write (fun _ => 0) 0x100 (spelling numberItems)).write 0x200 ((words numberItems).flatMap wordBytes)
  buff := 0x1000
  str := 0x100
  vlist := 0x200

def numberArgs : PrintfArgs where
  format := spelling numberItems
  vlist _ := 0x2f
  string _ := []
  formatZeros := by decide
  stringZeros _ := nofun
  stringShort := Printf.oneLetter.stringShort

def rawFile : File := ⟨1, .unbuff, fun _ => 0, 0, 0, 0⟩

theorem numberLoaded : Loaded 0x1000 0x1100 numberPrinter numberItems where
  format := ⟨by decide +kernel, by decide, by decide⟩
  args := ⟨by decide +kernel, by decide, by decide⟩
  strings := by
    intro item member q string
    have listed : q ∈ numberItems.flatMap Item.strings := List.mem_flatMap.mpr ⟨item, member, string⟩
    cases listed

theorem numberMatches : Matches numberArgs numberItems where
  known := by
    intro item member l
    rcases List.mem_pair.mp member with rfl | rfl
    · exact nofun
    · exact nofun
  format := rfl
  words := by
    intro j w there
    obtain ⟨inside, rfl⟩ := List.getElem?_eq_some_iff.mp there
    obtain rfl : j = 0 := Nat.lt_one_iff.mp inside
    rfl
  strings := by
    intro item member q string
    have listed : q ∈ numberItems.flatMap Item.strings := List.mem_flatMap.mpr ⟨item, member, string⟩
    cases listed

theorem formatters_agree_number : Agree 0x1100 numberPrinter 3 0x2000 0x20 rawFile numberArgs :=
  (formatters_agree_iff 0x1100 numberPrinter numberItems numberLoaded (by decide +kernel) numberArgs numberMatches rawFile
    rfl 0x2000 0x20 (by decide +kernel) (by decide) (by decide +kernel)).mpr (by decide)

theorem formatters_differ_at_top : ¬ Agree 0x1100 numberPrinter 3 0xfff0 0x10 rawFile numberArgs ∧
    ¬ Agree 0x1100 numberPrinter 3 0x2000 0xfffe rawFile numberArgs := by
  constructor
  · rintro ⟨c', -, same, sent⟩
    exact absurd ((same fun _ => 1).trans sent) (by decide +kernel)
  · rintro ⟨c', -, same, sent⟩
    exact absurd ((same fun _ => 1).trans sent) (by decide +kernel)

end PiOS.Proof.FormatAgree
