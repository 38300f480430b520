import PiOS.Proof.Format

namespace PiOS.Proof.Vsprintf
open Kernel Heap Print Format Transition

structure Holds (bytes : HeapBytes) (start limit a : Nat) (data : List Byte) : Prop where
  held : bytes.read a data.length = data
  inside : a + data.length ≤ 0x10000
  apart : a + data.length ≤ start ∨ limit ≤ a

namespace Holds

variable {bytes : HeapBytes} {start limit a : Nat} {b : Byte} {data rest : List Byte}

theorem append (holds : Holds bytes start limit a (data ++ rest)) :
    Holds bytes start limit a data ∧ Holds bytes start limit (a + data.length) rest := by
  obtain ⟨held, inside, apart⟩ := holds
  rw [List.length_append] at held inside apart
  rw [read_add] at held
  obtain ⟨front, back⟩ := List.append_inj held (HeapBytes.read_length _ _ _)
  exact ⟨⟨front, by omega, by omega⟩, ⟨back, by omega, by omega⟩⟩

theorem load (holds : Holds bytes start limit a (b :: data)) : bytes.load a = b := by
  have inside := holds.inside
  have held := holds.held
  rw [List.length_cons] at inside held
  rw [read_succ] at held
  rw [load_small _ (by omega), (List.cons.inj held).1]

theorem tail (holds : Holds bytes start limit a (b :: data)) : Holds bytes start limit (a + 1) data :=
  (@append bytes start limit a [b] data holds).2

theorem kept (holds : Holds bytes start limit a data) {bytes' : HeapBytes}
    (same : ∀ x, x < start ∨ limit ≤ x → bytes' x = bytes x) : Holds bytes' start limit a data where
  held := by
    have apart := holds.apart
    refine Eq.trans (List.map_congr_left ?_) holds.held
    intro j inside
    rw [List.mem_range] at inside
    exact same _ (by omega)
  inside := holds.inside
  apart := holds.apart

theorem write (holds : Holds bytes start limit a data) {at' : Nat} {text : List Byte} (low : start ≤ at')
    (high : at' + text.length ≤ limit) : Holds (bytes.write at' text) start limit a data := by
  apply holds.kept
  intro x outside
  rcases outside with before | behind
  · exact write_before _ _ (by omega)
  · exact write_behind _ (by omega)

end Holds

section Turn

variable {start limit : Nat} {c : Printer}

theorem vaArg_eq {w : Word} (held : Holds c.bytes start limit c.vlist (wordBytes w)) :
    c.vaArg = (w, { c with vlist := c.vlist + 2 }) := by
  have word : wordAt (wordBytes w) 0 = w := by simpa using wordAt_wordBytes [w] 0
  rw [Printer.vaArg, held.load, held.tail.load]
  exact congrArg (Prod.mk · _) word

theorem directive_int {letter : Char} (known : letter = 'd' ∨ letter = 'i') (c : Printer)
    (here : c.current = ascii letter) :
    c.directive limit = c.next.vaArg.2.put limit (formatInt c.next.vaArg.1) [0] := by
  rcases known with rfl | rfl
  · rw [Printer.directive, here]
    rfl
  · rw [Printer.directive, here]
    rfl

theorem turn_word {letter : Char} (text behind : Word → List Byte) {w : Word}
    (format : Holds c.bytes start limit c.str [ascii '%', ascii letter])
    (args : Holds c.bytes start limit c.vlist (wordBytes w)) (directive : ∀ c : Printer, c.current = ascii letter →
      c.directive limit = c.next.vaArg.2.put limit (text c.next.vaArg.1) (behind c.next.vaArg.1))
    (room : c.buff + (text w ++ behind w).length ≤ limit) :
    c.turn limit = .ok ⟨c.bytes.write c.buff (text w ++ behind w), c.buff + (text w).length, c.str + 2, c.vlist + 2⟩ := by
  have mark : c.current = ascii '%' := format.load
  have here : c.next.current = ascii letter := format.tail.load
  have word : c.next.next.vaArg = (w, { c.next.next with vlist := c.vlist + 2 }) := vaArg_eq (c := c.next.next) args
  rw [Printer.turn, if_pos mark, directive _ here, word]
  exact put_eq room

theorem turn_string {ptr : Word} {text : List Byte} (free : 0 ∉ text)
    (format : Holds c.bytes start limit c.str [ascii '%', ascii 's'])
    (args : Holds c.bytes start limit c.vlist (wordBytes ptr))
    (string : Holds c.bytes start limit ptr.toNat (text ++ [0])) (low : start ≤ c.buff)
    (room : c.buff + text.length < limit) :
    c.turn limit = .ok ⟨c.bytes.write c.buff (text ++ [0]), c.buff + text.length, c.str + 2, c.vlist + 2⟩ := by
  have mark : c.current = ascii '%' := format.load
  have here : c.next.current = ascii 's' := format.tail.load
  have word : c.next.next.vaArg = (ptr, { c.next.next with vlist := c.vlist + 2 }) := vaArg_eq (c := c.next.next) args
  obtain ⟨held, inside, apart⟩ := string
  rw [List.length_append, List.length_singleton] at held inside apart
  have directive : c.next.directive limit = c.next.next.vaArg.2.putString limit c.next.next.vaArg.1.toNat := by
    rw [Printer.directive, here]
    rfl
  rw [Printer.turn, if_pos mark, directive, word]
  have away : ptr.toNat + text.length < c.buff ∨ c.buff + text.length < ptr.toNat := by omega
  exact putString_text (c := ⟨c.bytes, c.buff, c.str + 2, c.vlist + 2⟩) free held inside away room

theorem turn_long {l : BitVec 32} (format : Holds c.bytes start limit c.str [ascii '%', ascii 'l', ascii 'x'])
    (args : Holds c.bytes start limit c.vlist (wordBytes (l.setWidth 16) ++ wordBytes ((l >>> 16).setWidth 16)))
    (room : c.buff + (unsigned 16 l.toNat ++ [0]).length ≤ limit) :
    c.turn limit = .ok ⟨c.bytes.write c.buff (unsigned 16 l.toNat ++ [0]), c.buff + (unsigned 16 l.toNat).length,
      c.str + 3, c.vlist + 4⟩ := by
  have mark : c.current = ascii '%' := format.load
  have here : c.next.current = ascii 'l' := format.tail.load
  have following : c.next.next.current = ascii 'x' := format.tail.tail.load
  have low := vaArg_eq (c := c.next.next.next) args.append.1
  have high := vaArg_eq (c := { c.next.next.next with vlist := c.vlist + 2 }) args.append.2
  have directive : c.next.directive limit = c.next.next.directiveLong limit := by
    rw [Printer.directive, here]
    rfl
  rw [Printer.turn, if_pos mark, directive, Printer.directiveLong, if_pos following, low]
  simp only [Printer.next] at high ⊢
  rw [high]
  simp only [formatLong_eq]
  exact put_eq room

theorem turn_item {item : Item} (format : Holds c.bytes start limit c.str item.spelling)
    (args : Holds c.bytes start limit c.vlist (item.words.flatMap wordBytes))
    (strings : ∀ q ∈ item.strings, Holds c.bytes start limit q.1.toNat (q.2 ++ [0])) (low : start ≤ c.buff)
    (room : c.buff + item.rendering.length < limit) : ∃ behind : List Byte, behind.length ≤ 1 ∧ c.turn limit =
      .ok ⟨c.bytes.write c.buff (item.rendering ++ behind), c.buff + item.rendering.length,
        c.str + item.spelling.length, c.vlist + 2 * item.words.length⟩ := by
  have zero : c.buff + (item.rendering ++ [0]).length ≤ limit := by
    rw [List.length_append]
    exact room
  cases item with
  | literal b plain =>
    have here : c.current = b := format.load
    refine ⟨[], Nat.zero_le 1, ?_⟩
    rw [Printer.turn, here, if_neg plain.2]
    exact put_eq room.le
  | d w =>
    refine ⟨[0], le_rfl, ?_⟩
    rw [Item.rendering, ← formatInt_eq] at zero ⊢
    exact turn_word formatInt (fun _ => [0]) format args (directive_int (Or.inl rfl)) zero
  | i w =>
    refine ⟨[0], le_rfl, ?_⟩
    rw [Item.rendering, ← formatInt_eq] at zero ⊢
    exact turn_word formatInt (fun _ => [0]) format args (directive_int (Or.inr rfl)) zero
  | u w =>
    refine ⟨[0], le_rfl, ?_⟩
    rw [Item.rendering, ← utoa_eq (by decide) (by decide)] at zero ⊢
    exact turn_word (utoa · 10) (fun _ => [0]) format args (fun c here => by rw [Printer.directive, here]; rfl) zero
  | x w =>
    refine ⟨[0], le_rfl, ?_⟩
    rw [Item.rendering, ← utoa_eq (by decide) (by decide)] at zero ⊢
    exact turn_word (utoa · 16) (fun _ => [0]) format args (fun c here => by rw [Printer.directive, here]; rfl) zero
  | s ptr text free =>
    exact ⟨[0], le_rfl, turn_string free format args (strings (ptr, text) List.mem_cons_self) low room⟩
  | c w =>
    refine ⟨[], Nat.zero_le 1, ?_⟩
    exact turn_word (fun w => [w.setWidth 8]) (fun _ => []) format args
      (fun c here => by rw [Printer.directive, here]; rfl) room.le
  | lx l => exact ⟨[0], le_rfl, turn_long format args zero⟩

end Turn

structure Loaded (start limit : Nat) (c : Printer) (items : List Item) : Prop where
  format : Holds c.bytes start limit c.str (spelling items ++ [0])
  args : Holds c.bytes start limit c.vlist ((words items).flatMap wordBytes)
  strings : ∀ item ∈ items, ∀ q ∈ item.strings, Holds c.bytes start limit q.1.toNat (q.2 ++ [0])

section Loop

variable {start limit : Nat} {c : Printer} {item : Item} {items : List Item}

theorem Loaded.write (loaded : Loaded start limit c items) {text : List Byte} (buff : Nat) (low : start ≤ c.buff)
    (high : c.buff + text.length ≤ limit) :
    Loaded start limit { c with bytes := c.bytes.write c.buff text, buff := buff } items where
  format := loaded.format.write low high
  args := loaded.args.write low high
  strings item member q string := (loaded.strings item member q string).write low high

theorem words_length (item : Item) : (item.words.flatMap wordBytes).length = 2 * item.words.length := by
  cases item <;> rfl

theorem Loaded.rest (loaded : Loaded start limit c (item :: items)) :
    Loaded start limit { c with str := c.str + item.spelling.length, vlist := c.vlist + 2 * item.words.length } items := by
  obtain ⟨format, args, strings⟩ := loaded
  rw [spelling, List.flatMap_cons, List.append_assoc] at format
  rw [words, List.flatMap_cons, List.flatMap_append] at args
  refine ⟨format.append.2, ?_, fun later member => strings later (List.mem_cons_of_mem _ member)⟩
  rw [← words_length]
  exact args.append.2

theorem spelling_starts (item : Item) : ∃ b rest, item.spelling = b :: rest ∧ b ≠ 0 := by
  cases item with
  | literal b plain => exact ⟨b, [], rfl, plain.1⟩
  | _ => exact ⟨ascii '%', _, rfl, by decide⟩

theorem read_printed (bytes : HeapBytes) (a : Nat) (text behind : List Byte) :
    (bytes.write a (text ++ behind)).read a text.length = text := by
  rw [write_append, read_write_apart (Or.inl le_rfl), read_write_self]

theorem loop_items {fuel : Nat} (loaded : Loaded start limit c items) (low : start ≤ c.buff)
    (room : c.buff + (rendering items).length < limit) (enough : items.length < fuel) :
    ∃ c', Printer.loop limit fuel c = .ok c' ∧ c'.buff = c.buff + (rendering items).length ∧
      c'.bytes.read c.buff ((rendering items).length + 1) = rendering items ++ [0] := by
  induction items generalizing c fuel with
  | nil =>
    obtain ⟨fuel, rfl⟩ := Nat.exists_eq_succ_of_ne_zero (Nat.ne_of_gt enough)
    have zero : c.current = 0 := loaded.format.load
    rw [Printer.loop, zero, if_neg (not_not.mpr rfl), put_eq room]
    exact ⟨_, rfl, rfl, read_write_self _ _ [0]⟩
  | cons item items ih =>
    have parts : rendering (item :: items) = item.rendering ++ rendering items := rfl
    rw [parts, List.length_append] at room ⊢
    rw [List.length_cons] at enough
    obtain ⟨fuel, rfl⟩ : ∃ n, fuel = n + 1 := ⟨fuel - 1, by omega⟩
    obtain ⟨format, args, strings⟩ := loaded
    have spelled := format
    rw [spelling, List.flatMap_cons, List.append_assoc] at spelled
    have current : c.current ≠ 0 := by
      obtain ⟨b, rest, shape, nonzero⟩ := spelling_starts item
      rw [shape] at spelled
      rwa [Printer.current, spelled.load]
    have words := args
    rw [Format.words, List.flatMap_cons, List.flatMap_append] at words
    obtain ⟨behind, short, turned⟩ := turn_item spelled.append.1 words.append.1 (strings item List.mem_cons_self) low
      (by omega)
    have fits : c.buff + (item.rendering ++ behind).length ≤ limit := by
      rw [List.length_append]
      omega
    have later := (Loaded.rest ⟨format, args, strings⟩).write (c.buff + item.rendering.length) low fits
    obtain ⟨c', printed, position, text⟩ := ih later (by simp only; omega) (by simp only; omega)
      (show items.length < fuel by omega)
    refine ⟨c', ?_, ?_, ?_⟩
    · rw [Printer.loop, if_pos current, turned]
      exact printed
    · rw [position, Nat.add_assoc]
    · have kept := (loop_extends printed).read (a := c.buff) (n := item.rendering.length) le_rfl
      rw [Nat.add_assoc, read_add, text, kept, read_printed, List.append_assoc]

theorem length_le_spelling (items : List Item) : items.length ≤ (spelling items).length := by
  induction items with
  | nil => exact le_rfl
  | cons item items ih =>
    obtain ⟨b, rest, shape, -⟩ := spelling_starts item
    rw [spelling, List.flatMap_cons, shape, List.length_cons, List.length_append, List.length_cons]
    rw [spelling] at ih
    omega

theorem vsprintf_items (loaded : Loaded c.buff limit c items) (room : c.buff + (rendering items).length < limit) :
    ∃ c', c.vsprintf limit = .ok c' ∧ c'.buff = c.buff + (rendering items).length ∧
      c'.bytes.read c.buff ((rendering items).length + 1) = rendering items ++ [0] := by
  have inside := loaded.format.inside
  have fewer := length_le_spelling items
  rw [List.length_append, List.length_singleton] at inside
  exact loop_items loaded le_rfl room (by omega)

end Loop

theorem vsprintf_renders (limit : Nat) (c : Printer) (items : List Item) (loaded : Loaded c.buff limit c items)
    (room : c.buff + (rendering items).length < limit) (memory : limit ≤ 0x10000) :
    (∃ c', c.vsprintf limit = .ok c' ∧
      c'.bytes.read c.buff ((rendering items).length + 1) = rendering items ++ [0] ∧
      (c'.returned c.buff).toNat = (rendering items).length ∧
      ((rendering items).length < 0x8000 → (c'.returned c.buff).toInt = (rendering items).length)) ∧
    (∀ w : Word, parseSigned (Item.d w).rendering = some w.toInt ∧ parseSigned (Item.i w).rendering = some w.toInt ∧
      parseUnsigned 10 (Item.u w).rendering = some w.toNat ∧ parseUnsigned 16 (Item.x w).rendering = some w.toNat) ∧
    ∀ l : BitVec 32, parseUnsigned 16 (Item.lx l).rendering = some l.toNat := by
  obtain ⟨c', printed, position, text⟩ := vsprintf_items loaded room
  have length : (c'.returned c.buff).toNat = (rendering items).length := by
    rw [Printer.returned, BitVec.toNat_ofNat, position]
    omega
  refine ⟨⟨c', printed, text, length, ?_⟩, ?_, ?_⟩
  · intro short
    rw [BitVec.toInt_eq_toNat_of_lt (by rw [length]; omega), length]
  · intro w
    exact ⟨parse_signed _, parse_signed _, parse_unsigned (by decide) (by decide) _,
      parse_unsigned (by decide) (by decide) _⟩
  · intro l
    exact parse_unsigned (by decide) (by decide) _

def lineItems : List Item :=
  [.literal (ascii 'v') (by decide), .lx 0x10002, .s 0x300 [ascii 'o', ascii 'k'] (by decide),
    .literal (ascii ' ') (by decide), .d 0x8000, .c 0x63]

def linePrinter : Printer where
  bytes := ((HeapBytes.write (fun _ => 0) 0x100 (spelling lineItems)).write 0x200
    ((words lineItems).flatMap wordBytes)).write 0x300 [ascii 'o', ascii 'k']
  buff := 0x1000
  str := 0x100
  vlist := 0x200

theorem lineLoaded : Loaded 0x1000 0x1100 linePrinter lineItems where
  format := ⟨by decide +kernel, by decide, by decide⟩
  args := ⟨by decide +kernel, by decide, by decide⟩
  strings := by
    intro item member q string
    have only : q = (0x300, [ascii 'o', ascii 'k']) := by
      have listed : q ∈ lineItems.flatMap Item.strings := List.mem_flatMap.mpr ⟨item, member, string⟩
      simpa [lineItems, Item.strings] using listed
    rw [only]
    exact ⟨by decide +kernel, by decide, by decide⟩

theorem vsprintf_renders_line :
    rendering lineItems = "v10002ok -32768c".toList.map ascii ∧
    ∃ c', linePrinter.vsprintf 0x1100 = .ok c' ∧
      c'.bytes.read 0x1000 17 = "v10002ok -32768c".toList.map ascii ++ [0] ∧ (c'.returned 0x1000).toInt = 16 := by
  have shown : rendering lineItems = "v10002ok -32768c".toList.map ascii := by decide +kernel
  obtain ⟨⟨c', printed, text, -, length⟩, -⟩ :=
    vsprintf_renders 0x1100 linePrinter lineItems lineLoaded (by rw [shown]; decide) (by decide)
  rw [shown] at text length
  exact ⟨shown, c', printed, text, length (by decide)⟩

end PiOS.Proof.Vsprintf
