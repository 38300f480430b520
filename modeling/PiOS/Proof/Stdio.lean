import PiOS.Libc.Stdio
import PiOS.Proof.Printf

namespace PiOS.Proof.Stdio
open Kernel Libc Printf

def store (answer : StdioEvent → Word) (file : File) (data : List Byte) : Word × File × List StdioEvent :=
  fwrite answer file (fun j => data.getD j 0) (BitVec.ofNat 16 data.length) 1

def Buffers (file : File) (data : List Byte) : Prop :=
  (file.buffType ≠ .unbuff ∧ file.buffClen + BitVec.ofNat 16 data.length ≤ file.buffSize) ∧
    ¬ (file.buffType = .linebuff ∧ ascii '\n' ∈ data)

instance (file : File) (data : List Byte) : Decidable (Buffers file data) := inferInstanceAs (Decidable (_ ∧ _))

section Store

variable {answer : StdioEvent → Word} {file : File} {data : List Byte}

theorem bytesAt_length (buffer : Nat → Byte) (n : Nat) : (bytesAt buffer n).length = n := by
  simp [bytesAt]

theorem bytesAt_getD (data : List Byte) : bytesAt (fun j => data.getD j 0) data.length = data := by
  apply List.ext_getElem
  · exact bytesAt_length _ _
  · intro j inside inData
    simp [bytesAt, inData]

theorem fwrite_eq_store (buffer : Nat → Byte) (size nmemb : Word) :
    fwrite answer file buffer size nmemb = store answer file (bytesAt buffer (size * nmemb).toNat) := by
  have length := bytesAt_length buffer (size * nmemb).toNat
  have count : BitVec.ofNat 16 (bytesAt buffer (size * nmemb).toNat).length * 1 = size * nmemb := by
    rw [length, BitVec.ofNat_toNat, BitVec.setWidth_eq]
    exact BitVec.mul_one _
  have data := bytesAt_getD (bytesAt buffer (size * nmemb).toNat)
  rw [length] at data
  unfold store fwrite
  simp only [count, data]

theorem store_eq (short : data.length < 0x10000) :
    store answer file data =
      if Buffers file data then
        (BitVec.ofNat 16 data.length,
          { file with
            buff := copyTo file.buff file.buffClen.toNat data
            buffClen := file.buffClen + BitVec.ofNat 16 data.length },
          [.copy file.buffClen.toNat data])
      else
        let (flushed, file, events) := fflush answer file
        if flushed ≠ 0 then
          (0, file, events)
        else
          let sysRes := answer (.write file.fileFd data)
          if sysRes.Negative then
            (0, { file with status := -sysRes }, events ++ [.write file.fileFd data])
          else
            (sysRes, { file with status := 0 }, events ++ [.write file.fileFd data]) := by
  have count : BitVec.ofNat 16 data.length * 1 = BitVec.ofNat 16 data.length := BitVec.mul_one _
  have length : (BitVec.ofNat 16 data.length).toNat = data.length := word_ofNat_toNat short
  unfold store fwrite Buffers
  simp only [count, length, bytesAt_getD]

end Store

def accepting : StdioEvent → Word
  | .copy _ _ => 0
  | .flush _ data | .write _ data => BitVec.ofNat 16 data.length

def sentBytes (events : List StdioEvent) : List Byte :=
  events.flatMap fun
    | .copy _ _ => []
    | .flush _ data | .write _ data => data

def contents (file : File) : List Byte := if file.buffType = .unbuff then [] else bytesAt file.buff file.buffClen.toNat

structure Sound (file : File) : Prop where
  bound : file.buffClen ≤ file.buffSize
  unbuffered : file.buffType = .unbuff → file.buffClen = 0
  short : file.buffClen.toNat < 0x8000

structure Same (file file' : File) : Prop where
  fileFd : file'.fileFd = file.fileFd
  buffType : file'.buffType = file.buffType
  buffSize : file'.buffSize = file.buffSize

section Flush

variable {file : File} {data : List Byte}

theorem sentBytes_append (events more : List StdioEvent) : sentBytes (events ++ more) = sentBytes events ++ sentBytes more :=
  List.flatMap_append

theorem bytesAt_copyTo (buff : Nat → Byte) (n : Nat) (data : List Byte) :
    bytesAt (copyTo buff n data) (n + data.length) = bytesAt buff n ++ data := by
  have before : (List.range n).map (copyTo buff n data) = (List.range n).map buff := by
    apply List.map_congr_left
    intro j inside
    rw [copyTo, if_neg (Nat.not_le.mpr (List.mem_range.mp inside))]
  have copied : ((List.range data.length).map (n + ·)).map (copyTo buff n data) = data := by
    apply List.ext_getElem
    · simp
    · intro j inside inData
      simp [copyTo, inData]
  rw [bytesAt, List.range_add, List.map_append, before, copied, bytesAt]

theorem contents_empty (empty : file.buffClen = 0) : contents file = [] := by
  rw [contents, empty]
  split
  · rfl
  · rfl

theorem sound_emptied (empty : file.buffClen = 0) : Sound file :=
  ⟨by rw [empty]; exact Nat.zero_le _, fun _ => empty, by rw [empty]; decide⟩

theorem fflush_sound (sound : Sound file) :
    ∃ file' events, fflush accepting file = (0, file', events) ∧ sentBytes events = contents file ∧
      file'.buffClen = 0 ∧ Same file file' := by
  unfold fflush
  split
  · rename_i nothing
    have empty : file.buffClen = 0 := nothing.elim sound.unbuffered id
    exact ⟨file, [], rfl, (contents_empty empty).symm, empty, rfl, rfl, rfl⟩
  · rename_i something
    rw [not_or] at something
    have taken : ¬ (accepting (.flush file.fileFd (bytesAt file.buff file.buffClen.toNat))).Negative := by
      rw [accepting, bytesAt_length, BitVec.ofNat_toNat, BitVec.setWidth_eq, Word.negative_iff]
      exact Nat.not_le.mpr sound.short
    refine ⟨_, _, if_neg taken, ?_, rfl, rfl, rfl, rfl⟩
    rw [contents, if_neg something.1]
    exact List.append_nil _

end Flush

def Suited (file : File) : Prop :=
  file.buffType = .unbuff ∨ file.buffSize.toNat < 0x8000 ∨ file.buffSize = 0xffff

theorem suited_same {file file' : File} (suited : Suited file) (same : Same file file') : Suited file' := by
  unfold Suited
  rw [same.buffType, same.buffSize]
  exact suited

theorem Same.trans {file file' file'' : File} (first : Same file file') (second : Same file' file'') : Same file file'' :=
  ⟨second.fileFd.trans first.fileFd, second.buffType.trans first.buffType, second.buffSize.trans first.buffSize⟩

structure Written (file : File) (data : List Byte) (file' : File) (events : List StdioEvent) : Prop where
  order : sentBytes events ++ contents file' = contents file ++ data
  sound : Sound file'
  same : Same file file'
  line : file.buffType = .linebuff → ascii '\n' ∈ data → file'.buffClen = 0

section Write

variable {file : File} {data : List Byte}

theorem written_buffered (sound : Sound file) (suited : Suited file)
    (within : data.length + file.buffSize.toNat ≤ 0xffff) (buffers : Buffers file data) :
    Written file data
      { file with
        buff := copyTo file.buff file.buffClen.toNat data
        buffClen := file.buffClen + BitVec.ofNat 16 data.length }
      [.copy file.buffClen.toNat data] := by
  obtain ⟨⟨buffered, fits⟩, other⟩ := buffers
  have length : (BitVec.ofNat 16 data.length).toNat = data.length := word_ofNat_toNat (by omega)
  have bound : file.buffClen.toNat ≤ file.buffSize.toNat := sound.bound
  have sum : (file.buffClen + BitVec.ofNat 16 data.length).toNat = file.buffClen.toNat + data.length := by
    rw [word_add_toNat (by omega), length]
  have room : file.buffClen.toNat + data.length ≤ file.buffSize.toNat := by
    rw [← sum]
    exact fits
  refine ⟨?_, ⟨fits, fun unbuffered => absurd unbuffered buffered, ?_⟩, ⟨rfl, rfl, rfl⟩,
    fun line newline => absurd ⟨line, newline⟩ other⟩
  · rw [contents, contents, if_neg buffered, if_neg buffered, sum, bytesAt_copyTo]
    rfl
  · rw [sum]
    have short := sound.short
    rcases suited with unbuffered | small | all
    · exact absurd unbuffered buffered
    · omega
    · rw [all] at within
      change data.length + 0xffff ≤ 0xffff at within
      omega

theorem store_written (sound : Sound file) (suited : Suited file)
    (within : data.length + file.buffSize.toNat ≤ 0xffff) :
    Written file data (store accepting file data).2.1 (store accepting file data).2.2 := by
  rw [store_eq (by omega)]
  split
  · rename_i buffers
    exact written_buffered sound suited within buffers
  · obtain ⟨file', events, flushed, sent, empty, same⟩ := fflush_sound sound
    have passed (status : Word) : Written file data { file' with status := status } (events ++ [.write file'.fileFd data]) := by
      have same' : Same file { file' with status := status } := ⟨same.fileFd, same.buffType, same.buffSize⟩
      refine ⟨?_, sound_emptied empty, same', fun _ _ => empty⟩
      rw [contents_empty (by exact empty), sentBytes_append, sent]
      simp [sentBytes]
    rw [flushed]
    simp only [ne_eq, not_true_eq_false, if_false]
    split
    · exact passed _
    · exact passed _

end Write

inductive Op
  | fwrite (buffer : Nat → Byte) (size nmemb : Word)
  | fputc (ch : Word)
  | fputs (str : List Byte)
  | vfprintf (args : PrintfArgs)
  | fflush

namespace Op

def writes : Op → List (List Byte)
  | fwrite buffer size nmemb => [bytesAt buffer (size.toNat * nmemb.toNat)]
  | fputc ch => [[ch.setWidth 8]]
  | fputs str => [str]
  | vfprintf args => (calls args args.format 0).map Call.text
  | fflush => []

def exec (answer : StdioEvent → Word) (file : File) : Op → File × List StdioEvent
  | fwrite buffer size nmemb => (Libc.fwrite answer file buffer size nmemb).2
  | fputc ch => (Libc.fputc answer file ch).2
  | fputs str => (Libc.fputs answer file str).2
  | vfprintf args => (Libc.vfprintf answer file args).2
  | fflush => (Libc.fflush answer file).2

def Within (buffSize : Word) (op : Op) : Prop := ∀ data ∈ op.writes, data.length + buffSize.toNat ≤ 0xffff

def Empties (buffType : BuffType) (op : Op) : Prop :=
  op = fflush ∨ buffType = .linebuff ∧ ascii '\n' ∈ op.writes.flatten

/-- A call that writes a newline to a line-buffered stream has one in the last of its writes. -/
def Lined (buffType : BuffType) (op : Op) : Prop :=
  buffType = .linebuff → ascii '\n' ∈ op.writes.flatten → ∃ data, op.writes.getLast? = some data ∧ ascii '\n' ∈ data

end Op

def after (answer : StdioEvent → Word) (s : File × List StdioEvent) (ops : List Op) : File × List StdioEvent :=
  ops.foldl (fun s op => ((op.exec answer s.1).1, s.2 ++ (op.exec answer s.1).2)) s

def stores (answer : StdioEvent → Word) (s : File × List StdioEvent) (writes : List (List Byte)) : File × List StdioEvent :=
  writes.foldl (fun s data => ((store answer s.1 data).2.1, s.2 ++ (store answer s.1 data).2.2)) s

section Ops

variable {answer : StdioEvent → Word} {file : File} {events : List StdioEvent} {args : PrintfArgs}

def feed {σ : Type} (sink : Sink σ) (s : σ) : Call → σ
  | .putc c => sink.putc s c
  | .write run => sink.write s run

variable {σ : Type}

@[simp] theorem feed_putc (sink : Sink σ) (s : σ) (c : Byte) : feed sink s (.putc c) = sink.putc s c := rfl

@[simp] theorem feed_write (sink : Sink σ) (s : σ) (run : List Byte) :
    feed sink s (.write run) = sink.write s run := rfl

@[simp] theorem feed_utoaCall (sink : Sink σ) (s : σ) (num : Word) (base : Nat) :
    feed sink s (utoaCall num base) = sink.utoa s num base := by
  unfold utoaCall Sink.utoa
  split
  · rfl
  · rfl

@[simp] theorem feed_intCalls (sink : Sink σ) (s : σ) (w : Word) : (intCalls w).foldl (feed sink) s = sink.int s w := by
  unfold intCalls Sink.int
  split
  · simp
  · simp

theorem sink_loop_eq (sink : Sink σ) (str : List Byte) (i : Nat) (s : σ) :
    sink.loop args str i s = (calls args str i).foldl (feed sink) s := by
  fun_induction Sink.loop sink args str i s
  case case9 other ih => rw [ih, calls_plain other, List.foldl_cons, feed_putc]
  all_goals simp_all [calls]

theorem fwrite_single (c : Byte) : fwrite answer file (fun _ => c) 1 1 = store answer file [c] :=
  fwrite_eq_store (fun _ => c) 1 1

variable (answer) in
theorem feed_stream (s : StreamPrintf) (c : Call) :
    (feed (streamSink answer) s c).stream = (store answer s.stream c.text).2.1 ∧
      (feed (streamSink answer) s c).events = s.events ++ (store answer s.stream c.text).2.2 := by
  cases c with
  | putc c =>
    rw [Call.text_putc, ← fwrite_single]
    exact ⟨rfl, rfl⟩
  | write run => exact ⟨rfl, rfl⟩

theorem feed_calls (s : StreamPrintf) (cs : List Call) :
    ((cs.foldl (feed (streamSink answer)) s).stream, (cs.foldl (feed (streamSink answer)) s).events) =
      stores answer (s.stream, s.events) (cs.map Call.text) := by
  induction cs generalizing s with
  | nil => rfl
  | cons c cs ih =>
    obtain ⟨stream, events⟩ := feed_stream answer s c
    rw [List.foldl_cons, ih, stream, events]
    rfl

theorem exec_eq_stores (op : Op) {buffSize : Word} (within : op.Within buffSize) (writes : op ≠ .fflush) :
    op.exec answer file = stores answer (file, []) op.writes := by
  cases op with
  | fwrite buffer size nmemb =>
    have small : size.toNat * nmemb.toNat + buffSize.toNat ≤ 0xffff := by
      simpa [Op.Within, Op.writes, bytesAt_length] using within
    have product : (size * nmemb).toNat = size.toNat * nmemb.toNat := by
      rw [BitVec.toNat_mul, Nat.mod_eq_of_lt (by omega)]
    simp only [Op.exec, fwrite_eq_store, product]
    rfl
  | fputc ch =>
    simp only [Op.exec, fputc, fwrite_single]
    rfl
  | fputs str => rfl
  | vfprintf args =>
    simp only [Op.exec, vfprintf, sink_loop_eq]
    exact feed_calls _ _
  | fflush => exact absurd rfl writes

theorem stores_written {writes : List (List Byte)} (sound : Sound file) (suited : Suited file)
    (within : ∀ data ∈ writes, data.length + file.buffSize.toNat ≤ 0xffff) :
    sentBytes (stores accepting (file, events) writes).2 ++ contents (stores accepting (file, events) writes).1 =
        sentBytes events ++ contents file ++ writes.flatten ∧
      Sound (stores accepting (file, events) writes).1 ∧ Same file (stores accepting (file, events) writes).1 ∧
      ∀ data, writes.getLast? = some data → file.buffType = .linebuff → ascii '\n' ∈ data →
        (stores accepting (file, events) writes).1.buffClen = 0 := by
  induction writes generalizing file events with
  | nil => exact ⟨by simp [stores], sound, ⟨rfl, rfl, rfl⟩, nofun⟩
  | cons data writes ih =>
    obtain ⟨first, rest⟩ := List.forall_mem_cons.mp within
    have written := store_written sound suited first
    generalize out : store accepting file data = wrote at written
    obtain ⟨result, file', more⟩ := wrote
    have step : stores accepting (file, events) (data :: writes) = stores accepting (file', events ++ more) writes := by
      simp only [stores, List.foldl_cons, out]
    obtain ⟨order, sound', same, line⟩ := @ih file' (events ++ more) written.sound
      (suited_same suited written.same) (by rwa [written.same.buffSize])
    rw [step]
    refine ⟨?_, sound', written.same.trans same, ?_⟩
    · rw [order, sentBytes_append, List.append_assoc (sentBytes events), written.order, List.flatten_cons]
      simp only [List.append_assoc]
    · intro last here lined newline
      cases writes with
      | nil =>
        obtain rfl := Option.some.inj here
        exact written.line lined newline
      | cons next writes =>
        rw [List.getLast?_cons_cons] at here
        exact line last here (written.same.buffType.trans lined) newline

theorem exec_written (op : Op) (sound : Sound file) (suited : Suited file) (within : op.Within file.buffSize) :
    sentBytes (op.exec accepting file).2 ++ contents (op.exec accepting file).1 = contents file ++ op.writes.flatten ∧
      Sound (op.exec accepting file).1 ∧ Same file (op.exec accepting file).1 ∧
      (op.Lined file.buffType → op.Empties file.buffType → (op.exec accepting file).1.buffClen = 0) := by
  by_cases flush : op = .fflush
  · subst flush
    obtain ⟨file', events, flushed, sent, empty, same⟩ := fflush_sound sound
    simp only [Op.exec, flushed, Op.writes, List.flatten_nil, List.append_nil, sent, contents_empty empty]
    exact ⟨trivial, sound_emptied empty, same, fun _ _ => empty⟩
  · rw [exec_eq_stores op within flush]
    obtain ⟨order, sound', same, line⟩ := @stores_written file [] op.writes sound suited within
    refine ⟨order, sound', same, ?_⟩
    rintro lined (flushes | ⟨buffered, newline⟩)
    · exact absurd flushes flush
    · obtain ⟨data, last, ends⟩ := lined buffered newline
      exact line data last buffered ends

end Ops

/-- After calls on a stream that was empty, the bytes passed to `sys_write` and those in the buffer are all
bytes written, in order. -/
structure KeepsOrder (file : File) (ops : List Op) : Prop where
  order : sentBytes (after accepting (file, []) ops).2 ++ contents (after accepting (file, []) ops).1 =
    (ops.flatMap Op.writes).flatten
  bound : (after accepting (file, []) ops).1.buffClen ≤ (after accepting (file, []) ops).1.buffSize
  emptied : ∀ op, ops.getLast? = some op → op.Empties file.buffType → (after accepting (file, []) ops).1.buffClen = 0
  closed : ∀ closed standard, let out := fclose accepting (after accepting (file, []) ops).1 closed standard
    sentBytes ((after accepting (file, []) ops).2 ++ out.2.2) = (ops.flatMap Op.writes).flatten ∧
      ∀ file' ∈ out.2.1, file'.buffClen = 0

section Runs

variable {file : File} {events : List StdioEvent} {ops : List Op}

theorem after_append (answer : StdioEvent → Word) (s : File × List StdioEvent) (ops : List Op) (op : Op) :
    after answer s (ops ++ [op]) = ((op.exec answer (after answer s ops).1).1,
      (after answer s ops).2 ++ (op.exec answer (after answer s ops).1).2) := by
  simp [after]

theorem after_written (empty : file.buffClen = 0) (suited : Suited file) (within : ∀ op ∈ ops, op.Within file.buffSize) :
    sentBytes (after accepting (file, []) ops).2 ++ contents (after accepting (file, []) ops).1 =
        (ops.flatMap Op.writes).flatten ∧
      Sound (after accepting (file, []) ops).1 ∧ Same file (after accepting (file, []) ops).1 := by
  induction ops using List.reverseRecOn with
  | nil => exact ⟨contents_empty empty, sound_emptied empty, rfl, rfl, rfl⟩
  | append_singleton ops op ih =>
    rw [List.forall_mem_append] at within
    obtain ⟨order, sound, same⟩ := ih within.1
    have last : op.Within (after accepting (file, []) ops).1.buffSize := by
      rw [same.buffSize]
      exact within.2 op List.mem_cons_self
    obtain ⟨order', sound', same', -⟩ := exec_written op sound (suited_same suited same) last
    rw [after_append]
    refine ⟨?_, sound', same.trans same'⟩
    rw [sentBytes_append, List.append_assoc, order', ← List.append_assoc, order, List.flatMap_append,
      List.flatten_append, List.flatMap_singleton]

theorem emptied_written (empty : file.buffClen = 0) (suited : Suited file) (within : ∀ op ∈ ops, op.Within file.buffSize)
    {op : Op} (last : ops.getLast? = some op) (lined : op.Lined file.buffType) (empties : op.Empties file.buffType) :
    (after accepting (file, []) ops).1.buffClen = 0 := by
  obtain ⟨earlier, rfl⟩ := List.getLast?_eq_some_iff.mp last
  rw [List.forall_mem_append] at within
  obtain ⟨-, sound, same⟩ := after_written empty suited within.1
  have now : op.Within (after accepting (file, []) earlier).1.buffSize := by
    rw [same.buffSize]
    exact within.2 op List.mem_cons_self
  rw [after_append]
  refine (exec_written op sound (suited_same suited same) now).2.2.2 ?_ ?_
  · rwa [same.buffType]
  · rwa [same.buffType]

theorem buffered_output_keeps_order (opened : file.fileFd ≠ -1) (empty : file.buffClen = 0) (suited : Suited file)
    (within : ∀ op ∈ ops, op.Within file.buffSize) (lined : ∀ op ∈ ops, op.Lined file.buffType) :
    KeepsOrder file ops := by
  obtain ⟨order, sound, same⟩ := after_written empty suited within
  refine ⟨order, sound.bound, fun op last => emptied_written empty suited within last
    (lined op (List.mem_of_getLast? last)), ?_⟩
  intro closed standard
  obtain ⟨file', events, flushed, sent, emptied, -⟩ := fflush_sound sound
  have here : (after accepting (file, []) ops).1.fileFd ≠ -1 := by
    rw [same.fileFd]
    exact opened
  rw [fclose, if_neg here, flushed]
  refine ⟨?_, ?_⟩
  · rw [sentBytes_append, ← order]
    exact congrArg _ sent
  · intro file'' member
    cases standard with
    | true =>
      obtain rfl := Option.some.inj member
      exact emptied
    | false => cases member

end Runs

def stdoutFile : File := ⟨1, .linebuff, fun _ => 0, 64, 0, 0⟩

def newlineLast : Op :=
  .vfprintf ⟨[ascii 'x', ascii '\n'], fun _ => 0, fun _ => [ascii 'x'], by decide, fun _ => by decide, fun _ => by decide⟩

theorem stdout_keeps_order : KeepsOrder stdoutFile [newlineLast, newlineLast] := by
  have pieces : newlineLast.writes = [[ascii 'x'], [ascii '\n']] := by decide
  refine buffered_output_keeps_order (by decide) rfl (Or.inr (Or.inl (by decide))) ?_ ?_
  · simp [Op.Within, pieces, stdoutFile]
  · simp [Op.Lined, pieces]

def newlineFirst : Op :=
  .vfprintf ⟨[ascii '\n', ascii 'x'], fun _ => 0, fun _ => [ascii 'x'], by decide, fun _ => by decide, fun _ => by decide⟩

theorem newline_first_stays : newlineFirst.Within stdoutFile.buffSize ∧ ¬ KeepsOrder stdoutFile [newlineFirst] := by
  have pieces : newlineFirst.writes = [[ascii '\n'], [ascii 'x']] := by decide
  refine ⟨?_, fun keeps => ?_⟩
  · rw [Op.Within, pieces]
    decide
  · have empty := keeps.emptied newlineFirst rfl (Or.inr ⟨rfl, by rw [pieces]; decide⟩)
    exact absurd empty (by decide)

def Honest (answer : StdioEvent → Word) : Prop :=
  ∀ fd data, (((answer (.flush fd data)).Negative ∨ (answer (.flush fd data)).toNat ≤ data.length) ∧
    ((answer (.write fd data)).Negative ∨ (answer (.write fd data)).toNat ≤ data.length))

def taken (events : List StdioEvent) : List Byte :=
  events.flatMap fun
    | .copy _ data | .write _ data => data
    | .flush _ _ => []

structure Confined (file : File) (total : Nat) (out : Word × File × List StdioEvent) : Prop where
  inside : ∀ place data, .copy place data ∈ out.2.2 → ∀ i < data.length, place + i < file.buffSize.toNat
  bound : out.2.1.buffClen ≤ out.2.1.buffSize
  all : (taken out.2.2).length = total ∨ out.1 = 0

section Confined

variable {answer : StdioEvent → Word} {file : File} {data : List Byte}

theorem fflush_frame (answer : StdioEvent → Word) (bound : file.buffClen ≤ file.buffSize) :
    (fflush answer file).2.1.buffClen ≤ (fflush answer file).2.1.buffSize ∧
      ∀ e ∈ (fflush answer file).2.2, ∃ fd data, e = .flush fd data := by
  unfold fflush
  split
  · exact ⟨bound, nofun⟩
  · dsimp only
    split
    · exact ⟨Nat.zero_le _, fun e member => ⟨_, _, List.mem_singleton.mp member⟩⟩
    · exact ⟨Nat.zero_le _, fun e member => ⟨_, _, List.mem_singleton.mp member⟩⟩

theorem taken_flushes {events : List StdioEvent} (flushes : ∀ e ∈ events, ∃ fd data, e = .flush fd data)
    (more : List StdioEvent) : taken (events ++ more) = taken more := by
  have none : taken events = [] := by
    rw [taken, List.flatMap_eq_nil_iff]
    intro e member
    obtain ⟨fd, data, rfl⟩ := flushes e member
    rfl
  rw [taken, List.flatMap_append]
  exact congrArg (· ++ _) none

theorem store_direct (answer : StdioEvent → Word) (short : data.length < 0x10000) (direct : ¬ Buffers file data) (bound : file.buffClen ≤ file.buffSize) :
    (store answer file data).2.1.buffClen ≤ (store answer file data).2.1.buffSize ∧
      (∀ place data', .copy place data' ∉ (store answer file data).2.2) ∧
      ((store answer file data).1 = 0 ∨ taken (store answer file data).2.2 = data ∧
        ∃ fd, (store answer file data).1 = answer (.write fd data) ∧ ¬ (answer (.write fd data)).Negative) := by
  have flush := fflush_frame answer bound
  rw [store_eq short, if_neg direct]
  generalize fflush answer file = out at flush
  obtain ⟨flushed, file', events⟩ := out
  obtain ⟨bound', flushes⟩ := flush
  have none (place : Nat) (data' : List Byte) : .copy place data' ∉ events := by
    intro member
    obtain ⟨fd, data, other⟩ := flushes _ member
    cases other
  have none' (place : Nat) (data' : List Byte) : .copy place data' ∉ events ++ [.write file'.fileFd data] := by
    intro member
    rcases List.mem_append.mp member with early | last
    · exact none place data' early
    · cases List.mem_singleton.mp last
  dsimp only
  split
  · exact ⟨bound', none, Or.inl rfl⟩
  · split
    · exact ⟨bound', none', Or.inl rfl⟩
    · rename_i positive
      refine ⟨bound', none', Or.inr ⟨?_, file'.fileFd, rfl, positive⟩⟩
      rw [taken_flushes flushes]
      simp [taken]

theorem sum_toNat {a : Word} {n : Nat} (small : a.toNat + n < 0x10000) : (a + BitVec.ofNat 16 n).toNat = a.toNat + n := by
  have length : (BitVec.ofNat 16 n).toNat = n := word_ofNat_toNat (by omega)
  rw [word_add_toNat (by omega), length]

/-- The product is exact or a multiple of 0x10000. -/
def ProductFits (size nmemb : Word) : Prop :=
  size.toNat * nmemb.toNat < 0x10000 ∨ size.toNat * nmemb.toNat % 0x10000 = 0

instance (size nmemb : Word) : Decidable (ProductFits size nmemb) := inferInstanceAs (Decidable (_ ∨ _))

def RoomFits (file : File) (data : List Byte) : Prop :=
  file.buffType = .unbuff ∨ file.buffType = .linebuff ∧ ascii '\n' ∈ data ∨ file.buffClen.toNat + data.length < 0x10000

instance (file : File) (data : List Byte) : Decidable (RoomFits file data) := inferInstanceAs (Decidable (_ ∨ _))

variable {total : Nat}

theorem confined_of_fits (honest : Honest answer) (bound : file.buffClen ≤ file.buffSize)
    (short : data.length < 0x10000) (whole : data.length = total ∨ data = []) (room : RoomFits file data) :
    Confined file total (store answer file data) := by
  by_cases buffers : Buffers file data
  · have small : file.buffClen.toNat + data.length < 0x10000 := by
      rcases room with unbuffered | line | small
      · exact absurd unbuffered buffers.1.1
      · exact absurd line buffers.2
      · exact small
    have fits : (file.buffClen + BitVec.ofNat 16 data.length).toNat ≤ file.buffSize.toNat := buffers.1.2
    rw [sum_toNat small] at fits
    rw [store_eq short, if_pos buffers]
    refine ⟨?_, buffers.1.2, ?_⟩
    · intro place data' member i inside
      cases List.mem_singleton.mp member
      omega
    · rcases whole with same | rfl
      · left
        simpa [taken] using same
      · exact Or.inr rfl
  · obtain ⟨bound', none, result⟩ := store_direct answer short buffers bound
    refine ⟨fun place data' member => absurd member (none place data'), bound', ?_⟩
    rcases result with zero | ⟨all, fd, passed, positive⟩
    · exact Or.inr zero
    · rcases whole with same | rfl
      · exact Or.inl (by rw [all, same])
      · have few := (honest fd []).2.resolve_left positive
        rw [passed]
        exact Or.inr (BitVec.eq_of_toNat_eq (Nat.le_zero.mp few))

def grudging : StdioEvent → Word
  | .copy _ _ | .flush _ _ => 0
  | .write _ data => if data = [] then 0 else 1

theorem grudging_honest : Honest grudging := by
  intro fd data
  refine ⟨Or.inr (Nat.zero_le _), Or.inr ?_⟩
  change (if data = [] then (0 : Word) else 1).toNat ≤ data.length
  split
  · exact Nat.zero_le _
  · rename_i some
    exact List.length_pos_iff.mpr some

theorem room_of_confined (bound : file.buffClen ≤ file.buffSize) (short : data.length < 0x10000)
    (confined : Confined file total (store answer file data)) : RoomFits file data := by
  by_contra wraps
  simp only [RoomFits, not_or, not_lt] at wraps
  obtain ⟨buffered, other, beyond⟩ := wraps
  have bound' : file.buffClen.toNat ≤ file.buffSize.toNat := bound
  have size := file.buffSize.isLt
  have buffers : Buffers file data := by
    refine ⟨⟨buffered, ?_⟩, other⟩
    rw [BitVec.le_def, BitVec.toNat_add, BitVec.toNat_ofNat]
    omega
  have inside := confined.inside file.buffClen.toNat data
  rw [store_eq short, if_pos buffers] at inside
  have last := inside List.mem_cons_self (data.length - 1) (by omega)
  omega

theorem fflush_grudging (file : File) : (fflush grudging file).1 = 0 := by
  unfold fflush
  split
  · rfl
  · rfl

theorem store_grudging (short : data.length < 0x10000) (some : data ≠ []) (bound : file.buffClen ≤ file.buffSize) :
    (store grudging file data).1 ≠ 0 ∧ taken (store grudging file data).2.2 = data := by
  have flush := fflush_frame grudging bound
  have flushed := fflush_grudging file
  rw [store_eq short]
  split
  · refine ⟨fun zero => some ?_, by simp [taken]⟩
    have value := congrArg BitVec.toNat zero
    rw [word_ofNat_toNat short] at value
    exact List.length_eq_zero_iff.mp value
  · generalize fflush grudging file = out at flush flushed
    obtain ⟨result, file', events⟩ := out
    obtain rfl : result = 0 := flushed
    have one : grudging (.write file'.fileFd data) = 1 := if_neg some
    simp only [ne_eq, not_true_eq_false, if_false, one, show ¬ (1 : Word).Negative by decide]
    rw [taken_flushes flush.2]
    exact ⟨by decide, by simp [taken]⟩

theorem whole_of_confined (short : data.length < 0x10000) (bound : file.buffClen ≤ file.buffSize)
    (confined : Confined file total (store grudging file data)) : data.length = total ∨ data = [] := by
  rw [or_iff_not_imp_right]
  intro some
  obtain ⟨result, all⟩ := store_grudging short some bound
  rw [← all]
  exact confined.all.resolve_right result

end Confined

theorem fwrite_confined_iff (file : File) (bound : file.buffClen ≤ file.buffSize) (buffer : Nat → Byte) (size nmemb : Word) :
    (∀ answer, Honest answer → Confined file (size.toNat * nmemb.toNat) (fwrite answer file buffer size nmemb)) ↔
      ProductFits size nmemb ∧ RoomFits file (bytesAt buffer (size.toNat * nmemb.toNat % 0x10000)) := by
  have product : (size * nmemb).toNat = size.toNat * nmemb.toNat % 0x10000 := BitVec.toNat_mul _ _
  have length := bytesAt_length buffer (size.toNat * nmemb.toNat % 0x10000)
  have short : (bytesAt buffer (size.toNat * nmemb.toNat % 0x10000)).length < 0x10000 := by
    rw [length]
    exact Nat.mod_lt _ (by decide)
  have whole : ProductFits size nmemb ↔
      (bytesAt buffer (size.toNat * nmemb.toNat % 0x10000)).length = size.toNat * nmemb.toNat ∨
        bytesAt buffer (size.toNat * nmemb.toNat % 0x10000) = [] := by
    rw [← List.length_eq_zero_iff, length, ProductFits]
    omega
  simp only [fwrite_eq_store, product]
  rw [whole]
  constructor
  · intro confined
    exact ⟨whole_of_confined short bound (confined grudging grudging_honest),
      room_of_confined bound short (confined grudging grudging_honest)⟩
  · rintro ⟨all, room⟩ answer honest
    exact confined_of_fits honest bound short all room

theorem fwrite_confined_line :
    stdoutFile.buffClen ≤ stdoutFile.buffSize ∧
      ∀ answer, Honest answer → Confined stdoutFile (5 * 13) (fwrite answer stdoutFile (fun _ => 0x61) 5 13) :=
  ⟨by decide, (fwrite_confined_iff stdoutFile (by decide) (fun _ => 0x61) 5 13).mpr ⟨by decide, by decide⟩⟩

theorem fwrite_overruns :
    ¬ Confined { stdoutFile with buffClen := 64 } (65500 * 1)
        (fwrite accepting { stdoutFile with buffClen := 64 } (fun _ => 0x61) 65500 1) ∧
      ¬ Confined stdoutFile (257 * 256) (fwrite accepting stdoutFile (fun _ => 0x61) 257 256) := by
  constructor
  · intro confined
    rw [fwrite_eq_store] at confined
    have room := room_of_confined (by decide) (by rw [bytesAt_length]; decide) confined
    rcases room with unbuffered | line | small
    · cases unbuffered
    · obtain ⟨j, -, letter⟩ := List.mem_map.mp line.2
      exact absurd letter (by decide)
    · rw [bytesAt_length] at small
      exact absurd small (by decide)
  · intro confined
    exact absurd confined.all (by decide +kernel)

end PiOS.Proof.Stdio
