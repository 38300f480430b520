import PiOS.Proof.MqIds

namespace PiOS.Proof.MqDelivery
open Kernel Blocks Memory Transition Heap MqCalls Function

structure Sent where
  id : Word
  type : Word
  size : Word
  data : List Byte

structure Receipt where
  capacity : Word
  buff : Word
  memPages : Fin 16 → Word
  before : PhysMem
  after : PhysMem

structure MqLog where
  created : List Word
  sent : Word → List Sent
  received : Word → List Receipt

def MqLog.none : MqLog := ⟨[], fun _ => [], fun _ => []⟩

def Sent.bytes (m : Sent) (capacity : Word) : List Byte :=
  [m.id, m.type, m.size].flatMap wordBytes ++ m.data.take (min m.size.toNat capacity.toNat)

def Receipt.Carries (r : Receipt) (m : Sent) : Prop :=
  flat r.after = storeAll (flat r.before) (fun j => placeOf r.memPages (r.buff + BitVec.ofNat 16 j)) (m.bytes r.capacity)

def noteMessage (log : MqLog) (_ : MqSystem) (e : MqEvent) (t' : MqSystem) : MqLog :=
  match e.procs[e.caller]?, returnedTo t'.kernel e.caller with
  | some p, some value =>
    let id := p.syscallState.regs 1
    match p.syscall with
    | some .mqcreat => { log with created := log.created ++ [value] }
    | some .mqsend =>
      if id ∈ log.created then
        { log with sent := update log.sent id (log.sent id ++
          [⟨value, p.syscallState.regs 2, p.syscallState.regs 3,
            userBytes e.phys p.syscallState.memPages (p.syscallState.regs 6) (p.syscallState.regs 3).toNat⟩]) }
      else
        log
    | some .mqrecv =>
      if value = 0 then
        { log with received := update log.received id (log.received id ++
          [⟨p.syscallState.regs 2, p.syscallState.regs 3, p.syscallState.memPages, e.phys, t'.kernel.phys⟩]) }
      else
        log
    | _ => log
  | _, _ => log

abbrev messageStep : MqSystem × MqLog → MqEvent → Option (MqSystem × MqLog) := watch MqSystem.call noteMessage

/-- On each queue the `n`-th receive carries the `n`-th message, ids of queues do not repeat, the
counters of a queue agree with its list, and what has not been received can be. -/
structure Delivers (w : MqSystem × MqLog) : Prop where
  order : ∀ (id : Word) (n : Nat) (r : Receipt), (w.2.received id)[n]? = some r → ∃ m : Sent, (w.2.sent id)[n]? = some m ∧ r.Carries m
  distinct : w.2.created.Nodup
  counters : ∀ mqe ∈ w.1.mqs.mqs, mqe.len.toNat = mqe.mq.length ∧ mqe.dataAvailable = mqe.mq.length
  pending : ∀ (e : MqEvent) (p : Proc), e.procs[e.caller]? = some p → p.syscall = some .mqrecv →
    (w.2.received (p.syscallState.regs 1)).length < (w.2.sent (p.syscallState.regs 1)).length →
      ∃ t', w.1.call e = some t' ∧ returnedTo t'.kernel e.caller = some 0

def nodeBlocks (m : MqNode) : List (Nat × Word) :=
  [(m.node, BitVec.ofNat 16 sizeofListNode), (m.hmsg, BitVec.ofNat 16 sizeofMqMsg), (m.msg.data, m.msg.size)]

def queueBlocks (mqe : MqQueue) : List (Nat × Word) :=
  (mqe.entry, BitVec.ofNat 16 sizeofMqEntry) :: (mqe.node, BitVec.ofNat 16 sizeofListNode) ::
    mqe.mq.flatMap nodeBlocks

def mqBlocks (s : Mqs) : List (Nat × Word) := s.mqs.flatMap queueBlocks

structure Stored (bytes : HeapBytes) (m : MqNode) (sent : Sent) : Prop where
  id : m.msg.id = sent.id
  type : m.msg.type = sent.type
  size : m.msg.size = sent.size
  data : bytes.read m.msg.data m.msg.size.toNat = sent.data

structure QueueInv (sent : List Sent) (received : List Receipt) (bytes : HeapBytes) (mqe : MqQueue) : Prop where
  lock : mqe.lock = 1
  len : mqe.len.toNat = mqe.mq.length
  available : mqe.dataAvailable = mqe.mq.length
  split : ∃ done pending, sent = done ++ pending ∧ List.Forall₂ Receipt.Carries received done ∧
    List.Forall₂ (Stored bytes) mqe.mq pending

def idsUpTo (n : Nat) : List Word := (List.range n).map fun j => BitVec.ofNat 16 (j + 1)

structure MessageInv (w : MqSystem × MqLog) : Prop where
  heap : ∃ rest, HeapInv ⟨w.1.kernel.heap, mqBlocks w.1.mqs ++ rest⟩
  ids : w.1.mqs.mqs.map MqQueue.id = idsUpTo w.1.mqs.mqs.length
  next : w.1.mqs.mqId = BitVec.ofNat 16 w.1.mqs.mqs.length
  created : w.2.created = w.1.mqs.mqs.map MqQueue.id
  queues : ∀ mqe ∈ w.1.mqs.mqs, QueueInv (w.2.sent mqe.id) (w.2.received mqe.id) w.1.bytes mqe
  unused : ∀ id ∉ w.2.created, w.2.sent id = [] ∧ w.2.received id = []

theorem mq_length_le {s : Mqs} {heap : HeapMemory} {rest : List (Nat × Word)}
    (inv : HeapInv ⟨heap, mqBlocks s ++ rest⟩) : s.mqs.length ≤ 2175 ∧ ∀ mqe ∈ s.mqs, mqe.mq.length ≤ 2175 := by
  have all : (mqBlocks s ++ rest).length ≤ 2175 := inv.length_le
  rw [List.length_append] at all
  have queues : 1 * s.mqs.length ≤ (mqBlocks s).length := holders_length_le fun mqe => by simp [queueBlocks]
  refine ⟨by omega, fun mqe member => ?_⟩
  have own : (queueBlocks mqe).length ≤ (mqBlocks s).length := holds_length_le member
  have nodes : 1 * mqe.mq.length ≤ (mqe.mq.flatMap nodeBlocks).length := holders_length_le fun m => by simp [nodeBlocks]
  simp only [queueBlocks, List.length_cons] at own
  omega

section Queue

variable {sent : List Sent} {received : List Receipt} {bytes : HeapBytes} {mqe : MqQueue} {m : MqNode} {lock : Int}
  {data : List Byte} {α β : Type*} {l' : List β} {new : Sent} {l : List α} {ptr : Nat} {n : Nat}

theorem Stored.write (stored : Stored bytes m new)
    (apart : m.msg.data + m.msg.size.toNat ≤ ptr ∨ ptr + data.length ≤ m.msg.data) :
    Stored (bytes.write ptr data) m new :=
  ⟨stored.id, stored.type, stored.size, (read_write_apart apart).trans stored.data⟩

theorem forall₂_of_mem {R S : α → β → Prop} (all : List.Forall₂ R l l')
    (weaken : ∀ x ∈ l, ∀ y, R x y → S x y) : List.Forall₂ S l l' := by
  induction all with
  | nil => exact .nil
  | cons first _ ih =>
    exact .cons (weaken _ List.mem_cons_self _ first) (ih fun x member => weaken x (List.mem_cons_of_mem _ member))

theorem QueueInv.write (inv : QueueInv sent received bytes mqe)
    (apart : ∀ m ∈ mqe.mq, m.msg.data + m.msg.size.toNat ≤ ptr ∨ ptr + data.length ≤ m.msg.data) :
    QueueInv sent received (bytes.write ptr data) mqe := by
  obtain ⟨done, pending, whole, carried, stored⟩ := inv.split
  exact ⟨inv.lock, inv.len, inv.available, done, pending, whole, carried,
    forall₂_of_mem stored fun m member _ held => held.write (apart m member)⟩

theorem forall₂_getElem? {R : α → β → Prop} (all : List.Forall₂ R l l')
    {x : α} (nth : l[n]? = some x) : ∃ y, l'[n]? = some y ∧ R x y := by
  induction all generalizing n with
  | nil => cases nth
  | cons first _ ih =>
    cases n with
    | zero =>
      cases nth
      exact ⟨_, rfl, first⟩
    | succ n => exact ih nth

theorem semaphoreDown_of_pos (up : 0 < n) : semaphoreDown n = .ok (n - 1) := by
  unfold semaphoreDown
  rw [if_neg (by omega), if_neg (by omega)]

theorem semaphore_cycle (down : semaphoreDown 1 = .ok lock) : semaphoreUp lock = 1 := by
  cases down
  decide

section

variable (inv : QueueInv sent received bytes mqe)
include inv

theorem QueueInv.push (small : mqe.mq.length ≤ 2175)
    (down : semaphoreDown mqe.lock = .ok lock) (stored : Stored bytes m new) :
    QueueInv (sent ++ [new]) received bytes (pushed mqe lock m) := by
  obtain ⟨done, pending, whole, carried, held⟩ := inv.split
  rw [inv.lock] at down
  refine ⟨semaphore_cycle down, ?_, ?_, done, pending ++ [new], ?_, carried, ?_⟩
  · have longer : (mqe.len + 1).toNat = mqe.len.toNat + 1 := word_add_toNat (by
      show mqe.len.toNat + 1 < 0x10000
      rw [inv.len]
      omega)
    simp only [pushed, longer, inv.len, List.length_append, List.length_singleton]
  · simp only [pushed, inv.available, semaphoreUp_eq (Int.natCast_nonneg _) (Int.ofNat_le.mpr small), List.length_append, List.length_singleton]
    rfl
  · rw [whole, List.append_assoc]
  · exact List.rel_append held (.cons stored .nil)

theorem QueueInv.nonempty (waiting : received.length < sent.length) : ∃ m rest, mqe.mq = m :: rest := by
  obtain ⟨done, pending, whole, carried, held⟩ := inv.split
  cases queue : mqe.mq with
  | nil =>
    rw [queue] at held
    cases held
    rw [whole, List.append_nil, carried.length_eq] at waiting
    exact absurd waiting (Nat.lt_irrefl _)
  | cons m rest => exact ⟨m, rest, rfl⟩

theorem QueueInv.relock (down : semaphoreDown mqe.lock = .ok lock) :
    QueueInv sent received bytes { mqe with lock := semaphoreUp lock } := by
  rw [inv.lock] at down
  exact ⟨semaphore_cycle down, inv.len, inv.available, inv.split⟩

theorem QueueInv.pop {rest : List MqNode} {dataAvailable : Int} {r : Receipt}
    (first : mqe.mq = m :: rest) (downData : semaphoreDown mqe.dataAvailable = .ok dataAvailable)
    (down : semaphoreDown mqe.lock = .ok lock) (carries : ∀ new, Stored bytes m new → r.Carries new) :
    QueueInv sent (received ++ [r]) bytes (popped mqe rest dataAvailable lock) := by
  obtain ⟨done, pending, whole, carried, held⟩ := inv.split
  have len := inv.len
  have available := inv.available
  rw [inv.lock] at down
  rw [first, List.length_cons] at len available
  rw [first] at held
  cases held with
  | cons stored held =>
    rename_i new pending
    refine ⟨semaphore_cycle down, ?_, ?_, done ++ [new], pending, ?_, ?_, held⟩
    · have shorter : (mqe.len - 1).toNat = mqe.len.toNat - 1 := word_sub_toNat (by
        show 1 ≤ mqe.len.toNat
        omega)
      simp only [popped, shorter, len, Nat.add_sub_cancel]
    · have fewer := (semaphoreDown_ok downData).2
      simp only [popped, fewer, available]
      omega
    · rw [whole, List.append_assoc]
      rfl
    · exact List.rel_append carried (.cons (carries new stored) .nil)

end

end Queue

theorem carries_of_stored {bytes : HeapBytes} {m : MqNode} {new : Sent} {r : Receipt} (stored : Stored bytes m new)
    (memory : flat r.after = storeAll (flat r.before) (fun j => placeOf r.memPages (r.buff + BitVec.ofNat 16 j))
      (m.msg.header ++ bytes.read m.msg.data (wordMin m.msg.size r.capacity).toNat)) : r.Carries new := by
  have data : bytes.read m.msg.data (wordMin m.msg.size r.capacity).toNat =
      new.data.take (min new.size.toNat r.capacity.toNat) := by
    rw [wordMin_toNat, read_take bytes (Nat.min_le_left m.msg.size.toNat r.capacity.toNat), stored.data, stored.size]
  rw [Receipt.Carries, memory, data, Sent.bytes, MqMsg.header, stored.id, stored.type, stored.size]

section Blocks

variable {s : Mqs} {i : Nat} {mqe : MqQueue} {m : MqNode} {lock : Int}

theorem mqBlocks_push (lock : Int) (m : MqNode) (here : s.mqs[i]? = some mqe) :
    (mqBlocks (s.setMq i (pushed mqe lock m))).Perm (nodeBlocks m ++ mqBlocks s) := by
  apply holdings_gain here
  rw [queueBlocks, queueBlocks, pushed, List.flatMap_append, List.flatMap_singleton]
  have moved : (mqe.mq.flatMap nodeBlocks ++ nodeBlocks m).Perm (nodeBlocks m ++ mqe.mq.flatMap nodeBlocks) :=
    List.perm_append_comm
  exact ((moved.cons _).cons _).trans
    (List.perm_append_comm_assoc [_, _] (nodeBlocks m) (mqe.mq.flatMap nodeBlocks))

theorem mqBlocks_pop {rest : List MqNode} (dataAvailable lock : Int) (here : s.mqs[i]? = some mqe)
    (first : mqe.mq = m :: rest) :
    (mqBlocks s).Perm (nodeBlocks m ++ mqBlocks (s.setMq i (popped mqe rest dataAvailable lock))) := by
  apply holdings_loss here
  rw [queueBlocks, queueBlocks, popped, first, List.flatMap_cons]
  exact List.perm_append_comm_assoc [_, _] (nodeBlocks m) (rest.flatMap nodeBlocks)

theorem mqBlocks_relock (here : s.mqs[i]? = some mqe) :
    (mqBlocks s).Perm (mqBlocks (s.setMq i { mqe with lock := lock })) := by
  have same : (queueBlocks mqe).Perm ([] ++ queueBlocks { mqe with lock := lock }) := List.Perm.refl _
  exact holdings_loss here same

theorem data_mem_mqBlocks (member : mqe ∈ s.mqs) (held : m ∈ mqe.mq) : (m.msg.data, m.msg.size) ∈ mqBlocks s := by
  apply mem_holdings member
  refine List.mem_cons_of_mem _ (List.mem_cons_of_mem _ (mem_holdings held ?_))
  simp [nodeBlocks]

end Blocks

section Ids

variable {n : Nat}

theorem idsUpTo_succ (n : Nat) : idsUpTo (n + 1) = idsUpTo n ++ [BitVec.ofNat 16 (n + 1)] := by
  rw [idsUpTo, List.range_succ, List.map_append]
  rfl

theorem next_not_mem (small : n ≤ 2175) : BitVec.ofNat 16 (n + 1) ∉ idsUpTo n := by
  intro member
  obtain ⟨j, inside, same⟩ := List.mem_map.mp member
  rw [List.mem_range] at inside
  have values := congrArg BitVec.toNat same
  rw [BitVec.toNat_ofNat, BitVec.toNat_ofNat, Nat.mod_eq_of_lt (by omega), Nat.mod_eq_of_lt (by omega)] at values
  omega

theorem idsUpTo_nodup (small : n ≤ 2175) : (idsUpTo n).Nodup := by
  induction n with
  | zero => exact List.nodup_nil
  | succ n ih =>
    rw [idsUpTo_succ]
    exact List.nodup_append.mpr ⟨ih (by omega), List.nodup_singleton _, fun a old b new same =>
      next_not_mem (by omega) (List.mem_singleton.mp new ▸ same ▸ old)⟩

end Ids

section Steps

variable {w w' : MqSystem × MqLog} {e : MqEvent} {p : Proc} {i : Nat} {mqe mqe' : MqQueue} {data : Nat} {id : Word}

theorem MessageInv.few (inv : MessageInv w) : w.1.mqs.mqs.length ≤ 2175 ∧ ∀ mqe ∈ w.1.mqs.mqs, mqe.mq.length ≤ 2175 := by
  obtain ⟨rest, heap⟩ := inv.heap
  exact mq_length_le heap

theorem MessageInv.ids_nodup (inv : MessageInv w) : (w.1.mqs.mqs.map MqQueue.id).Nodup := by
  rw [inv.ids]
  exact idsUpTo_nodup inv.few.1

theorem MessageInv.other_id (inv : MessageInv w) {j : Nat} (here : w.1.mqs.mqs[i]? = some mqe)
    (there : w.1.mqs.mqs[j]? = some mqe') (different : j ≠ i) : mqe'.id ≠ mqe.id := by
  intro same
  have inside : j < (w.1.mqs.mqs.map MqQueue.id).length := by
    simpa using (List.getElem?_eq_some_iff.mp there).1
  apply different
  apply (List.getElem?_inj inside inv.ids_nodup).mp
  rw [List.getElem?_map, List.getElem?_map, here, there, Option.map_some, Option.map_some, same]

theorem MessageInv.set (inv : MessageInv w) (mqe' : MqQueue) (here : w.1.mqs.mqs[i]? = some mqe) (sameId : mqe'.id = mqe.id)
    (mqs : w'.1.mqs.mqs = w.1.mqs.mqs.set i mqe') (number : w'.1.mqs.mqId = w.1.mqs.mqId)
    (heap : ∃ rest, HeapInv ⟨w'.1.kernel.heap, mqBlocks w'.1.mqs ++ rest⟩) (created : w'.2.created = w.2.created)
    (own : QueueInv (w'.2.sent mqe.id) (w'.2.received mqe.id) w'.1.bytes mqe')
    (bytes : ∀ x ∈ w.1.mqs.mqs, ∀ sent received, QueueInv sent received w.1.bytes x →
      QueueInv sent received w'.1.bytes x)
    (logs : ∀ id, id ≠ mqe.id → w'.2.sent id = w.2.sent id ∧ w'.2.received id = w.2.received id) : MessageInv w' := by
  have sameIds : (w.1.mqs.mqs.set i mqe').map MqQueue.id = w.1.mqs.mqs.map MqQueue.id := by
    rw [List.map_set, sameId]
    apply List.ext_getElem?
    intro j
    rw [List.getElem?_set]
    split
    · rename_i own
      subst own
      have inside := (List.getElem?_eq_some_iff.mp here).1
      rw [List.length_map, if_pos inside, List.getElem?_map, here]
      rfl
    · rfl
  refine ⟨heap, ?_, ?_, ?_, ?_, ?_⟩
  · rw [mqs, sameIds, List.length_set]
    exact inv.ids
  · rw [number, mqs, List.length_set]
    exact inv.next
  · rw [created, mqs, sameIds]
    exact inv.created
  · intro x member
    rw [mqs] at member
    obtain ⟨j, there⟩ := List.getElem?_of_mem member
    rw [List.getElem?_set] at there
    split at there
    · split at there
      · obtain rfl := Option.some.inj there
        rw [sameId]
        exact own
      · cases there
    · rename_i different
      obtain ⟨sent, received⟩ := logs x.id (inv.other_id here there (Ne.symm different))
      rw [sent, received]
      have listed := List.mem_of_getElem? there
      exact bytes x listed _ _ (inv.queues x listed)
  · intro id unknown
    rw [created] at unknown
    have other : id ≠ mqe.id := by
      rintro rfl
      apply unknown
      rw [inv.created]
      exact List.mem_map_of_mem (List.mem_of_getElem? here)
    rw [(logs id other).1, (logs id other).2]
    exact inv.unused id unknown

theorem MessageInv.write {memory : HeapMemory} {live : List (Nat × Word)} {size : Word}
    {content : List Byte} (heap : HeapInv ⟨memory, (data, size) :: (mqBlocks w.1.mqs ++ live)⟩)
    (length : content.length = size.toNat) : ∀ x ∈ w.1.mqs.mqs, ∀ sent received, QueueInv sent received w.1.bytes x →
      QueueInv sent received (w.1.bytes.write data content) x := by
  intro x member sent received queue
  apply queue.write
  intro m held
  rw [length]
  exact HeapInv.new_apart heap (List.mem_append_left _ (data_mem_mqBlocks member held))

section Note

variable {log : MqLog} {t t' : MqSystem} {value : Word}

section

variable (here : e.procs[e.caller]? = some p)
include here

theorem noteMessage_create (call : p.syscall = some .mqcreat) (result : returnedTo t'.kernel e.caller = some value) :
    noteMessage log t e t' = { log with created := log.created ++ [value] } := by
  rw [noteMessage, here, result]
  simp only [call]

theorem noteMessage_send (call : p.syscall = some .mqsend)
    (result : returnedTo t'.kernel e.caller = some value) (known : p.syscallState.regs 1 ∈ log.created) :
    noteMessage log t e t' = { log with
      sent := update log.sent (p.syscallState.regs 1) (log.sent (p.syscallState.regs 1) ++
        [⟨value, p.syscallState.regs 2, p.syscallState.regs 3,
          userBytes e.phys p.syscallState.memPages (p.syscallState.regs 6) (p.syscallState.regs 3).toNat⟩]) } := by
  rw [noteMessage, here, result]
  simp only [call, if_pos known]

theorem noteMessage_refused (call : p.syscall = some .mqsend)
    (unknown : p.syscallState.regs 1 ∉ log.created) : noteMessage log t e t' = log := by
  rw [noteMessage, here]
  cases returnedTo t'.kernel e.caller with
  | none => rfl
  | some value => simp only [call, if_neg unknown]

theorem noteMessage_receive (call : p.syscall = some .mqrecv) (result : returnedTo t'.kernel e.caller = some 0) :
    noteMessage log t e t' = { log with
      received := update log.received (p.syscallState.regs 1) (log.received (p.syscallState.regs 1) ++
        [⟨p.syscallState.regs 2, p.syscallState.regs 3, p.syscallState.memPages, e.phys, t'.kernel.phys⟩]) } := by
  rw [noteMessage, here, result]
  simp only [call, if_true]

theorem noteMessage_nothing (call : p.syscall = some .mqrecv)
    (result : returnedTo t'.kernel e.caller = some (-einval)) : noteMessage log t e t' = log := by
  have failed : (-einval : Word) ≠ 0 := by decide
  rw [noteMessage, here, result]
  simp only [call, if_neg failed]

end

end Note

section

variable (inv : MessageInv w)
include inv

theorem MessageInv.create
    (made : w.1.mqs.mqsCreate w.1.kernel.heap = .ok (w'.1.mqs, w'.1.kernel.heap, id)) (bytes : w'.1.bytes = w.1.bytes)
    (noted : w'.2 = { w.2 with created := w.2.created ++ [id] }) : MessageInv w' := by
  obtain ⟨entry, node, heap₁, first, second, next, mqs⟩ := mqsCreate_ok made
  obtain ⟨rest, heap⟩ := inv.heap
  rw [inv.next] at next
  have fresh : id = BitVec.ofNat 16 (w.1.mqs.mqs.length + 1) := next.trans (BitVec.ofNat_add ..).symm
  have unknown : id ∉ w.2.created := by
    rw [inv.created, inv.ids, fresh]
    exact next_not_mem inv.few.1
  refine ⟨⟨rest, ?_⟩, ?_, ?_, ?_, ?_, ?_⟩
  · refine ((heap.kmalloc first).kmalloc second).perm ?_
    rw [mqs, mqBlocks, mqBlocks, List.flatMap_append, List.flatMap_singleton, List.append_assoc]
    exact (List.Perm.swap _ _ _).trans (List.perm_append_comm_assoc [_, _] _ rest)
  · rw [mqs, List.map_append, inv.ids, List.length_append, List.length_singleton, idsUpTo_succ, fresh]
    rfl
  · rw [mqs, List.length_append, List.length_singleton]
    exact fresh
  · rw [noted, mqs, List.map_append, inv.created]
    rfl
  · intro mqe member
    rw [mqs] at member
    rw [noted, bytes]
    rcases List.mem_append.mp member with old | new
    · exact inv.queues mqe old
    · obtain rfl := List.mem_singleton.mp new
      obtain ⟨noneSent, noneReceived⟩ := inv.unused id unknown
      rw [noneSent, noneReceived]
      exact ⟨(by decide : semaphoreUp 0 = 1), rfl, rfl, [], [], rfl, .nil, .nil⟩
  · intro other otherUnknown
    rw [noted] at otherUnknown ⊢
    exact inv.unused other fun known => otherUnknown (List.mem_append_left _ known)

theorem MessageInv.send {heap₁ : HeapMemory} (here : e.procs[e.caller]? = some p) (call : p.syscall = some .mqsend)
    (allocated : kmalloc w.1.kernel.heap (p.syscallState.regs 3) = .ok (data, heap₁))
    (push : w.1.mqs.mqPush heap₁ (p.syscallState.regs 1) ⟨0, p.syscallState.regs 2, p.syscallState.regs 3, data⟩ =
      .ok (w'.1.mqs, w'.1.kernel.heap, id))
    (bytes : w'.1.bytes = w.1.bytes.write data (userBytes e.phys p.syscallState.memPages (p.syscallState.regs 6)
      (p.syscallState.regs 3).toNat))
    (result : returnedTo w'.1.kernel e.caller = some id) (noted : w'.2 = noteMessage w.2 w.1 e w'.1) :
    MessageInv w' := by
  obtain ⟨rest, heap⟩ := inv.heap
  have withData := heap.kmalloc allocated
  have others := MessageInv.write withData (userBytes_length e.phys p.syscallState.memPages (p.syscallState.regs 6)
    (p.syscallState.regs 3).toNat)
  rw [← bytes] at others
  rcases mqPush_ok push with ⟨missing, mqs, same, -⟩ | ⟨i, mqe, hmsg, node, lock, heap₂, found, first, down, second, -, mqs⟩
  · have unknown : p.syscallState.regs 1 ∉ w.2.created := by
      rw [inv.created]
      intro known
      obtain ⟨mqe, member, named⟩ := List.mem_map.mp known
      exact findMq_eq_none missing mqe member named
    rw [noteMessage_refused here call unknown] at noted
    refine ⟨⟨(data, p.syscallState.regs 3) :: rest, ?_⟩, ?_, ?_, ?_, ?_, ?_⟩
    · rw [mqs, same]
      exact withData.perm List.perm_middle.symm
    · rw [mqs]
      exact inv.ids
    · rw [mqs]
      exact inv.next
    · rw [mqs, noted]
      exact inv.created
    · rw [mqs, noted]
      exact fun x member => others x member _ _ (inv.queues x member)
    · rw [noted]
      exact inv.unused
  · obtain ⟨there, named⟩ := findMq_eq_some found
    have member := List.mem_of_getElem? there
    have known : p.syscallState.regs 1 ∈ w.2.created := by
      rw [inv.created, ← named]
      exact List.mem_map_of_mem member
    rw [noteMessage_send here call result known] at noted
    have stored : Stored w'.1.bytes ⟨node, hmsg, ⟨id, p.syscallState.regs 2, p.syscallState.regs 3, data⟩⟩
        ⟨id, p.syscallState.regs 2, p.syscallState.regs 3,
          userBytes e.phys p.syscallState.memPages (p.syscallState.regs 6) (p.syscallState.regs 3).toNat⟩ := by
      refine ⟨rfl, rfl, rfl, ?_⟩
      have whole := read_write_self w.1.bytes data (userBytes e.phys p.syscallState.memPages (p.syscallState.regs 6)
        (p.syscallState.regs 3).toNat)
      rwa [userBytes_length, ← bytes] at whole
    refine inv.set (pushed mqe lock _) there rfl (by rw [mqs]; rfl) (by rw [mqs]; rfl) ⟨rest, ?_⟩ (by rw [noted])
      ?_ others ?_
    · refine ((withData.kmalloc first).kmalloc second).perm ?_
      rw [mqs]
      have gained := (mqBlocks_push lock ⟨node, hmsg, ⟨id, p.syscallState.regs 2, p.syscallState.regs 3, data⟩⟩ there).symm.append_right rest
      exact gained
    · rw [noted, ← named]
      simp only [update_self]
      exact (others mqe member _ _ (inv.queues mqe member)).push (inv.few.2 mqe member) down stored
    · intro other different
      rw [noted, ← named]
      exact ⟨update_of_ne different _ _, rfl⟩

theorem MessageInv.nothing (pop : Pops w.1.mqs w.1.kernel.heap (p.syscallState.regs 1) w'.1.mqs w'.1.kernel.heap none)
    (bytes : w'.1.bytes = w.1.bytes) (noted : w'.2 = w.2) : MessageInv w' := by
  obtain ⟨rest, heap⟩ := inv.heap
  generalize mqs : w'.1.mqs = s' at pop
  generalize after : w'.1.kernel.heap = heap' at pop
  cases pop with
  | missing absent =>
    refine ⟨⟨rest, by rwa [mqs, after]⟩, ?_, ?_, ?_, ?_, ?_⟩
    · rw [mqs]
      exact inv.ids
    · rw [mqs]
      exact inv.next
    · rw [mqs, noted]
      exact inv.created
    · rw [mqs, noted, bytes]
      exact inv.queues
    · rw [noted]
      exact inv.unused
  | empty i mqe lock found none down =>
    obtain ⟨there, named⟩ := findMq_eq_some found
    refine inv.set { mqe with lock := semaphoreUp lock } there rfl (by rw [mqs]; rfl) (by rw [mqs]; rfl)
      ⟨rest, ?_⟩ (by rw [noted]) ?_ ?_ ?_
    · rw [mqs, after]
      exact heap.perm ((mqBlocks_relock there).append_right rest)
    · rw [noted, bytes]
      exact (inv.queues mqe (List.mem_of_getElem? there)).relock down
    · rw [bytes]
      exact fun x _ sent received queue => queue
    · rw [noted]
      exact fun other _ => ⟨rfl, rfl⟩

theorem MessageInv.receive {m : MqNode} {heap₁ heap₂ : HeapMemory}
    (here : e.procs[e.caller]? = some p) (call : p.syscall = some .mqrecv)
    (pop : Pops w.1.mqs w.1.kernel.heap (p.syscallState.regs 1) w'.1.mqs heap₁ (some m))
    (freedMsg : kfree heap₁ m.hmsg = .ok heap₂) (freedData : kfree heap₂ m.msg.data = .ok w'.1.kernel.heap)
    (bytes : w'.1.bytes = w.1.bytes) (result : returnedTo w'.1.kernel e.caller = some 0)
    (memory : flat w'.1.kernel.phys = storeAll (flat e.phys)
      (fun j => placeOf p.syscallState.memPages (p.syscallState.regs 3 + BitVec.ofNat 16 j))
      (m.msg.header ++ w.1.bytes.read m.msg.data (wordMin m.msg.size (p.syscallState.regs 2)).toNat))
    (noted : w'.2 = noteMessage w.2 w.1 e w'.1) : MessageInv w' := by
  obtain ⟨rest, heap⟩ := inv.heap
  rw [noteMessage_receive here call result] at noted
  generalize mqs : w'.1.mqs = s' at pop
  cases pop with
  | taken i mqe m others dataAvailable lock heap₁ found first downData down freed =>
    obtain ⟨there, named⟩ := findMq_eq_some found
    refine inv.set (popped mqe others dataAvailable lock) there rfl (by rw [mqs]; rfl) (by rw [mqs]; rfl)
      ⟨rest, ?_⟩ (by rw [noted]) ?_ ?_ ?_
    · rw [mqs]
      have apart := heap.perm ((mqBlocks_pop dataAvailable lock there first).append_right rest)
      exact HeapInv.freed (HeapInv.freed (HeapInv.freed apart freed) freedMsg) freedData
    · rw [noted, ← named, bytes]
      simp only [update_self]
      exact (inv.queues mqe (List.mem_of_getElem? there)).pop first downData down
        fun new stored => carries_of_stored stored memory
    · rw [bytes]
      exact fun x _ sent received queue => queue
    · intro other different
      rw [noted, ← named]
      exact ⟨rfl, update_of_ne different _ _⟩

theorem MessageInv.step (taken : messageStep w e = some w') : MessageInv w' := by
  obtain ⟨called, noted⟩ := watch_eq_some taken
  obtain ⟨p, here, served⟩ := call_served called
  cases served with
  | creates id call made bytes result =>
    rw [noteMessage_create here call result] at noted
    exact inv.create made bytes noted
  | sends data id heap₁ call allocated push bytes result =>
    exact inv.send here call allocated push bytes result noted
  | nothing call pop bytes result =>
    rw [noteMessage_nothing here call result] at noted
    exact inv.nothing pop bytes noted
  | receives m heap₁ heap₂ call pop freedMsg freedData bytes result memory =>
    exact inv.receive here call pop freedMsg freedData bytes result memory noted

theorem MessageInv.pending (here : e.procs[e.caller]? = some p) (call : p.syscall = some .mqrecv)
    (waiting : (w.2.received (p.syscallState.regs 1)).length < (w.2.sent (p.syscallState.regs 1)).length) :
    ∃ t', w.1.call e = some t' ∧ returnedTo t'.kernel e.caller = some 0 := by
  obtain ⟨rest, heap⟩ := inv.heap
  cases found : w.1.mqs.findMq (p.syscallState.regs 1) with
  | none =>
    have unknown : p.syscallState.regs 1 ∉ w.2.created := by
      rw [inv.created]
      intro known
      obtain ⟨mqe, member, named⟩ := List.mem_map.mp known
      exact findMq_eq_none found mqe member named
    rw [(inv.unused _ unknown).1] at waiting
    exact absurd waiting (Nat.not_lt_zero _)
  | some place =>
    obtain ⟨i, mqe⟩ := place
    obtain ⟨there, named⟩ := findMq_eq_some found
    have queue := inv.queues mqe (List.mem_of_getElem? there)
    rw [named] at queue
    obtain ⟨m, others, first⟩ := queue.nonempty waiting
    have downData : semaphoreDown mqe.dataAvailable = .ok (mqe.dataAvailable - 1) := by
      rw [queue.available, first]
      exact semaphoreDown_of_pos (by simp)
    have down : semaphoreDown mqe.lock = .ok 0 := by
      rw [queue.lock]
      rfl
    have more : mqe.len ≠ 0 := by
      intro none
      have length := queue.len
      rw [none, first] at length
      cases length
    have apart := heap.perm ((mqBlocks_pop (mqe.dataAvailable - 1) 0 there first).append_right rest)
    obtain ⟨heap₁, freed, apart⟩ := apart.free
    obtain ⟨heap₂, freedMsg, apart⟩ := apart.free
    obtain ⟨heap₃, freedData, -⟩ := apart.free
    have pop : (w.1.before e).mqPopBy p =
        .ok (w.1.mqs.setMq i (popped mqe others (mqe.dataAvailable - 1) 0), heap₁, some m) := by
      unfold MqSystem.mqPopBy
      split
      · exact mqPopNonblock_found found first downData down freed more
      · exact mqPop_found found first downData down freed
    obtain ⟨t', called, -, -, result⟩ := call_receive here call pop freedMsg freedData
    exact ⟨t', called, result⟩

theorem MessageInv.delivers : Delivers w where
  order id n r nth := by
    by_cases known : id ∈ w.2.created
    · rw [inv.created] at known
      obtain ⟨mqe, member, rfl⟩ := List.mem_map.mp known
      obtain ⟨done, pending, whole, carried, -⟩ := (inv.queues mqe member).split
      obtain ⟨m, there, carries⟩ := forall₂_getElem? carried nth
      refine ⟨m, ?_, carries⟩
      rw [whole, List.getElem?_append_left (List.getElem?_eq_some_iff.mp there).1, there]
    · rw [(inv.unused id known).2] at nth
      cases nth
  distinct := by
    rw [inv.created]
    exact inv.ids_nodup
  counters mqe member := ⟨(inv.queues mqe member).len, (inv.queues mqe member).available⟩
  pending _ _ here call waiting := inv.pending here call waiting

end

end Steps

theorem messageInv_start {kernel : KernelState} {h : HeapState} (heap : HeapInv h) (same : kernel.heap = h.memory)
    (bytes : HeapBytes) : MessageInv (MqSystem.start kernel bytes, MqLog.none) where
  heap := ⟨h.live, by
    show HeapInv ⟨kernel.heap, h.live⟩
    rwa [same]⟩
  ids := rfl
  next := rfl
  created := rfl
  queues _ member := (List.not_mem_nil member).elim
  unused _ _ := ⟨rfl, rfl⟩

theorem messages_delivered (kernel : KernelState) (bytes : HeapBytes) (ops : List HeapOp) (h : HeapState)
    (reached : run heapStep initHeap ops = some h) (heap : kernel.heap = h.memory) (events : List MqEvent) :
    Throughout messageStep Delivers (MqSystem.start kernel bytes, MqLog.none) events := by
  have inv : HeapInv h := run_invariant (fun _ _ _ => heapStep_inv) heapInv_init reached
  exact throughout_mono (fun _ inv => inv.delivers)
    (throughout_invariant (fun _ _ _ inv taken => inv.step taken) (messageInv_start inv heap bytes))

theorem exchange_delivered :
    ∃ w, run messageStep (MqIds.emptySystem, MqLog.none) [MqIds.create, MqIds.send, MqIds.receive] = some w ∧
      w.2.received 1 ≠ [] ∧ Delivers w := by
  obtain ⟨t₁, created, idle⟩ := MqIds.create_idle
  obtain ⟨t₂, sent, holding⟩ := MqIds.send_idle idle
  obtain ⟨t₃, received, -, result⟩ := MqIds.receive_holding holding
  have created := watch_of_step noteMessage MqLog.none created
  generalize noteMessage MqLog.none MqIds.emptySystem MqIds.create t₁ = log₁ at created
  have sent := watch_of_step noteMessage log₁ sent
  generalize noteMessage log₁ t₁ MqIds.send t₂ = log₂ at sent
  have received := watch_of_step noteMessage log₂ received
  have noted : ∃ r, (noteMessage log₂ t₂ MqIds.receive t₃).received 1 = log₂.received 1 ++ [r] := by
    rw [noteMessage_receive rfl (by decide) result]
    exact ⟨_, update_self (1 : Word) _ log₂.received⟩
  have reached : run messageStep (MqIds.emptySystem, MqLog.none) [MqIds.create, MqIds.send, MqIds.receive] =
      some (t₃, noteMessage log₂ t₂ MqIds.receive t₃) := by
    unfold messageStep
    rw [run_cons, created, Option.bind_some, run_cons, sent, Option.bind_some, run_cons, received, Option.bind_some,
      run_nil]
  refine ⟨_, reached, ?_, ?_⟩
  · obtain ⟨r, noted⟩ := noted
    rw [noted]
    exact List.append_ne_nil_of_right_ne_nil _ (List.cons_ne_nil r [])
  · have throughout := messages_delivered (bootKernel fun _ _ => 0) (fun _ => 0) [] initHeap rfl rfl
      [MqIds.create, MqIds.send, MqIds.receive]
    exact throughout_iff.mp throughout _ (List.prefix_refl _) _ reached

end PiOS.Proof.MqDelivery
