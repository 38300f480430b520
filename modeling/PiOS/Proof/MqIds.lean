import PiOS.Blocks.Holdings
import PiOS.Proof.MqCalls

namespace PiOS.Proof.MqIds
open Kernel Blocks Transition MqCalls Function

structure Push where
  existed : Bool
  value : Word
  deriving DecidableEq

def sendsTo (e : MqEvent) : Option Word :=
  e.procs[e.caller]?.bind fun p => if p.syscall = some .mqsend then some (p.syscallState.regs 1) else none

def hasQueue (s : Mqs) (id : Word) : Bool := s.mqs.any fun mqe => mqe.id = id

def notePush (log : List Push) (t : MqSystem) (e : MqEvent) (t' : MqSystem) : List Push :=
  match sendsTo e, returnedTo t'.kernel e.caller with
  | some id, some value => log ++ [⟨hasQueue t.mqs id, value⟩]
  | _, _ => log

abbrev pushStep : MqSystem × List Push → MqEvent → Option (MqSystem × List Push) := watch MqSystem.call notePush

def idsIn (mqe : MqQueue) : List Word := mqe.mq.map fun m => m.msg.id

def queuedIds (s : Mqs) : List Word := s.mqs.flatMap idsIn

def Distinguishable (w : MqSystem × List Push) : Prop :=
  (∀ push ∈ w.2, push.value.Negative ↔ push.existed = false) ∧ (queuedIds w.1.mqs).Nodup

/-- A send to a queue takes a number that is positive as an `int`. -/
def NumberLeft (w : MqSystem × List Push) (e : MqEvent) : Prop :=
  ∀ id ∈ sendsTo e, hasQueue w.1.mqs id = true → w.1.mqs.mqMsgId.toNat < 0x7fff

structure IdInv (w : MqSystem × List Push) : Prop where
  distinguishable : Distinguishable w
  counted : w.1.mqs.mqMsgId.toNat ≤ 0x7fff
  below : ∀ id ∈ queuedIds w.1.mqs, id.toNat ≤ w.1.mqs.mqMsgId.toNat

variable {s s' : Mqs} {heap heap' : HeapMemory} {id : Word} {t t' : MqSystem} {e : MqEvent} {p : Proc}
  {log : List Push} {w w' : MqSystem × List Push}

theorem hasQueue_of_found {i : Nat} {mqe : MqQueue} (found : s.findMq id = some (i, mqe)) : hasQueue s id = true := by
  obtain ⟨here, same⟩ := findMq_eq_some found
  rw [hasQueue, List.any_eq_true]
  exact ⟨mqe, List.mem_of_getElem? here, decide_eq_true same⟩

theorem hasQueue_of_missing (missing : s.findMq id = none) : hasQueue s id = false := by
  rw [hasQueue, List.any_eq_false]
  intro mqe member
  simpa using findMq_eq_none missing mqe member

theorem sendsTo_send (here : e.procs[e.caller]? = some p) (call : p.syscall = some .mqsend) :
    sendsTo e = some (p.syscallState.regs 1) := by
  rw [sendsTo, here, Option.bind_some, if_pos call]

theorem sendsTo_other (here : e.procs[e.caller]? = some p) (call : p.syscall ≠ some .mqsend) : sendsTo e = none := by
  rw [sendsTo, here, Option.bind_some, if_neg call]

theorem notePush_other (none : sendsTo e = none) : notePush log t e t' = log := by
  rw [notePush, none]

variable {value : Word} {number : Nat}

theorem notePush_send (named : sendsTo e = some id) (result : returnedTo t'.kernel e.caller = some value) :
    notePush log t e t' = log ++ [⟨hasQueue t.mqs id, value⟩] := by
  rw [notePush, named, result]

theorem queuedIds_pops {res : Option MqNode} (pop : Pops s heap id s' heap' res) :
    s'.mqMsgId = s.mqMsgId ∧ (queuedIds s).Perm ((res.map fun m => m.msg.id).toList ++ queuedIds s') := by
  cases pop with
  | missing absent => exact ⟨rfl, List.Perm.refl _⟩
  | empty i mqe lock found none down =>
    exact ⟨rfl, holdings_loss (findMq_eq_some found).1 (List.Perm.refl _)⟩
  | taken i mqe m rest dataAvailable lock heap' found first downData down freed =>
    refine ⟨rfl, holdings_loss (findMq_eq_some found).1 ?_⟩
    rw [idsIn, first]
    exact List.Perm.refl _

theorem IdInv.fewer (inv : IdInv w) (taken : List Word) (number : s'.mqMsgId = w.1.mqs.mqMsgId)
    (ids : (queuedIds w.1.mqs).Perm (taken ++ queuedIds s')) (mqs : w'.1.mqs = s') (same : w'.2 = w.2) : IdInv w' := by
  have still : ∀ id ∈ queuedIds s', id ∈ queuedIds w.1.mqs :=
    fun id member => ids.mem_iff.mpr (List.mem_append_right _ member)
  refine ⟨⟨?_, ?_⟩, ?_, ?_⟩
  · rw [same]
    exact inv.distinguishable.1
  · rw [mqs]
    exact (List.nodup_append.mp (ids.nodup inv.distinguishable.2)).2.1
  · rw [mqs, number]
    exact inv.counted
  · rw [mqs, number]
    exact fun id member => inv.below id (still id member)

theorem IdInv.refused (inv : IdInv w) (negative : value.Negative) (mqs : w'.1.mqs = w.1.mqs)
    (log : w'.2 = w.2 ++ [⟨false, value⟩]) : IdInv w' := by
  refine ⟨⟨?_, ?_⟩, ?_, ?_⟩
  · rw [log]
    exact List.forall_mem_append.mpr ⟨inv.distinguishable.1, List.forall_mem_singleton.mpr (by simpa using negative)⟩
  · rw [mqs]
    exact inv.distinguishable.2
  · rw [mqs]
    exact inv.counted
  · rw [mqs]
    exact inv.below

theorem next_number (small : s.mqMsgId.toNat < 0x7fff) :
    (s.mqMsgId + 1).toNat = s.mqMsgId.toNat + 1 ∧ ¬(s.mqMsgId + 1).Negative := by
  have next : (s.mqMsgId + 1).toNat = s.mqMsgId.toNat + 1 := word_add_toNat (by
    show s.mqMsgId.toNat + 1 < 0x10000
    omega)
  refine ⟨next, ?_⟩
  rw [Word.Negative, BitVec.toInt_eq_toNat_of_lt (by omega)]
  omega

theorem IdInv.queued (inv : IdInv w) (small : w.1.mqs.mqMsgId.toNat < 0x7fff)
    (number : w'.1.mqs.mqMsgId = w.1.mqs.mqMsgId + 1)
    (ids : (queuedIds w'.1.mqs).Perm ((w.1.mqs.mqMsgId + 1) :: queuedIds w.1.mqs))
    (log : w'.2 = w.2 ++ [⟨true, w.1.mqs.mqMsgId + 1⟩]) : IdInv w' := by
  obtain ⟨next, positive⟩ := next_number small
  have fresh : w.1.mqs.mqMsgId + 1 ∉ queuedIds w.1.mqs := by
    intro member
    have old := inv.below _ member
    omega
  refine ⟨⟨?_, ?_⟩, ?_, ?_⟩
  · rw [log]
    exact List.forall_mem_append.mpr ⟨inv.distinguishable.1, List.forall_mem_singleton.mpr (by simpa using positive)⟩
  · exact ids.nodup_iff.mpr (List.nodup_cons.mpr ⟨fresh, inv.distinguishable.2⟩)
  · rw [number, next]
    exact small
  · intro id member
    rw [number, next]
    rcases List.mem_cons.mp (ids.mem_iff.mp member) with rfl | old
    · rw [next]
    · exact (inv.below id old).trans (Nat.le_succ _)

theorem push_ids {msg : MqMsg} (push : s.mqPush heap id msg = .ok (s', heap', value)) :
    hasQueue s id = false ∧ s' = s ∧ value = -1 ∨
      hasQueue s id = true ∧ value = s.mqMsgId + 1 ∧ s'.mqMsgId = s.mqMsgId + 1 ∧
        (queuedIds s').Perm ((s.mqMsgId + 1) :: queuedIds s) := by
  rcases mqPush_ok push with ⟨missing, rfl, rfl, rfl⟩ | ⟨i, mqe, hmsg, node, lock, heap₁, found, -, -, -, rfl, rfl⟩
  · exact .inl ⟨hasQueue_of_missing missing, rfl, rfl⟩
  · refine .inr ⟨hasQueue_of_found found, rfl, rfl, ?_⟩
    have more : (idsIn (pushed mqe lock ⟨node, hmsg, { msg with id := s.mqMsgId + 1 }⟩)).Perm
        ([s.mqMsgId + 1] ++ idsIn mqe) := by
      rw [idsIn, pushed, List.map_append]
      exact List.perm_append_comm
    exact holdings_gain (findMq_eq_some found).1 more

theorem IdInv.step (inv : IdInv w) (left : NumberLeft w e) (taken : pushStep w e = some w') : IdInv w' := by
  obtain ⟨called, noted⟩ := watch_eq_some taken
  obtain ⟨p, here, served⟩ := call_served called
  cases served with
  | creates value call made bytes result =>
    obtain ⟨entry, node, heap₁, -, -, -, mqs⟩ := mqsCreate_ok made
    rw [notePush_other (sendsTo_other here (by rw [call]; decide))] at noted
    refine inv.fewer [] ?_ ?_ rfl noted
    · rw [mqs]
    · rw [mqs, queuedIds, queuedIds, List.flatMap_append]
      simp [idsIn]
  | sends data value heap₁ call allocated push bytes result =>
    have named := sendsTo_send here call
    rw [notePush_send named result] at noted
    rcases push_ids push with ⟨missing, mqs, rfl⟩ | ⟨found, rfl, number, ids⟩
    · rw [missing] at noted
      exact inv.refused (by decide) mqs noted
    · rw [found] at noted
      exact inv.queued (left _ named found) number ids noted
  | nothing call pop | receives _ _ _ call pop =>
    rw [notePush_other (sendsTo_other here (by rw [call]; decide))] at noted
    obtain ⟨number, ids⟩ := queuedIds_pops pop
    exact inv.fewer _ number ids rfl noted

theorem not_distinguishable_of_exhausted (named : sendsTo e = some id) (found : hasQueue w.1.mqs id = true)
    (last : w.1.mqs.mqMsgId = 0x7fff) (taken : pushStep w e = some w') : ¬Distinguishable w' := by
  intro distinguishable
  obtain ⟨called, noted⟩ := watch_eq_some taken
  obtain ⟨p, here, served⟩ := call_served called
  have other (call : p.syscall ≠ some .mqsend) : False := by
    rw [sendsTo_other here call] at named
    cases named
  cases served with
  | sends data value heap₁ call allocated push bytes result =>
    obtain rfl : p.syscallState.regs 1 = id := Option.some.inj ((sendsTo_send here call).symm.trans named)
    rw [notePush_send named result, found] at noted
    rcases push_ids push with ⟨missing, -⟩ | ⟨-, rfl, -⟩
    · rw [found] at missing
      cases missing
    · have sign := distinguishable.1 ⟨true, w.1.mqs.mqMsgId + 1⟩ (by rw [noted]; simp)
      rw [last] at sign
      exact absurd (sign.mp (by decide)) (by decide)
  | creates value call made bytes result => exact other (by rw [call]; decide)
  | nothing call pop bytes result => exact other (by rw [call]; decide)
  | receives m heap₁ heap₂ call pop freedMsg freedData bytes result memory => exact other (by rw [call]; decide)

theorem not_distinguishable_of_not_left (inv : IdInv w) (none : ¬NumberLeft w e) (taken : pushStep w e = some w') :
    ¬Distinguishable w' := by
  unfold NumberLeft at none
  push Not at none
  obtain ⟨id, named, found, last⟩ := none
  have number : w.1.mqs.mqMsgId = 0x7fff := BitVec.eq_of_toNat_eq (Nat.le_antisymm inv.counted last)
  exact not_distinguishable_of_exhausted named found number taken

theorem idInv_start (kernel : KernelState) (bytes : HeapBytes) : IdInv (MqSystem.start kernel bytes, []) where
  distinguishable := ⟨fun push member => (List.not_mem_nil member).elim, List.nodup_nil⟩
  counted := by
    show (0 : Nat) ≤ 0x7fff
    omega
  below id member := (List.not_mem_nil member).elim

theorem sends_distinguishable_iff (kernel : KernelState) (bytes : HeapBytes) (events : List MqEvent) :
    Throughout pushStep Distinguishable (MqSystem.start kernel bytes, []) events ↔
      Guarded pushStep NumberLeft (MqSystem.start kernel bytes, []) events :=
  throughout_iff_guarded (I := IdInv) (fun _ inv => inv.distinguishable)
    (fun _ _ _ inv left taken => inv.step left taken)
    (fun _ _ _ inv none taken => not_distinguishable_of_not_left inv none taken) (idInv_start kernel bytes)

def mqCaller (call : Syscall) (r1 r2 r3 r6 : Word) : Proc :=
  { userProc 1 0 0x300 with
    state := .syscall
    syscallState :=
      { (userProc 1 0 0x300).procState with
        regs := fun r => if r = 0 then call.number else if r = 1 then r1 else if r = 2 then r2 else
          if r = 3 then r3 else if r = 6 then r6 else 0 } }

def mqCall (call : Syscall) (r1 r2 r3 r6 : Word) : MqEvent := ⟨[mqCaller call r1 r2 r3 r6], fun _ _ => 7, 0⟩

def create : MqEvent := mqCall .mqcreat 0 0 0 0
def send : MqEvent := mqCall .mqsend 1 0 4 0xf000
def receive : MqEvent := mqCall .mqrecv 1 2 0xf000 0

def oneQueue : HeapMemory := update (update initMalloc 0 2) 2 1

def oneMessage : HeapMemory := update (update (update oneQueue 3 1) 4 2) 6 1

def queueWith (mq : List MqNode) (count : Nat) (number : Nat) : Mqs :=
  ⟨[⟨0xA010, 0xA000, 1, mq, BitVec.ofNat 16 count, 1, count⟩], 1, BitVec.ofNat 16 number⟩

structure Idle (t : MqSystem) (number : Nat) : Prop where
  heap : t.kernel.heap = oneQueue
  mqs : t.mqs = queueWith [] 0 number

structure Holding (t : MqSystem) (number : Nat) : Prop where
  heap : t.kernel.heap = oneMessage
  mqs : t.mqs = queueWith [⟨0xA030, 0xA020, ⟨BitVec.ofNat 16 number, 0, 4, 0xA018⟩⟩] 1 number

theorem kmalloc_data : kmalloc oneQueue 4 = .ok (0xA018, update oneQueue 3 1) := by
  have found : kmallocScan oneQueue (sizeInChunks 4) heapArrSize 0 0 = some 3 := by decide +kernel
  rw [kmalloc, found]
  rfl

theorem kmalloc_message : kmalloc (update oneQueue 3 1) (BitVec.ofNat 16 sizeofMqMsg) =
    .ok (0xA020, update (update oneQueue 3 1) 4 2) := by
  have found : kmallocScan (update oneQueue 3 1) (sizeInChunks (BitVec.ofNat 16 sizeofMqMsg)) heapArrSize 0 0 =
      some 4 := by decide +kernel
  rw [kmalloc, found]
  rfl

theorem kmalloc_node : kmalloc (update (update oneQueue 3 1) 4 2) (BitVec.ofNat 16 sizeofListNode) =
    .ok (0xA030, oneMessage) := by
  have found : kmallocScan (update (update oneQueue 3 1) 4 2)
      (sizeInChunks (BitVec.ofNat 16 sizeofListNode)) heapArrSize 0 0 = some 6 := by decide +kernel
  rw [kmalloc, found]
  rfl

theorem freed_all : update (update (update oneMessage 6 0) 4 0) 3 0 = oneQueue := by
  funext c
  simp only [oneMessage, update_apply]
  split
  · rename_i third
    rw [third]
    rfl
  · split
    · rename_i fourth
      rw [fourth]
      rfl
    · split
      · rename_i sixth
        rw [sixth]
        rfl
      · rfl

theorem push_idle (number : Nat) : (queueWith [] 0 number).mqPush (update oneQueue 3 1) 1 ⟨0, 0, 4, 0xA018⟩ =
      .ok (queueWith [⟨0xA030, 0xA020, ⟨BitVec.ofNat 16 (number + 1), 0, 4, 0xA018⟩⟩] 1 (number + 1), oneMessage,
        BitVec.ofNat 16 (number + 1)) := by
  have found : (queueWith [] 0 number).findMq 1 = some (0, ⟨0xA010, 0xA000, 1, [], 0, 1, 0⟩) := rfl
  have next : (queueWith [] 0 number).mqMsgId + 1 = BitVec.ofNat 16 (number + 1) := (BitVec.ofNat_add ..).symm
  rw [mqPush_found found kmalloc_message (show semaphoreDown 1 = .ok 0 from rfl) kmalloc_node, next]
  rfl

theorem send_idle (idle : Idle t number) : ∃ t', t.call send = some t' ∧ Holding t' (number + 1) := by
  have here : send.procs[send.caller]? = some (mqCaller .mqsend 1 0 4 0xf000) := rfl
  have allocated : kmalloc t.kernel.heap 4 = .ok (0xA018, update oneQueue 3 1) := by
    rw [idle.heap, kmalloc_data]
  have push := push_idle number
  rw [← idle.mqs] at push
  obtain ⟨t', called, mqs, heap⟩ := call_send here (by decide) allocated push
  exact ⟨t', called, heap, mqs⟩

theorem receive_holding (holding : Holding t number) :
    ∃ t', t.call receive = some t' ∧ Idle t' number ∧ returnedTo t'.kernel receive.caller = some 0 := by
  have here : receive.procs[receive.caller]? = some (mqCaller .mqrecv 1 2 0xf000 0) := rfl
  have found : (queueWith [⟨0xA030, 0xA020, ⟨BitVec.ofNat 16 number, 0, 4, 0xA018⟩⟩] 1 number).findMq 1 = some (0,
      ⟨0xA010, 0xA000, 1, [⟨0xA030, 0xA020, ⟨BitVec.ofNat 16 number, 0, 4, 0xA018⟩⟩], 1, 1, 1⟩) := rfl
  have pop : (t.before receive).mqPopBy (mqCaller .mqrecv 1 2 0xf000 0) = .ok (queueWith [] 0 number,
      update oneMessage 6 0, some ⟨0xA030, 0xA020, ⟨BitVec.ofNat 16 number, 0, 4, 0xA018⟩⟩) := by
    show t.mqs.mqPop t.kernel.heap 1 = _
    rw [holding.mqs, holding.heap, mqPop_found found rfl (show semaphoreDown 1 = .ok 0 from rfl)
      (show semaphoreDown 1 = .ok 0 from rfl) (show kfree oneMessage 0xA030 = .ok (update oneMessage 6 0) from rfl),
      popped, show (1 : Word) - 1 = 0 from by decide]
    rfl
  obtain ⟨t', called, mqs, heap, result⟩ := call_receive here (by decide) pop
    (show kfree (update oneMessage 6 0) 0xA020 = .ok (update (update oneMessage 6 0) 4 0) from rfl)
    (show kfree (update (update oneMessage 6 0) 4 0) 0xA018 =
      .ok (update (update (update oneMessage 6 0) 4 0) 3 0) from rfl)
  exact ⟨t', called, ⟨heap.trans freed_all, mqs⟩, result⟩

theorem pushStep_of_call (log : List Push) (called : t.call e = some t') :
    pushStep (t, log) e = some (t', notePush log t e t') :=
  watch_of_step notePush log called

def exchanges (count : Nat) : List MqEvent := (List.replicate count [send, receive]).flatten

theorem exchanges_idle (count : Nat) (idle : Idle w.1 number) :
    ∃ w', run pushStep w (exchanges count) = some w' ∧ Idle w'.1 (number + count) := by
  induction count generalizing w number with
  | zero => exact ⟨w, rfl, idle⟩
  | succ count ih =>
    obtain ⟨t₁, sent, holding⟩ := send_idle idle
    obtain ⟨t₂, received, idle₂, -⟩ := receive_holding holding
    have sent : pushStep w send = _ := pushStep_of_call w.2 sent
    have received := pushStep_of_call (notePush w.2 w.1 send t₁) received
    obtain ⟨w', rest, idle'⟩ := ih (w := (t₂, notePush (notePush w.2 w.1 send t₁) t₁ receive t₂)) idle₂
    refine ⟨w', ?_, by rwa [Nat.add_right_comm, Nat.add_assoc] at idle'⟩
    show run pushStep w (send :: receive :: exchanges count) = some w'
    rw [run_cons, sent, Option.bind_some, run_cons, received, Option.bind_some, rest]

def emptySystem : MqSystem := MqSystem.start (bootKernel fun _ _ => 0) fun _ => 0

theorem create_idle : ∃ t, emptySystem.call create = some t ∧ Idle t 0 := by
  have here : create.procs[create.caller]? = some (mqCaller .mqcreat 0 0 0 0) := rfl
  have entry : kmalloc initMalloc (BitVec.ofNat 16 sizeofMqEntry) = .ok (0xA000, update initMalloc 0 2) := by
    have found : kmallocScan initMalloc (sizeInChunks (BitVec.ofNat 16 sizeofMqEntry)) heapArrSize 0 0 = some 0 := by
      decide +kernel
    rw [kmalloc, found]
    rfl
  have node : kmalloc (update initMalloc 0 2) (BitVec.ofNat 16 sizeofListNode) = .ok (0xA010, oneQueue) := by
    have found : kmallocScan (update initMalloc 0 2) (sizeInChunks (BitVec.ofNat 16 sizeofListNode))
        heapArrSize 0 0 = some 2 := by decide +kernel
    rw [kmalloc, found]
    rfl
  have made : (⟨[], 0, 0⟩ : Mqs).mqsCreate initMalloc = .ok (queueWith [] 0 0, oneQueue, 1) := by
    rw [Mqs.mqsCreate, entry]
    simp only [bind, Except.bind, node]
    rfl
  obtain ⟨t', called, mqs, heap⟩ := call_create (t := emptySystem) here (by decide) made
  exact ⟨t', called, heap, mqs⟩

theorem send_32768_negative :
    ¬Throughout pushStep Distinguishable (emptySystem, []) (create :: (exchanges 32767 ++ [send])) := by
  intro throughout
  obtain ⟨t₁, created, idle₁⟩ := create_idle
  have created := pushStep_of_call [] created
  obtain ⟨w₂, exchanged, idle₂⟩ := exchanges_idle 32767 (w := (t₁, notePush [] emptySystem create t₁)) idle₁
  obtain ⟨t₃, sent, -⟩ := send_idle idle₂
  have sent : pushStep w₂ send = _ := pushStep_of_call w₂.2 sent
  have reached : run pushStep (emptySystem, []) (create :: (exchanges 32767 ++ [send])) =
      some (t₃, notePush w₂.2 w₂.1 send t₃) := by
    rw [run_cons, created, Option.bind_some, run_append, exchanged, Option.bind_some, run_cons, sent, Option.bind_some,
      run_nil]
  have last := throughout_iff.mp throughout _ (List.prefix_refl _) _ reached
  have exhausted : hasQueue w₂.1.mqs 1 = true ∧ w₂.1.mqs.mqMsgId = 0x7fff := by
    rw [idle₂.mqs]
    decide
  exact not_distinguishable_of_exhausted (show sendsTo send = some 1 from rfl) exhausted.1 exhausted.2 sent last

end PiOS.Proof.MqIds
