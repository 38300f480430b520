import PiOS.Proof.HeapBytes
import PiOS.Proof.Steps
import PiOS.Proof.UserCopy

namespace PiOS.Proof.MqCalls
open Kernel Memory Transition Heap

variable {s s' : Mqs} {heap heap' : HeapMemory} {mqId : Word} {msg : MqMsg}

variable {i : Nat} {mqe : MqQueue} {id : Word} {heap₁ : HeapMemory} {mqs : Mqs}

theorem findMq_eq_some (found : s.findMq mqId = some (i, mqe)) : s.mqs[i]? = some mqe ∧ mqe.id = mqId := by
  obtain ⟨j, position, there⟩ := Option.bind_eq_some_iff.mp found
  obtain ⟨mqe', here, same⟩ := Option.map_eq_some_iff.mp there
  obtain ⟨rfl, rfl⟩ := Prod.mk.inj same
  obtain ⟨inside, matched, -⟩ := List.findIdx?_eq_some_iff_getElem.mp position
  rw [List.getElem?_eq_getElem inside, Option.some.injEq] at here
  subst here
  exact ⟨List.getElem?_eq_getElem inside, of_decide_eq_true matched⟩

theorem findMq_eq_none (missing : s.findMq mqId = none) : ∀ mqe ∈ s.mqs, mqe.id ≠ mqId := by
  intro mqe member same
  cases position : s.mqs.findIdx? fun mqe => mqe.id = mqId with
  | none =>
    have other := List.findIdx?_eq_none_iff.mp position mqe member
    simp [same] at other
  | some i =>
    obtain ⟨inside, -⟩ := List.findIdx?_eq_some_iff_getElem.mp position
    rw [Mqs.findMq, position, Option.bind_some, List.getElem?_eq_getElem inside] at missing
    cases missing

theorem mqsCreate_ok (made : s.mqsCreate heap = .ok (s', heap', id)) :
    ∃ entry node heap₁, kmalloc heap (BitVec.ofNat 16 sizeofMqEntry) = .ok (entry, heap₁) ∧
      kmalloc heap₁ (BitVec.ofNat 16 sizeofListNode) = .ok (node, heap') ∧ id = s.mqId + 1 ∧
      s' = { s with mqs := s.mqs ++ [⟨node, entry, id, [], 0, semaphoreUp 0, 0⟩], mqId := id } := by
  obtain ⟨⟨entry, heap₁⟩, first, made⟩ := bind_eq_ok.mp made
  obtain ⟨⟨node, heap₂⟩, second, made⟩ := bind_eq_ok.mp made
  cases made
  exact ⟨entry, node, heap₁, first, second, rfl, rfl⟩

def pushed (mqe : MqQueue) (lock : Int) (m : MqNode) : MqQueue :=
  { mqe with
    mq := mqe.mq ++ [m]
    dataAvailable := semaphoreUp mqe.dataAvailable
    len := mqe.len + 1
    lock := semaphoreUp lock }

theorem mqPush_ok (returned : s.mqPush heap mqId msg = .ok (s', heap', id)) :
    s.findMq mqId = none ∧ s' = s ∧ heap' = heap ∧ id = -1 ∨
      ∃ i mqe hmsg node lock heap₁, s.findMq mqId = some (i, mqe) ∧
        kmalloc heap (BitVec.ofNat 16 sizeofMqMsg) = .ok (hmsg, heap₁) ∧ semaphoreDown mqe.lock = .ok lock ∧
        kmalloc heap₁ (BitVec.ofNat 16 sizeofListNode) = .ok (node, heap') ∧ id = s.mqMsgId + 1 ∧
        s' = { s.setMq i (pushed mqe lock ⟨node, hmsg, { msg with id := id }⟩) with mqMsgId := id } := by
  unfold Mqs.mqPush at returned
  cases found : s.findMq mqId with
  | none =>
    rw [found] at returned
    cases returned
    exact .inl ⟨rfl, rfl, rfl, rfl⟩
  | some place =>
    obtain ⟨i, mqe⟩ := place
    rw [found] at returned
    obtain ⟨⟨hmsg, heap₁⟩, first, returned⟩ := bind_eq_ok.mp returned
    obtain ⟨lock, down, returned⟩ := bind_eq_ok.mp returned
    obtain ⟨⟨node, heap₂⟩, second, returned⟩ := bind_eq_ok.mp returned
    cases returned
    exact .inr ⟨i, mqe, hmsg, node, lock, heap₁, rfl, first, down, second, rfl, rfl⟩

theorem mqPush_found {hmsg node : Nat} {lock : Int}
    (found : s.findMq mqId = some (i, mqe))
    (first : kmalloc heap (BitVec.ofNat 16 sizeofMqMsg) = .ok (hmsg, heap₁))
    (down : semaphoreDown mqe.lock = .ok lock)
    (second : kmalloc heap₁ (BitVec.ofNat 16 sizeofListNode) = .ok (node, heap')) :
    s.mqPush heap mqId msg = .ok ({ s.setMq i (pushed mqe lock ⟨node, hmsg, { msg with id := s.mqMsgId + 1 }⟩) with
      mqMsgId := s.mqMsgId + 1 }, heap', s.mqMsgId + 1) := by
  rw [Mqs.mqPush, found]
  dsimp only
  simp only [first, down, bind, Except.bind]
  rw [second]
  rfl

def popped (mqe : MqQueue) (rest : List MqNode) (dataAvailable lock : Int) : MqQueue :=
  { mqe with mq := rest, dataAvailable := dataAvailable, len := mqe.len - 1, lock := semaphoreUp lock }

inductive Pops (s : Mqs) (heap : HeapMemory) (mqId : Word) : Mqs → HeapMemory → Option MqNode → Prop
  | missing (absent : s.findMq mqId = none) : Pops s heap mqId s heap none
  | empty (i : Nat) (mqe : MqQueue) (lock : Int) (found : s.findMq mqId = some (i, mqe)) (none : mqe.len = 0)
      (down : semaphoreDown mqe.lock = .ok lock) :
      Pops s heap mqId (s.setMq i { mqe with lock := semaphoreUp lock }) heap Option.none
  | taken (i : Nat) (mqe : MqQueue) (m : MqNode) (rest : List MqNode) (dataAvailable lock : Int)
      (heap' : HeapMemory) (found : s.findMq mqId = some (i, mqe)) (first : mqe.mq = m :: rest)
      (downData : semaphoreDown mqe.dataAvailable = .ok dataAvailable) (down : semaphoreDown mqe.lock = .ok lock)
      (freed : kfree heap m.node = .ok heap') :
      Pops s heap mqId (s.setMq i (popped mqe rest dataAvailable lock)) heap' (some m)

theorem removeFirst_ok {mqe' : MqQueue} {m : MqNode} (removed : Mqs.removeFirst heap mqe = .ok (mqe', heap', m)) :
    ∃ rest, mqe.mq = m :: rest ∧ mqe' = { mqe with mq := rest } ∧ kfree heap m.node = .ok heap' := by
  unfold Mqs.removeFirst at removed
  cases queue : mqe.mq with
  | nil =>
    rw [queue] at removed
    cases removed
  | cons first rest =>
    rw [queue] at removed
    obtain ⟨heap₁, freed, removed⟩ := bind_eq_ok.mp removed
    cases removed
    exact ⟨rest, rfl, rfl, freed⟩

theorem mqPop_ok {res : Option MqNode} (returned : s.mqPop heap mqId = .ok (s', heap', res)) :
    Pops s heap mqId s' heap' res := by
  unfold Mqs.mqPop at returned
  cases found : s.findMq mqId with
  | none =>
    rw [found] at returned
    cases returned
    exact .missing found
  | some place =>
    obtain ⟨i, mqe⟩ := place
    rw [found] at returned
    obtain ⟨dataAvailable, downData, returned⟩ := bind_eq_ok.mp returned
    obtain ⟨lock, down, returned⟩ := bind_eq_ok.mp returned
    obtain ⟨⟨mqe', heap₁, m⟩, removed, returned⟩ := bind_eq_ok.mp returned
    obtain ⟨rest, first, rfl, freed⟩ := removeFirst_ok removed
    cases returned
    exact .taken i mqe m rest dataAvailable lock _ found first downData down freed

theorem mqPopNonblock_ok {res : Option MqNode} (returned : s.mqPopNonblock heap mqId = .ok (s', heap', res)) :
    Pops s heap mqId s' heap' res := by
  unfold Mqs.mqPopNonblock at returned
  cases found : s.findMq mqId with
  | none =>
    rw [found] at returned
    cases returned
    exact .missing found
  | some place =>
    obtain ⟨i, mqe⟩ := place
    rw [found] at returned
    obtain ⟨lock, down, returned⟩ := bind_eq_ok.mp returned
    split at returned
    · rename_i none
      cases returned
      exact .empty i mqe lock found none down
    · obtain ⟨⟨mqe', heap₁, m⟩, removed, returned⟩ := bind_eq_ok.mp returned
      obtain ⟨rest, first, rfl, freed⟩ := removeFirst_ok removed
      obtain ⟨dataAvailable, downData, returned⟩ := bind_eq_ok.mp returned
      cases returned
      exact .taken i mqe m rest dataAvailable lock _ found first downData down freed

section Pop

variable {i : Nat} {mqe : MqQueue} {m : MqNode} {rest : List MqNode} {dataAvailable lock : Int}
  (found : s.findMq mqId = some (i, mqe)) (first : mqe.mq = m :: rest)
  (downData : semaphoreDown mqe.dataAvailable = .ok dataAvailable) (down : semaphoreDown mqe.lock = .ok lock)
  (freed : kfree heap m.node = .ok heap')

include found first downData down freed

theorem mqPop_found : s.mqPop heap mqId = .ok (s.setMq i (popped mqe rest dataAvailable lock), heap', some m) := by
  rw [Mqs.mqPop, found]
  simp only [Mqs.removeFirst, first, downData, down, freed, bind, Except.bind]
  rfl

theorem mqPopNonblock_found (some : mqe.len ≠ 0) :
    s.mqPopNonblock heap mqId = .ok (s.setMq i (popped mqe rest dataAvailable lock), heap', Option.some m) := by
  rw [Mqs.mqPopNonblock, found]
  simp only [Mqs.removeFirst, first, downData, down, freed, if_neg some, bind, Except.bind]
  rfl

end Pop

def returnedTo (k : KernelState) (i : Nat) : Option Word := k.procs[i]?.map fun p => p.syscallState.regs 0

theorem returnedTo_setReg {k : KernelState} (inside : i < k.procs.length) (w : Word) :
    returnedTo (k.setReg i 0 w) i = some w := by
  rw [returnedTo, KernelState.setReg, modifyProc_self, List.getElem?_eq_getElem inside]
  simp [ProcState.setReg]

theorem afterChunks_length (k : KernelState) (chunks : List UserChunk) :
    (k.afterChunks chunks).procs.length = k.procs.length := by
  have same := afterChunks_map (π := fun _ => ()) (fun _ _ => rfl) k chunks
  simpa using congrArg List.length same

theorem memcpyToUserspace_length (k : KernelState) (p : Proc) (ubuff : Word) (kbuff : List Byte) (size : Word) :
    (memcpyToUserspace k p ubuff kbuff size).procs.length = k.procs.length :=
  afterChunks_length k _

theorem returnedTo_copied {k : KernelState} (inside : i < k.procs.length) (p : Proc) (ubuff ubuff' : Word)
    (kbuff kbuff' : List Byte) (size size' : Word) (heap : HeapMemory) (w : Word) :
    returnedTo ({ memcpyToUserspace (memcpyToUserspace k p ubuff kbuff size) p ubuff' kbuff' size' with
      heap := heap }.setReg i 0 w) i = some w := by
  apply returnedTo_setReg
  have first := memcpyToUserspace_length k p ubuff kbuff size
  have second := memcpyToUserspace_length (memcpyToUserspace k p ubuff kbuff size) p ubuff' kbuff' size'
  exact Nat.lt_of_lt_of_eq inside (second.trans first).symm

variable {t t' : MqSystem} {e : MqEvent} {p : Proc}

inductive Served (t : MqSystem) (e : MqEvent) (p : Proc) (t' : MqSystem) : Prop
  | creates (id : Word) (call : p.syscall = some .mqcreat)
      (made : t.mqs.mqsCreate t.kernel.heap = .ok (t'.mqs, t'.kernel.heap, id)) (bytes : t'.bytes = t.bytes)
      (result : returnedTo t'.kernel e.caller = some id)
  | sends (data : Nat) (id : Word) (heap₁ : HeapMemory) (call : p.syscall = some .mqsend)
      (allocated : kmalloc t.kernel.heap (p.syscallState.regs 3) = .ok (data, heap₁))
      (push : t.mqs.mqPush heap₁ (p.syscallState.regs 1) ⟨0, p.syscallState.regs 2, p.syscallState.regs 3, data⟩ =
        .ok (t'.mqs, t'.kernel.heap, id))
      (bytes : t'.bytes = t.bytes.write data (userBytes e.phys p.syscallState.memPages (p.syscallState.regs 6)
        (p.syscallState.regs 3).toNat))
      (result : returnedTo t'.kernel e.caller = some id)
  | nothing (call : p.syscall = some .mqrecv)
      (pop : Pops t.mqs t.kernel.heap (p.syscallState.regs 1) t'.mqs t'.kernel.heap none) (bytes : t'.bytes = t.bytes)
      (result : returnedTo t'.kernel e.caller = some (-einval))
  | receives (m : MqNode) (heap₁ heap₂ : HeapMemory) (call : p.syscall = some .mqrecv)
      (pop : Pops t.mqs t.kernel.heap (p.syscallState.regs 1) t'.mqs heap₁ (some m))
      (freedMsg : kfree heap₁ m.hmsg = .ok heap₂) (freedData : kfree heap₂ m.msg.data = .ok t'.kernel.heap)
      (bytes : t'.bytes = t.bytes) (result : returnedTo t'.kernel e.caller = some 0)
      (memory : flat t'.kernel.phys = storeAll (flat e.phys)
        (fun j => placeOf p.syscallState.memPages (p.syscallState.regs 3 + BitVec.ofNat 16 j))
        (m.msg.header ++ t.bytes.read m.msg.data (wordMin m.msg.size (p.syscallState.regs 2)).toNat))

theorem sysMqcreat_served (here : e.procs[e.caller]? = some p) (call : p.syscall = some .mqcreat)
    (served : (t.before e).sysMqcreat e.caller = .ok t') : Served t e p t' := by
  obtain ⟨⟨mqs, heap, id⟩, made, served⟩ := bind_eq_ok.mp served
  cases served
  exact .creates id call made rfl (returnedTo_setReg (List.getElem?_eq_some_iff.mp here).1 id)

theorem sysMqsend_served (here : e.procs[e.caller]? = some p) (call : p.syscall = some .mqsend)
    (served : (t.before e).sysMqsend e.caller p = .ok t') : Served t e p t' := by
  obtain ⟨⟨data, heap₁⟩, allocated, served⟩ := bind_eq_ok.mp served
  obtain ⟨⟨mqs, heap, id⟩, push, served⟩ := bind_eq_ok.mp served
  cases served
  refine .sends data id heap₁ call allocated push ?_ (returnedTo_setReg ?_ id)
  · exact congrArg (t.bytes.write data) (readUser_eq _ (Nat.le_refl _))
  · rw [show _ = _ from afterChunks_length _ _]
    exact (List.getElem?_eq_some_iff.mp here).1

theorem sysMqrecv_served (here : e.procs[e.caller]? = some p) (call : p.syscall = some .mqrecv)
    (served : (t.before e).sysMqrecv e.caller p = .ok t') : Served t e p t' := by
  have inside := (List.getElem?_eq_some_iff.mp here).1
  obtain ⟨⟨mqs, heap, res⟩, popped, served⟩ := bind_eq_ok.mp served
  have pop : Pops t.mqs t.kernel.heap (p.syscallState.regs 1) mqs heap res := by
    unfold MqSystem.mqPopBy at popped
    split at popped
    · exact mqPopNonblock_ok popped
    · exact mqPop_ok popped
  cases res with
  | none =>
    cases served
    exact .nothing call pop rfl (returnedTo_setReg inside _)
  | some m =>
    obtain ⟨heap₁, freedMsg, served⟩ := bind_eq_ok.mp served
    obtain ⟨heap₂, freedData, served⟩ := bind_eq_ok.mp served
    cases served
    refine .receives m heap heap₁ call pop freedMsg freedData rfl (returnedTo_copied inside ..) ?_
    have whole := HeapBytes.read_length t.bytes m.msg.data (wordMin m.msg.size (p.syscallState.regs 2)).toNat
    have copied := memcpyToUserspace_twice (t.before e).kernel p (p.syscallState.regs 3)
      (show m.msg.header.length = 6 from rfl) (t.bytes.read m.msg.data (wordMin m.msg.size (p.syscallState.regs 2)).toNat)
      (wordMin m.msg.size (p.syscallState.regs 2))
    rw [List.take_of_length_le (Nat.le_of_eq whole)] at copied
    exact copied

theorem call_served (taken : t.call e = some t') : ∃ p, e.procs[e.caller]? = some p ∧ Served t e p t' := by
  obtain ⟨p, here, served⟩ := Option.bind_eq_some_iff.mp taken
  refine ⟨p, here, ?_⟩
  split at served
  · exact sysMqcreat_served here ‹_› (toOption_eq_some.mp served)
  · exact sysMqsend_served here ‹_› (toOption_eq_some.mp served)
  · exact sysMqrecv_served here ‹_› (toOption_eq_some.mp served)
  · cases served

theorem call_create (here : e.procs[e.caller]? = some p) (call : p.syscall = some .mqcreat)
    (made : t.mqs.mqsCreate t.kernel.heap = .ok (mqs, heap, id)) :
    ∃ t', t.call e = some t' ∧ t'.mqs = mqs ∧ t'.kernel.heap = heap := by
  have served : ∃ t', (t.before e).sysMqcreat e.caller = .ok t' ∧ t'.mqs = mqs ∧ t'.kernel.heap = heap := by
    unfold MqSystem.sysMqcreat
    rw [show (t.before e).mqs.mqsCreate (t.before e).kernel.heap = .ok (mqs, heap, id) from made]
    exact ⟨_, rfl, rfl, rfl⟩
  obtain ⟨t', ok, after⟩ := served
  refine ⟨t', ?_, after⟩
  rw [MqSystem.call, here, Option.bind_eq_bind, Option.bind_some, call]
  exact toOption_eq_some.mpr ok

theorem call_send {data : Nat} (here : e.procs[e.caller]? = some p) (call : p.syscall = some .mqsend)
    (allocated : kmalloc t.kernel.heap (p.syscallState.regs 3) = .ok (data, heap₁))
    (push : t.mqs.mqPush heap₁ (p.syscallState.regs 1) ⟨0, p.syscallState.regs 2, p.syscallState.regs 3, data⟩ =
      .ok (mqs, heap, id)) : ∃ t', t.call e = some t' ∧ t'.mqs = mqs ∧ t'.kernel.heap = heap := by
  have served : ∃ t', (t.before e).sysMqsend e.caller p = .ok t' ∧ t'.mqs = mqs ∧ t'.kernel.heap = heap := by
    unfold MqSystem.sysMqsend
    rw [show (t.before e).kernel.heap = t.kernel.heap from rfl, show (t.before e).mqs = t.mqs from rfl, allocated]
    simp only [bind, Except.bind, push]
    exact ⟨_, rfl, rfl, rfl⟩
  obtain ⟨t', ok, after⟩ := served
  refine ⟨t', ?_, after⟩
  rw [MqSystem.call, here, Option.bind_eq_bind, Option.bind_some, call]
  exact toOption_eq_some.mpr ok

theorem call_receive {heap₂ : HeapMemory} {m : MqNode} (here : e.procs[e.caller]? = some p)
    (call : p.syscall = some .mqrecv) (pop : (t.before e).mqPopBy p = .ok (mqs, heap₁, some m))
    (freedMsg : kfree heap₁ m.hmsg = .ok heap₂) (freedData : kfree heap₂ m.msg.data = .ok heap) :
    ∃ t', t.call e = some t' ∧ t'.mqs = mqs ∧ t'.kernel.heap = heap ∧ returnedTo t'.kernel e.caller = some 0 := by
  have inside : e.caller < (t.before e).kernel.procs.length := (List.getElem?_eq_some_iff.mp here).1
  have served : ∃ t', (t.before e).sysMqrecv e.caller p = .ok t' ∧ t'.mqs = mqs ∧ t'.kernel.heap = heap ∧
      returnedTo t'.kernel e.caller = some 0 := by
    unfold MqSystem.sysMqrecv
    rw [pop]
    simp only [bind, Except.bind, freedMsg, freedData]
    exact ⟨_, rfl, rfl, rfl, returnedTo_copied inside ..⟩
  obtain ⟨t', ok, after⟩ := served
  refine ⟨t', ?_, after⟩
  rw [MqSystem.call, here, Option.bind_eq_bind, Option.bind_some, call]
  exact toOption_eq_some.mpr ok

end PiOS.Proof.MqCalls
