import PiOS.Kernel.Sys.FileCalls
import PiOS.Proof.HeapBytes
import PiOS.Transition.Outcome

namespace PiOS.Proof.TmpFiles
open Kernel Heap Transition Function

structure World where
  fs : FileSystem
  buffers : List (Nat × Word)

inductive Action
  | find (self : Nat) (path : CString)
  | write (inode vbuff : Nat) (size : Word)
  | read (inode vbuff : Nat) (size : Word)
  | kmalloc (size : Word)
  | kfree (ptr : Nat)
  | fill (ptr : Nat) (data : List Byte)

inductive Answer
  | inode (found : Option Nat)
  | written (res : Word)
  | data (bytes : List Byte)
  | nothing

def World.HasBuffer (w : World) (vbuff size : Nat) : Prop := ∃ b ∈ w.buffers, b.1 = vbuff ∧ size ≤ b.2.toNat
deriving Decidable

def submit (fs : FileSystem) (type : Word) (inode vbuff : Nat) (size : Word) : Except Stop (FileSystem × Word) :=
  (fs.tmpSubmit ⟨some inode, 0, 0, none⟩ type vbuff size).map fun out => (out.1, out.2.2.2)

def perform (w : World) : Action → Option (Answer × World)
  | .find self path =>
    (w.fs.tmpFindInode self path).toOption.map fun out => (.inode out.1, { w with fs := out.2 })
  | .write inode vbuff size =>
    if w.HasBuffer vbuff size.toNat then
      (submit w.fs vfsAsyncTypeWrite inode vbuff size).toOption.map fun out => (.written out.2, { w with fs := out.1 })
    else
      none
  | .read inode vbuff size =>
    if w.HasBuffer vbuff size.toNat then
      (submit w.fs vfsAsyncTypeRead inode vbuff size).toOption.map fun out =>
        (.data (out.1.bytes.read vbuff out.2.toNat), { w with fs := out.1 })
    else
      none
  | .kmalloc size =>
    (kmalloc w.fs.kernel.heap size).toOption.map fun out => (.nothing, ⟨w.fs.setHeap out.2, (out.1, size) :: w.buffers⟩)
  | .kfree ptr =>
    if ptr ∈ w.buffers.map Prod.fst then
      (kfree w.fs.kernel.heap ptr).toOption.map fun heap =>
        (.nothing, ⟨w.fs.setHeap heap, w.buffers.filter fun b => b.1 ≠ ptr⟩)
    else
      none
  | .fill ptr data =>
    if w.HasBuffer ptr data.length then
      some (.nothing, { w with fs := { w.fs with bytes := w.fs.bytes.write ptr data } })
    else
      none

def lookup : Action → Answer → List (CString × Nat)
  | .find _ path, .inode (some inode) => [(path, inode)]
  | _, _ => []

def step (w : World × List (CString × Nat)) (a : Action) : Option (World × List (CString × Nat)) :=
  (perform w.1 a).map fun out => (out.2, w.2 ++ lookup a out.1)

/-- What the filesystem is for: names with their inodes, and the bytes under each name. -/
structure FileMap where
  names : List CString
  inode : CString → Option Nat
  content : CString → List Byte

def FileMap.store (m : FileMap) (name : CString) (data : List Byte) : FileMap :=
  { m with content := update m.content name data }

inductive FileMap.Effect (m : FileMap) (bytes : HeapBytes) : Action → Answer → FileMap → Prop
  | known {self : Nat} {path : CString} (member : path ∈ m.names) :
      Effect m bytes (.find self path) (.inode (m.inode path)) m
  | create {self : Nat} {path : CString} {inode : Nat} (new : path ∉ m.names) (room : m.names.length < 64)
      (fresh : ∀ name, m.inode name ≠ some inode) :
      Effect m bytes (.find self path) (.inode (some inode))
        ⟨m.names ++ [path], update m.inode path (some inode), update m.content path []⟩
  | full {self : Nat} {path : CString} (new : path ∉ m.names) (full : 64 ≤ m.names.length) :
      Effect m bytes (.find self path) (.inode none) m
  | write {inode vbuff : Nat} {size : Word} {name : CString} (named : m.inode name = some inode) :
      Effect m bytes (.write inode vbuff size) (.written size)
        (m.store name (bytes.read vbuff size.toNat ++ (m.content name).drop size.toNat))
  | read {inode vbuff : Nat} {size : Word} {name : CString} (named : m.inode name = some inode) :
      Effect m bytes (.read inode vbuff size) (.data ((m.content name).take size.toNat)) m
  | kmalloc {size : Word} : Effect m bytes (.kmalloc size) .nothing m
  | kfree {ptr : Nat} : Effect m bytes (.kfree ptr) .nothing m
  | fill {ptr : Nat} {data : List Byte} : Effect m bytes (.fill ptr data) .nothing m

def fileBytes (s : FileSystem) (f : TmpFile) : List Byte :=
  match s.allocFid f.fid.toNat with
  | none => []
  | some ptr => s.bytes.read ptr f.size.toNat

def named (s : FileSystem) (name : CString) : Option TmpFile := s.tmpFiles.find? fun f => f.name = name

def fileMap (s : FileSystem) : FileMap where
  names := s.tmpFiles.map TmpFile.name
  inode name := (named s name).map TmpFile.inode
  content name := (named s name).elim [] (fileBytes s)

/-- Each name has one inode and each inode one name, the actions act on the map, a lookup without success
changes nothing, and a request on a file fails only for lack of memory. -/
structure Refines (w : World × List (CString × Nat)) : Prop where
  agree : ∀ a ∈ w.2, ∀ b ∈ w.2, a.1 = b.1 ↔ a.2 = b.2
  acts : ∀ action answer w', perform w.1 action = some (answer, w') →
    (fileMap w.1.fs).Effect w.1.fs.bytes action answer (fileMap w'.fs)
  refuses : ∀ self path w', perform w.1 (.find self path) = some (.inode none, w') → w' = w.1
  serves : ∀ e ∈ w.2, ∀ type vbuff size stop, submit w.1.fs type e.2 vbuff size = .error stop →
    stop = .panic "kmalloc: out of memory"

def ownBlocks (f : TmpFile) : List (Nat × Word) :=
  [(f.node, BitVec.ofNat 16 sizeofListNode), (f.nameBlock, BitVec.ofNat 16 (f.name.length + 1)),
    (f.inode, BitVec.ofNat 16 sizeofInode)]

def dataBlock (s : FileSystem) (f : TmpFile) : List (Nat × Word) :=
  (s.allocFid f.fid.toNat).toList.map fun ptr => (ptr, f.size)

def fileBlocks (s : FileSystem) (f : TmpFile) : List (Nat × Word) := dataBlock s f ++ ownBlocks f

def blocks (s : FileSystem) : List (Nat × Word) := s.tmpFiles.flatMap (fileBlocks s)

structure Inv (w : World × List (CString × Nat)) : Prop where
  heap : HeapInv ⟨w.1.fs.kernel.heap, blocks w.1.fs ++ w.1.buffers⟩
  names : (w.1.fs.tmpFiles.map TmpFile.name).Nodup
  fids : (w.1.fs.tmpFiles.map fun f => f.fid.toNat) = List.range w.1.fs.tmpFid.toNat
  few : w.1.fs.tmpFid.toNat ≤ maxFiles
  empty : ∀ f ∈ w.1.fs.tmpFiles, w.1.fs.allocFid f.fid.toNat = none → f.size = 0
  log : ∀ e ∈ w.2, (fileMap w.1.fs).inode e.1 = some e.2

section Files

variable {s s' : FileSystem} {f g : TmpFile} {u : TmpFile → TmpFile}

theorem find_of_nodup {α κ : Type*} [DecidableEq κ] {l : List α} {key : α → κ} {x : α} (distinct : (l.map key).Nodup)
    (member : x ∈ l) : l.find? (fun y => key y = key x) = some x := by
  cases found : l.find? (fun y => key y = key x) with
  | none => simpa using List.find?_eq_none.mp found x member
  | some y =>
    have same : key y = key x := by simpa using List.find?_some found
    rw [List.inj_on_of_nodup_map distinct (List.mem_of_find?_eq_some found) member same]

theorem fileBytes_write {ptr : Nat} {data : List Byte} (fids : s'.allocFid g.fid.toNat = s.allocFid g.fid.toNat)
    (bytes : s'.bytes = s.bytes.write ptr data)
    (apart : ∀ p, s.allocFid g.fid.toNat = some p → p + g.size.toNat ≤ ptr ∨ ptr + data.length ≤ p) :
    fileBytes s' g = fileBytes s g := by
  unfold fileBytes
  rw [fids, bytes]
  cases block : s.allocFid g.fid.toNat with
  | none => rfl
  | some p => exact read_write_apart (apart p block)

theorem named_map (files : s'.tmpFiles = s.tmpFiles.map u)
    (keeps : ∀ g, (u g).name = g.name) (name : CString) : named s' name = (named s name).map u := by
  unfold named
  rw [files, List.find?_map]
  congr 2
  funext g
  simp [keeps g]

theorem fileMap_update {c : List Byte} (names : (s.tmpFiles.map TmpFile.name).Nodup)
    (member : f ∈ s.tmpFiles) (files : s'.tmpFiles = s.tmpFiles.map u)
    (keeps : ∀ g, (u g).name = g.name ∧ (u g).inode = g.inode) (own : fileBytes s' (u f) = c)
    (others : ∀ g ∈ s.tmpFiles, g ≠ f → fileBytes s' (u g) = fileBytes s g) :
    fileMap s' = (fileMap s).store f.name c := by
  have under := named_map files fun g => (keeps g).1
  have sameNames : (fileMap s').names = (fileMap s).names := by
    simp only [fileMap, files, List.map_map]
    exact List.map_congr_left fun g _ => (keeps g).1
  have sameInodes : (fileMap s').inode = (fileMap s).inode := by
    funext name
    simp only [fileMap, under, Option.map_map]
    congr 1
    funext g
    exact (keeps g).2
  have contents : (fileMap s').content = update (fileMap s).content f.name c := by
    funext name
    by_cases here : name = f.name
    · subst here
      have found : named s f.name = some f := find_of_nodup names member
      simp only [fileMap, under, found, update_self]
      exact own
    · rw [update_of_ne here]
      simp only [fileMap, under]
      cases found : named s name with
      | none => rfl
      | some g =>
        have called : g.name = name := by simpa using List.find?_some found
        apply others g (List.mem_of_find?_eq_some found)
        rintro rfl
        exact here called.symm
  cases fm : fileMap s'
  simp only [fm] at sameNames sameInodes contents
  rw [sameNames, sameInodes, contents, FileMap.store]

theorem fileMap_same (files : s'.tmpFiles = s.tmpFiles) (same : ∀ g ∈ s.tmpFiles, fileBytes s' g = fileBytes s g) :
    fileMap s' = fileMap s := by
  have under : ∀ name, named s' name = named s name := fun name => by unfold named; rw [files]
  have contents : (fileMap s').content = (fileMap s).content := by
    funext name
    simp only [fileMap, under]
    cases found : named s name with
    | none => rfl
    | some g => exact same g (List.mem_of_find?_eq_some found)
  simp only [fileMap, FileMap.mk.injEq, under, files, true_and] at contents ⊢
  exact contents

end Files

section Blocks

variable {w : World × List (CString × Nat)} {f g : TmpFile} {p : Nat} {s : FileSystem}

theorem mem_dataBlock {b : Nat × Word} : b ∈ dataBlock s f ↔ s.allocFid f.fid.toNat = some b.1 ∧ b.2 = f.size := by
  rcases b with ⟨ptr, size⟩
  simp only [dataBlock, List.mem_map, Option.mem_toList, Prod.mk.injEq]
  constructor
  · rintro ⟨p, block, rfl, rfl⟩
    exact ⟨block, rfl⟩
  · rintro ⟨block, rfl⟩
    exact ⟨ptr, block, rfl, rfl⟩

theorem mem_blocks (member : f ∈ s.tmpFiles) (block : s.allocFid f.fid.toNat = some p) : (p, f.size) ∈ blocks s :=
  List.mem_flatMap.mpr ⟨f, member, List.mem_append_left _ (mem_dataBlock.mpr ⟨block, rfl⟩)⟩

section

variable (inv : Inv w) (member : f ∈ w.1.fs.tmpFiles)
include inv member

theorem fid_injective (member' : g ∈ w.1.fs.tmpFiles) (same : f.fid.toNat = g.fid.toNat) : f = g := by
  have distinct : (w.1.fs.tmpFiles.map fun f => f.fid.toNat).Nodup := inv.fids ▸ List.nodup_range
  exact List.inj_on_of_nodup_map distinct member member' same

theorem block_injective (member' : g ∈ w.1.fs.tmpFiles) {b c : Nat × Word}
    (held : b ∈ fileBlocks w.1.fs f) (held' : c ∈ fileBlocks w.1.fs g) (same : b.1 = c.1) : f = g := by
  have distinct : ((blocks w.1.fs).map Prod.fst).Nodup := by
    have := inv.heap.distinct
    rw [List.map_append] at this
    exact (List.nodup_append.mp this).1
  unfold blocks at distinct
  rw [List.map_flatMap, List.nodup_flatMap] at distinct
  by_contra different
  have : Std.Symm (Function.onFun List.Disjoint fun f => (fileBlocks w.1.fs f).map Prod.fst) :=
    ⟨fun _ _ => List.Disjoint.symm⟩
  have apart := distinct.2.forall member member' different
  exact apart (List.mem_map_of_mem held) (same ▸ List.mem_map_of_mem held')

theorem inode_injective (member' : g ∈ w.1.fs.tmpFiles) (same : f.inode = g.inode) : f = g := by
  have own : ∀ h : TmpFile, (h.inode, BitVec.ofNat 16 sizeofInode) ∈ fileBlocks w.1.fs h :=
    fun h => List.mem_append_right _ (by simp [ownBlocks])
  exact block_injective inv member member' (own f) (own g) same

theorem find_inode : w.1.fs.tmpFiles.find? (fun g => g.inode = f.inode) = some f := by
  apply find_of_nodup _ member
  have distinct : w.1.fs.tmpFiles.Nodup := inv.names.of_map _
  exact distinct.map_on fun a memberA b memberB same => inode_injective inv memberA memberB same

theorem buffer_apart (block : w.1.fs.allocFid f.fid.toNat = some p)
    {vbuff size : Nat} (buffer : w.1.HasBuffer vbuff size) : p + f.size.toNat ≤ vbuff ∨ vbuff + size ≤ p := by
  obtain ⟨b, held, rfl, room⟩ := buffer
  have mine := mem_blocks member block
  have different : p ≠ b.1 := by
    have distinct := inv.heap.distinct
    rw [List.map_append] at distinct
    exact (List.nodup_append.mp distinct).2.2 _ (List.mem_map_of_mem mine) _ (List.mem_map_of_mem held)
  have apart := HeapInv.bytes_apart (b := (p, f.size)) (c := b) inv.heap (List.mem_append_left _ mine)
    (List.mem_append_right _ held) different
  simp only at apart
  omega

end

theorem blocks_perm {others : List TmpFile} (files : s.tmpFiles.Perm (f :: others)) :
    (blocks s).Perm (fileBlocks s f ++ others.flatMap (fileBlocks s)) := by
  have perm := files.flatMap_right (fileBlocks s)
  rwa [List.flatMap_cons] at perm

end Blocks

section Lookup

variable {w : World × List (CString × Nat)} {s s' : FileSystem} {path : CString} {self : Nat} {f : TmpFile}
  {res : Nat}

theorem named_iff : named s path = none ↔ path ∉ (fileMap s).names := by
  simp [named, fileMap]

theorem tmpCreate_ok {live : List (Nat × Word)} (inv : HeapInv ⟨s.kernel.heap, live⟩)
    (created : s.tmpCreate path = .ok (res, s')) :
    ∃ f : TmpFile, f.inode = res ∧ f.name = path ∧ f.fid = s.tmpFid ∧ f.size = 0 ∧
      HeapInv ⟨s'.kernel.heap, ownBlocks f ++ live⟩ ∧ s'.tmpFiles = s.tmpFiles ++ [f] ∧ s'.tmpFid = s.tmpFid + 1 ∧
      s'.allocFid = update s.allocFid s.tmpFid.toNat none ∧ s'.bytes = s.bytes := by
  unfold FileSystem.tmpCreate at created
  obtain ⟨⟨inode, heap⟩, first, created⟩ := bind_eq_ok.mp created
  obtain ⟨⟨name, heap'⟩, second, created⟩ := bind_eq_ok.mp created
  obtain ⟨⟨node, heap''⟩, third, created⟩ := bind_eq_ok.mp created
  cases created
  exact ⟨⟨node, res, name, path, s.tmpFid, 0⟩, rfl, rfl, rfl, rfl, ((inv.kmalloc first).kmalloc second).kmalloc third,
    rfl, rfl, rfl, rfl⟩

theorem fid_lt (inv : Inv w) (member : f ∈ w.1.fs.tmpFiles) : f.fid.toNat < w.1.fs.tmpFid.toNat := by
  have : f.fid.toNat ∈ w.1.fs.tmpFiles.map fun f => f.fid.toNat := List.mem_map_of_mem member
  rwa [inv.fids, List.mem_range] at this

theorem files_length (inv : Inv w) : w.1.fs.tmpFiles.length = w.1.fs.tmpFid.toNat := by
  have := congrArg List.length inv.fids
  simpa using this

theorem inode_mem {name : CString} {inode : Nat} (found : (fileMap s).inode name = some inode) :
    ∃ f ∈ s.tmpFiles, f.name = name ∧ f.inode = inode := by
  obtain ⟨f, hit, rfl⟩ := Option.map_eq_some_iff.mp found
  exact ⟨f, List.mem_of_find?_eq_some hit, by simpa using List.find?_some hit, rfl⟩

theorem fileMap_append (new : f.name ∉ (fileMap s).names) (files : s'.tmpFiles = s.tmpFiles ++ [f])
    (own : fileBytes s' f = []) (others : ∀ g ∈ s.tmpFiles, fileBytes s' g = fileBytes s g) :
    fileMap s' = ⟨(fileMap s).names ++ [f.name], update (fileMap s).inode f.name (some f.inode),
      update (fileMap s).content f.name []⟩ := by
  have under : ∀ name, named s' name = (named s name).or (if f.name = name then some f else none) := by
    intro name
    unfold named
    rw [files, List.find?_append, List.find?_singleton]
    simp
  have none : named s f.name = none := named_iff.mpr new
  unfold fileMap
  simp only [FileMap.mk.injEq]
  refine ⟨by simp [files], ?_, ?_⟩
  · funext name
    by_cases here : name = f.name
    · subst here
      simp [under, none]
    · rw [update_of_ne here, under, if_neg (Ne.symm here), Option.or_none]
  · funext name
    by_cases here : name = f.name
    · subst here
      simp [under, none, own]
    · rw [update_of_ne here, under, if_neg (Ne.symm here), Option.or_none]
      cases found : named s name with
      | none => rfl
      | some g => exact others g (List.mem_of_find?_eq_some found)

theorem dataBlock_fresh (inv : Inv w) (fids : s'.allocFid = update w.1.fs.allocFid w.1.fs.tmpFid.toNat none)
    {g : TmpFile} (member : g ∈ w.1.fs.tmpFiles) : s'.allocFid g.fid.toNat = w.1.fs.allocFid g.fid.toNat := by
  rw [fids, update_of_ne (fid_lt inv member).ne]

theorem next_toNat {fid : Word} (room : fid.toNat < maxFiles) : (fid + 1).toNat = fid.toNat + 1 := by
  have one : (1 : Word).toNat = 1 := rfl
  rw [maxFiles] at room
  rw [BitVec.toNat_add, one]
  omega

theorem find_new (inv : Inv w) (new : path ∉ (fileMap w.1.fs).names) (room : w.1.fs.tmpFid.toNat < maxFiles)
    (created : w.1.fs.tmpCreate path = .ok (res, s')) :
    (fileMap w.1.fs).Effect w.1.fs.bytes (.find self path) (.inode (some res)) (fileMap s') ∧
      Inv (⟨s', w.1.buffers⟩, w.2 ++ [(path, res)]) := by
  obtain ⟨f, rfl, rfl, fid, size, heap, files, next, fids, bytes⟩ := tmpCreate_ok inv.heap created
  have old : ∀ g ∈ w.1.fs.tmpFiles, s'.allocFid g.fid.toNat = w.1.fs.allocFid g.fid.toNat :=
    fun g => dataBlock_fresh inv fids
  have none : s'.allocFid f.fid.toNat = Option.none := by rw [fids, fid, update_self]
  have own : fileBytes s' f = [] := by rw [fileBytes, none]
  have others : ∀ g ∈ w.1.fs.tmpFiles, fileBytes s' g = fileBytes w.1.fs g := by
    intro g member
    unfold fileBytes
    rw [old g member, bytes]
  have map := fileMap_append new files own others
  have length : (fileMap w.1.fs).names.length = w.1.fs.tmpFid.toNat := by
    rw [← files_length inv]
    exact List.length_map _
  have held : blocks s' = blocks w.1.fs ++ ownBlocks f := by
    have same : ∀ g ∈ w.1.fs.tmpFiles, fileBlocks s' g = fileBlocks w.1.fs g := by
      intro g member
      rw [fileBlocks, fileBlocks, dataBlock, dataBlock, old g member]
    have mine : fileBlocks s' f = ownBlocks f := by simp [fileBlocks, dataBlock, none]
    rw [blocks, files, List.flatMap_append, List.flatMap_singleton, mine, blocks, List.flatMap_congr same]
  have fresh : ∀ name, (fileMap w.1.fs).inode name ≠ some f.inode := by
    intro name found
    obtain ⟨g, member, -, same⟩ := inode_mem found
    have pointer : f.inode ∈ (ownBlocks f).map Prod.fst := by simp [ownBlocks]
    have again : f.inode ∈ (blocks w.1.fs ++ w.1.buffers).map Prod.fst := by
      rw [← same]
      apply List.mem_map_of_mem (a := (g.inode, BitVec.ofNat 16 sizeofInode))
      exact List.mem_append_left _ (List.mem_flatMap.mpr ⟨g, member, List.mem_append_right _ (by simp [ownBlocks])⟩)
    have distinct := heap.distinct
    rw [List.map_append] at distinct
    exact (List.nodup_append.mp distinct).2.2 _ pointer _ again rfl
  constructor
  · rw [map]
    exact .create new (by rw [length]; exact room) fresh
  · constructor
    · apply heap.perm
      rw [held, ← List.append_assoc]
      exact List.perm_append_comm.append_right _
    · rw [files, List.map_append, List.map_singleton]
      exact List.nodup_append.mpr ⟨inv.names, List.nodup_singleton _, by
        intro a member b last same
        obtain rfl := List.mem_singleton.mp last
        exact new (same ▸ member)⟩
    · simp only [files, List.map_append, inv.fids, next, next_toNat room, List.range_succ, List.map_singleton, fid]
    · simp only [next, next_toNat room]
      exact room
    · intro g member noBlock
      simp only [files, List.mem_append, List.mem_singleton] at member
      rcases member with before | rfl
      · exact inv.empty g before (old g before ▸ noBlock)
      · exact size
    · intro e member
      simp only [map]
      rcases List.mem_append.mp member with before | last
      · have found := inv.log e before
        have other : e.1 ≠ f.name := by
          intro same
          obtain ⟨g, there, called, -⟩ := inode_mem found
          exact new (same ▸ called ▸ List.mem_map_of_mem there)
        rw [update_of_ne other]
        exact found
      · obtain rfl := List.mem_singleton.mp last
        exact update_self ..

theorem find_acts (inv : Inv w) {answer : Answer} {w' : World} (action : perform w.1 (.find self path) = some (answer, w')) :
    (fileMap w.1.fs).Effect w.1.fs.bytes (.find self path) answer (fileMap w'.fs) ∧
      Inv (w', w.2 ++ lookup (.find self path) answer) ∧ (answer = .inode none → w' = w.1) := by
  obtain ⟨⟨found, fs⟩, performed, done⟩ := Option.map_eq_some_iff.mp action
  rw [toOption_eq_some] at performed
  simp only [Prod.mk.injEq] at done
  obtain ⟨rfl, rfl⟩ := done
  unfold FileSystem.tmpFindInode at performed
  cases hit : w.1.fs.tmpFiles.find? (fun f => f.name = path) with
  | some f =>
    simp only [hit, Except.ok.injEq, Prod.mk.injEq] at performed
    obtain ⟨rfl, rfl⟩ := performed
    have inode : (fileMap w.1.fs).inode path = some f.inode := by
      simp only [fileMap, named, hit, Option.map_some]
    have member : path ∈ (fileMap w.1.fs).names := by
      by_contra absent
      rw [← named_iff, named, hit] at absent
      cases absent
    refine ⟨?_, ?_, nofun⟩
    · rw [← inode]
      exact .known member
    · refine ⟨inv.heap, inv.names, inv.fids, inv.few, inv.empty, ?_⟩
      intro e logged
      rcases List.mem_append.mp logged with before | last
      · exact inv.log e before
      · obtain rfl := List.mem_singleton.mp last
        exact inode
  | none =>
    have new : path ∉ (fileMap w.1.fs).names := named_iff.mp hit
    simp only [hit] at performed
    split at performed
    · cases performed
      refine ⟨.full new ?_, ?_, fun _ => rfl⟩
      · rename_i full
        have length : (fileMap w.1.fs).names.length = w.1.fs.tmpFiles.length := List.length_map _
        rw [length, files_length inv]
        exact full
      · have nothing : w.2 ++ lookup (.find self path) (.inode none) = w.2 := List.append_nil _
        rw [nothing]
        exact inv
    · rename_i room
      obtain ⟨⟨res, s'⟩, created, rest⟩ := bind_eq_ok.mp performed
      cases rest
      obtain ⟨effect, kept⟩ := find_new inv new (Nat.lt_of_not_le room) created
      exact ⟨effect, ⟨kept.heap, kept.names, kept.fids, kept.few, kept.empty, kept.log⟩, nofun⟩

end Lookup

section Requests

variable {w : World × List (CString × Nat)} {s s' : FileSystem} {f : TmpFile} {vbuff : Nat} {size type : Word}
  {data : List Byte} {g : TmpFile}

theorem submit_read (inv : Inv w) (member : f ∈ w.1.fs.tmpFiles) :
    submit w.1.fs vfsAsyncTypeRead f.inode vbuff size = .ok (w.1.fs.tmpReadFile vbuff size f) := by
  unfold submit FileSystem.tmpSubmit
  rw [Option.bind_some, find_inode inv member]
  rfl

theorem submit_write (inv : Inv w) (member : f ∈ w.1.fs.tmpFiles) (other : type ≠ vfsAsyncTypeRead) :
    submit w.1.fs type f.inode vbuff size = (w.1.fs.tmpWriteFile vbuff size f).map fun fs => (fs, size) := by
  unfold submit FileSystem.tmpSubmit
  rw [Option.bind_some, find_inode inv member]
  simp only [other, if_false]
  cases w.1.fs.tmpWriteFile vbuff size f <;> rfl

theorem submit_file {inode : Nat} {out : FileSystem × Word} (served : submit s type inode vbuff size = .ok out) :
    ∃ f ∈ s.tmpFiles, f.inode = inode := by
  unfold submit FileSystem.tmpSubmit at served
  rw [Option.bind_some] at served
  cases found : s.tmpFiles.find? (fun f => f.inode = inode) with
  | none =>
    rw [found] at served
    cases served
  | some f => exact ⟨f, List.mem_of_find?_eq_some found, by simpa using List.find?_some found⟩

section

variable (inv : Inv w) (member : f ∈ w.1.fs.tmpFiles)
include inv member

theorem named_inode : (fileMap w.1.fs).inode f.name = some f.inode := by
  have found : named w.1.fs f.name = some f := find_of_nodup inv.names member
  simp [fileMap, found]

theorem named_content : (fileMap w.1.fs).content f.name = fileBytes w.1.fs f := by
  have found : named w.1.fs f.name = some f := find_of_nodup inv.names member
  simp [fileMap, found]

theorem fileBytes_length : (fileBytes w.1.fs f).length = f.size.toNat := by
  unfold fileBytes
  cases block : w.1.fs.allocFid f.fid.toNat with
  | none =>
    rw [inv.empty f member block]
    rfl
  | some p => exact HeapBytes.read_length ..

end

theorem tmpExtend_eq {live : List (Nat × Word)} (inv : HeapInv ⟨s.kernel.heap, dataBlock s f ++ live⟩) :
    ∃ heap, HeapInv ⟨heap, live⟩ ∧ ∀ size, s.tmpExtend size (s.allocFid f.fid.toNat) = kmalloc heap size := by
  unfold dataBlock at inv
  cases block : s.allocFid f.fid.toNat with
  | none =>
    rw [block] at inv
    exact ⟨_, inv, fun size => rfl⟩
  | some p =>
    rw [block] at inv
    obtain ⟨heap, freed, kept⟩ := inv.free
    refine ⟨heap, kept, fun size => ?_⟩
    simp only [FileSystem.tmpExtend, freed]
    rfl

def resize (f : TmpFile) (size : Word) (g : TmpFile) : TmpFile :=
  if g.inode = f.inode then { g with size := size } else g

theorem resize_keeps (f g : TmpFile) (size : Word) :
    (resize f size g).name = g.name ∧ (resize f size g).inode = g.inode ∧ (resize f size g).fid = g.fid := by
  unfold resize
  split <;> exact ⟨rfl, rfl, rfl⟩

theorem resize_self (f : TmpFile) (size : Word) : resize f size f = { f with size := size } := if_pos rfl

theorem resize_other (inv : Inv w) (member : f ∈ w.1.fs.tmpFiles) (there : g ∈ w.1.fs.tmpFiles)
    (different : g ≠ f) : resize f size g = g :=
  if_neg fun same => different (inode_injective inv there member same)

structure Extended (s : FileSystem) (f : TmpFile) (size : Word) (data : List Byte) (new : Nat) (s' : FileSystem) :
    Prop where
  files : s'.tmpFiles = s.tmpFiles.map (resize f size)
  bytes : s'.bytes = s.bytes.write new data
  fids : s'.allocFid = update s.allocFid f.fid.toNat (some new)
  next : s'.tmpFid = s.tmpFid

theorem Extended.fid_other {new : Nat} (extended : Extended w.1.fs f size data new s') (inv : Inv w)
    (member : f ∈ w.1.fs.tmpFiles) (there : g ∈ w.1.fs.tmpFiles) (different : g ≠ f) :
    s'.allocFid g.fid.toNat = w.1.fs.allocFid g.fid.toNat := by
  rw [extended.fids, update_of_ne fun same => different (fid_injective inv there member same)]

section Extension

variable {others : List TmpFile} (inv : Inv w) (files : w.1.fs.tmpFiles.Perm (f :: others)) {new : Nat}
include inv files

theorem mem_others {g : TmpFile} : g ∈ others ↔ g ∈ w.1.fs.tmpFiles ∧ g ≠ f := by
  have distinct : (f :: others).Nodup := files.nodup_iff.mp (inv.names.of_map _)
  have absent := (List.nodup_cons.mp distinct).1
  rw [files.mem_iff, List.mem_cons]
  constructor
  · intro there
    exact ⟨Or.inr there, fun same => absent (same ▸ there)⟩
  · rintro ⟨same | there, different⟩
    · exact absurd same different
    · exact there

theorem extend_heap : HeapInv ⟨w.1.fs.kernel.heap, dataBlock w.1.fs f ++
    (ownBlocks f ++ others.flatMap (fileBlocks w.1.fs) ++ w.1.buffers)⟩ := by
  apply inv.heap.perm
  have perm := (blocks_perm files).append_right w.1.buffers
  simpa only [fileBlocks, List.append_assoc] using perm

theorem extended (longer : size.toNat > f.size.toNat) (written : w.1.fs.tmpWriteFile vbuff size f = .ok s') :
    ∃ new, HeapInv ⟨s'.kernel.heap, (new, size) :: (ownBlocks f ++ others.flatMap (fileBlocks w.1.fs) ++ w.1.buffers)⟩ ∧
      Extended w.1.fs f size (w.1.fs.bytes.read vbuff size.toNat) new s' := by
  obtain ⟨heap, kept, same⟩ := tmpExtend_eq (extend_heap inv files)
  unfold FileSystem.tmpWriteFile at written
  simp only [longer, if_true, same] at written
  obtain ⟨⟨new, heap'⟩, allocated, done⟩ := bind_eq_ok.mp written
  cases done
  exact ⟨new, kept.kmalloc allocated, rfl, rfl, rfl, rfl⟩

theorem Extended.map (extended : Extended w.1.fs f size data new s')
    (heap : HeapInv ⟨s'.kernel.heap, (new, size) :: (ownBlocks f ++ others.flatMap (fileBlocks w.1.fs) ++ w.1.buffers)⟩)
    (length : data.length = size.toNat) : fileMap s' = (fileMap w.1.fs).store f.name data := by
  have member : f ∈ w.1.fs.tmpFiles := files.mem_iff.mpr List.mem_cons_self
  apply fileMap_update inv.names member extended.files
  · exact fun g => ⟨(resize_keeps f g size).1, (resize_keeps f g size).2.1⟩
  · rw [resize_self, fileBytes, extended.fids, update_self, extended.bytes]
    simp only [← length]
    exact read_write_self w.1.fs.bytes new data
  · intro g there different
    rw [resize_other inv member there different]
    apply fileBytes_write (extended.fid_other inv member there different) extended.bytes
    intro p block
    rw [length]
    apply heap.new_apart (b := (p, g.size))
    apply List.mem_append_left _ (List.mem_append_right _ _)
    rw [List.mem_flatMap]
    exact ⟨g, (mem_others inv files).mpr ⟨there, different⟩, List.mem_append_left _ (mem_dataBlock.mpr ⟨block, rfl⟩)⟩

theorem Extended.keeps (extended : Extended w.1.fs f size data new s')
    (heap : HeapInv ⟨s'.kernel.heap, (new, size) :: (ownBlocks f ++ others.flatMap (fileBlocks w.1.fs) ++ w.1.buffers)⟩)
    (length : data.length = size.toNat) : Inv (⟨s', w.1.buffers⟩, w.2) := by
  have member : f ∈ w.1.fs.tmpFiles := files.mem_iff.mpr List.mem_cons_self
  have map := extended.map inv files heap length
  have same : ∀ g ∈ others, resize f size g = g ∧ fileBlocks s' g = fileBlocks w.1.fs g := by
    intro g other
    obtain ⟨there, different⟩ := (mem_others inv files).mp other
    refine ⟨resize_other inv member there different, ?_⟩
    rw [fileBlocks, fileBlocks, dataBlock, dataBlock, extended.fid_other inv member there different]
  have files' : s'.tmpFiles.Perm (resize f size f :: others) := by
    have perm := files.map (resize f size)
    rwa [← extended.files, List.map_cons, List.map_congr_left fun g other => (same g other).1, List.map_id'] at perm
  have blocks' : (blocks s').Perm ((new, size) :: (ownBlocks f ++ others.flatMap (fileBlocks w.1.fs))) := by
    have mine : fileBlocks s' (resize f size f) = (new, size) :: ownBlocks f := by
      simp [fileBlocks, dataBlock, resize_self, extended.fids, ownBlocks]
    have perm := blocks_perm files'
    rwa [mine, List.flatMap_congr fun g other => (same g other).2] at perm
  constructor
  · exact heap.perm (blocks'.append_right w.1.buffers).symm
  · have names := congrArg FileMap.names map
    simp only [fileMap] at names
    rw [names]
    exact inv.names
  · simp only [extended.files, extended.next, List.map_map, ← inv.fids]
    apply List.map_congr_left
    intro g _
    simp only [Function.comp, (resize_keeps f g size).2.2]
  · simp only [extended.next]
    exact inv.few
  · intro g there none
    rcases List.mem_cons.mp (files'.mem_iff.mp there) with rfl | other
    · rw [(resize_keeps f f size).2.2, extended.fids, update_self] at none
      cases none
    · obtain ⟨before, different⟩ := (mem_others inv files).mp other
      exact inv.empty g before (extended.fid_other inv member before different ▸ none)
  · intro e logged
    rw [map]
    exact inv.log e logged

end Extension

theorem Inv.store (inv : Inv w) (ptr : Nat) (data : List Byte) :
    Inv (⟨{ w.1.fs with bytes := w.1.fs.bytes.write ptr data }, w.1.buffers⟩, w.2) :=
  ⟨inv.heap, inv.names, inv.fids, inv.few, inv.empty, inv.log⟩

theorem fileMap_fill (inv : Inv w) {ptr : Nat} (buffer : w.1.HasBuffer ptr data.length) :
    fileMap { w.1.fs with bytes := w.1.fs.bytes.write ptr data } = fileMap w.1.fs := by
  refine fileMap_same (s := w.1.fs) rfl fun g there => ?_
  refine fileBytes_write (s := w.1.fs) rfl rfl fun p block => ?_
  exact buffer_apart inv there block buffer

theorem World.HasBuffer.mono {w : World} {n m : Nat} (buffer : w.HasBuffer vbuff n) (less : m ≤ n) : w.HasBuffer vbuff m := by
  obtain ⟨b, held, place, room⟩ := buffer
  exact ⟨b, held, place, less.trans room⟩

section

variable (inv : Inv w) (member : f ∈ w.1.fs.tmpFiles)
include inv member

theorem overwrite_acts (shorter : ¬ size.toNat > f.size.toNat)
    (written : w.1.fs.tmpWriteFile vbuff size f = .ok s') : fileMap s' = (fileMap w.1.fs).store f.name
        (w.1.fs.bytes.read vbuff size.toNat ++ ((fileMap w.1.fs).content f.name).drop size.toNat) ∧
      Inv (⟨s', w.1.buffers⟩, w.2) := by
  unfold FileSystem.tmpWriteFile at written
  simp only [shorter, if_false] at written
  rw [named_content inv member]
  cases block : w.1.fs.allocFid f.fid.toNat with
  | none =>
    rw [block] at written
    cases written
    -- the file is empty, and so is what is written
    have zero : size.toNat = 0 := by
      rw [inv.empty f member block] at shorter
      exact Nat.le_zero.mp (Nat.le_of_not_gt shorter)
    refine ⟨?_, inv⟩
    rw [zero, List.drop_zero, ← named_content inv member]
    have nothing : w.1.fs.bytes.read vbuff 0 = [] := rfl
    rw [nothing, List.nil_append, FileMap.store, update_eq_self]
  | some p =>
    rw [block] at written
    cases written
    refine ⟨?_, inv.store p _⟩
    have length := HeapBytes.read_length w.1.fs.bytes vbuff size.toNat
    refine fileMap_update (s := w.1.fs) (u := id) inv.names member (List.map_id _).symm (fun g => ⟨rfl, rfl⟩) ?_ ?_
    · simp only [id_eq, fileBytes, block]
      rw [read_write_front (by omega), length]
    · intro g there different
      rw [id_eq]
      refine fileBytes_write (s := w.1.fs) rfl rfl fun q block' => ?_
      have held : (p, f.size) ∈ fileBlocks w.1.fs f := List.mem_append_left _ (mem_dataBlock.mpr ⟨block, rfl⟩)
      have held' : (q, g.size) ∈ fileBlocks w.1.fs g := List.mem_append_left _ (mem_dataBlock.mpr ⟨block', rfl⟩)
      have apart := HeapInv.bytes_apart (b := (q, g.size)) (c := (p, f.size)) inv.heap
        (List.mem_append_left _ (mem_blocks there block')) (List.mem_append_left _ (mem_blocks member block))
        fun same => different (block_injective inv there member held' held same)
      simp only at apart
      omega

theorem write_acts (written : w.1.fs.tmpWriteFile vbuff size f = .ok s') : fileMap s' = (fileMap w.1.fs).store f.name
        (w.1.fs.bytes.read vbuff size.toNat ++ ((fileMap w.1.fs).content f.name).drop size.toNat) ∧
      Inv (⟨s', w.1.buffers⟩, w.2) := by
  by_cases longer : size.toNat > f.size.toNat
  · obtain ⟨before, after, split⟩ := List.append_of_mem member
    have files : w.1.fs.tmpFiles.Perm (f :: (before ++ after)) := split ▸ List.perm_middle
    obtain ⟨new, heap, result⟩ := extended inv files longer written
    have length := HeapBytes.read_length w.1.fs.bytes vbuff size.toNat
    have nothing : ((fileMap w.1.fs).content f.name).drop size.toNat = [] := by
      rw [List.drop_eq_nil_iff, named_content inv member, fileBytes_length inv member]
      exact longer.le
    rw [nothing, List.append_nil]
    exact ⟨result.map inv files heap length, result.keeps inv files heap length⟩
  · exact overwrite_acts inv member longer written

theorem read_acts (buffer : w.1.HasBuffer vbuff size.toNat) {res : Word}
    (read : w.1.fs.tmpReadFile vbuff size f = (s', res)) :
    s'.bytes.read vbuff res.toNat = ((fileMap w.1.fs).content f.name).take size.toNat ∧
      fileMap s' = fileMap w.1.fs ∧ Inv (⟨s', w.1.buffers⟩, w.2) := by
  have small : min size.toNat f.size.toNat < 2 ^ 16 := (Nat.min_le_left _ _).trans_lt size.isLt
  have count : (BitVec.ofNat 16 (min size.toNat f.size.toNat)).toNat = min size.toNat f.size.toNat := word_ofNat_toNat small
  unfold FileSystem.tmpReadFile at read
  rw [named_content inv member, fileBytes]
  cases block : w.1.fs.allocFid f.fid.toNat with
  | none =>
    rw [block] at read
    obtain ⟨rfl, rfl⟩ := Prod.mk.inj read
    refine ⟨?_, rfl, inv⟩
    rw [count, inv.empty f member block]
    simp [HeapBytes.read]
  | some p =>
    rw [block] at read
    obtain ⟨rfl, rfl⟩ := Prod.mk.inj read
    have length := HeapBytes.read_length w.1.fs.bytes p (min size.toNat f.size.toNat)
    refine ⟨?_, ?_, inv.store vbuff _⟩
    · rw [count]
      have self := read_write_self w.1.fs.bytes vbuff (w.1.fs.bytes.read p (min size.toNat f.size.toNat))
      rw [length] at self
      rw [self, read_take w.1.fs.bytes (Nat.min_le_right _ _), List.take_eq_take_iff, HeapBytes.read_length]
      omega
    · apply fileMap_fill inv
      rw [length]
      exact buffer.mono (Nat.min_le_left _ _)

theorem submit_error {stop : Stop}
    (failed : submit w.1.fs type f.inode vbuff size = .error stop) : stop = .panic "kmalloc: out of memory" := by
  by_cases reads : type = vfsAsyncTypeRead
  · subst reads
    rw [submit_read inv member] at failed
    cases failed
  · rw [submit_write inv member reads] at failed
    obtain ⟨before, after, split⟩ := List.append_of_mem member
    have files : w.1.fs.tmpFiles.Perm (f :: (before ++ after)) := split ▸ List.perm_middle
    obtain ⟨heap, -, same⟩ := tmpExtend_eq (extend_heap inv files)
    unfold FileSystem.tmpWriteFile at failed
    simp only [same] at failed
    split at failed
    · cases allocated : kmalloc heap size with
      | error e =>
        rw [allocated] at failed
        cases failed
        exact kmalloc_stops allocated
      | ok out =>
        rw [allocated] at failed
        cases failed
    · split at failed
      · cases failed
      · cases failed

end

end Requests

section Steps

variable {w : World × List (CString × Nat)} {w' : World} {answer : Answer}

theorem Inv.unlogged {log : List (CString × Nat)} (inv : Inv (w', log)) : Inv (w', log ++ []) := by
  rwa [List.append_nil]

theorem perform_acts (inv : Inv w) {action : Action} (performed : perform w.1 action = some (answer, w')) :
    (fileMap w.1.fs).Effect w.1.fs.bytes action answer (fileMap w'.fs) ∧ Inv (w', w.2 ++ lookup action answer) := by
  cases action with
  | find self path =>
    obtain ⟨effect, kept, -⟩ := find_acts inv performed
    exact ⟨effect, kept⟩
  | write inode vbuff size =>
    simp only [perform, Option.ite_none_right_eq_some] at performed
    obtain ⟨buffer, performed⟩ := performed
    obtain ⟨⟨fs, res⟩, served, done⟩ := Option.map_eq_some_iff.mp performed
    cases done
    rw [toOption_eq_some] at served
    obtain ⟨f, member, rfl⟩ := submit_file served
    rw [submit_write inv member (by decide)] at served
    obtain ⟨fs', written, same⟩ := map_eq_ok.mp served
    cases same
    obtain ⟨map, kept⟩ := write_acts inv member written
    rw [map]
    exact ⟨.write (named_inode inv member), kept.unlogged⟩
  | read inode vbuff size =>
    simp only [perform, Option.ite_none_right_eq_some] at performed
    obtain ⟨buffer, performed⟩ := performed
    obtain ⟨⟨fs, res⟩, served, done⟩ := Option.map_eq_some_iff.mp performed
    cases done
    rw [toOption_eq_some] at served
    obtain ⟨f, member, rfl⟩ := submit_file served
    rw [submit_read inv member, Except.ok.injEq] at served
    obtain ⟨data, map, kept⟩ := read_acts inv member buffer served
    rw [map, data]
    exact ⟨.read (named_inode inv member), kept.unlogged⟩
  | kmalloc size =>
    obtain ⟨⟨ptr, heap⟩, allocated, done⟩ := Option.map_eq_some_iff.mp performed
    cases done
    rw [toOption_eq_some] at allocated
    have grown := (inv.heap.kmalloc allocated).perm List.perm_middle.symm
    have kept : Inv (⟨w.1.fs.setHeap heap, (ptr, size) :: w.1.buffers⟩, w.2) :=
      ⟨grown, inv.names, inv.fids, inv.few, inv.empty, inv.log⟩
    exact ⟨.kmalloc, kept.unlogged⟩
  | kfree ptr =>
    simp only [perform, Option.ite_none_right_eq_some] at performed
    obtain ⟨held, performed⟩ := performed
    obtain ⟨heap, freed, done⟩ := Option.map_eq_some_iff.mp performed
    cases done
    rw [toOption_eq_some] at freed
    have distinct := inv.heap.distinct
    rw [List.map_append] at distinct
    have mine : (blocks w.1.fs).filter (fun b => b.1 ≠ ptr) = blocks w.1.fs := by
      rw [List.filter_eq_self]
      intro b member
      rw [decide_eq_true_eq]
      exact (List.nodup_append.mp distinct).2.2 _ (List.mem_map_of_mem member) _ held
    have less := inv.heap.kfree (by rw [List.map_append]; exact List.mem_append_right _ held) freed
    rw [List.filter_append, mine] at less
    have kept : Inv (⟨w.1.fs.setHeap heap, w.1.buffers.filter fun b => b.1 ≠ ptr⟩, w.2) :=
      ⟨less, inv.names, inv.fids, inv.few, inv.empty, inv.log⟩
    exact ⟨.kfree, kept.unlogged⟩
  | fill ptr data =>
    simp only [perform, Option.ite_none_right_eq_some] at performed
    obtain ⟨buffer, performed⟩ := performed
    cases performed
    rw [fileMap_fill inv buffer]
    exact ⟨.fill, (inv.store ptr data).unlogged⟩

theorem Inv.refines (inv : Inv w) : Refines w where
  agree a memberA b memberB := by
    have foundA := inv.log a memberA
    have foundB := inv.log b memberB
    constructor
    · intro same
      rw [same, foundB] at foundA
      exact (Option.some.inj foundA).symm
    · intro same
      obtain ⟨f, thereF, nameF, inodeF⟩ := inode_mem foundA
      obtain ⟨g, thereG, nameG, inodeG⟩ := inode_mem foundB
      have equal : f = g := inode_injective inv thereF thereG (by rw [inodeF, inodeG, same])
      rw [← nameF, ← nameG, equal]
  acts _ _ _ performed := (perform_acts inv performed).1
  refuses _ _ _ performed := (find_acts inv performed).2.2 rfl
  serves e logged type vbuff size stop failed := by
    obtain ⟨f, there, -, inode⟩ := inode_mem (inv.log e logged)
    rw [← inode] at failed
    exact submit_error inv there failed

theorem step_keeps (w : World × List (CString × Nat)) (action : Action) (w' : World × List (CString × Nat)) (inv : Inv w)
    (taken : step w action = some w') : Inv w' := by
  obtain ⟨⟨answer, next⟩, performed, rfl⟩ := Option.map_eq_some_iff.mp taken
  exact (perform_acts inv performed).2

theorem start_inv (phys : PhysMem) : Inv (⟨bootFileSystem phys, []⟩, []) where
  heap := heapInv_init
  names := List.nodup_nil
  fids := rfl
  few := Nat.zero_le _
  empty _ member := absurd member List.not_mem_nil
  log _ member := absurd member List.not_mem_nil

end Steps

theorem tmp_refines_map (phys : PhysMem) (actions : List Action) :
    Throughout step Refines (⟨bootFileSystem phys, []⟩, []) actions := by
  apply throughout_mono fun w (inv : Inv w) => inv.refines
  exact throughout_invariant step_keeps (start_inv phys)

-- a write of one byte over three, and a read of more than the file has
example : (run step (⟨bootFileSystem fun _ _ => 0, []⟩, [])
      [.find 1 ['a'], .kmalloc 5, .fill 0xA020 [1, 2, 3], .write 0xA000 0xA020 3, .fill 0xA020 [7, 0, 0],
        .write 0xA000 0xA020 1, .read 0xA000 0xA020 5]).map (fun w => w.1.fs.bytes.read 0xA020 3) =
    some [7, 2, 3] := by
  decide +kernel

end PiOS.Proof.TmpFiles
