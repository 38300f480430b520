import PiOS.Proof.DirTree

namespace PiOS.Proof.DirTree
open Kernel Heap Transition

structure Call where
  bytes : HeapBytes
  heap : HeapMemory
  file : TreeFile
  nonempty : file.name ≠ []
  relative : file.name.head? ≠ some '/'
  zeros : nul ∉ file.name

def addAll : DirNode → List Call → Except Stop DirNode
  | root, [] => .ok root
  | root, c :: calls => do
    let (_, root) ← dirTreeAddPath c.bytes c.heap root c.file
    addAll root calls

def emptyTree (rootInode : Nat) : DirNode := .node ['/'] [] [] (some rootInode)

section Files

variable {bytes : HeapBytes} {file : TreeFile} {q path : CString} {ds es : List CString}
  {news : List (CString × Nat)} {files : List TreeFile} {calls : List Call} {n m : DirNode}

def filesAt (es : List CString) (n : DirNode) : List (CString × Nat) := (walk es n).elim [] DirNode.files

theorem Added.filesAt (added : Added bytes file q ds news n m) (chain : Chain q es) :
    filesAt es m = filesAt es n ++ if es = ds then newFiles file else [] := by
  unfold DirTree.filesAt
  cases before : walk es n with
  | some k =>
    obtain ⟨l, after, grown⟩ := added.kept es chain k before
    rw [after]
    exact grown.files
  | none =>
    by_cases isPrefix : es <+: ds
    · obtain ⟨b, -, -, l, after, grown⟩ := added.made es chain before isPrefix
      rw [after]
      exact grown.files
    · have other : es ≠ ds := fun same => isPrefix (same ▸ List.prefix_rfl)
      rw [added.absent es chain before isPrefix]
      simp [other]

def listed (files : List TreeFile) (es : List CString) : List (CString × Nat) :=
  files.flatMap fun f => if es = dirs f.name then newFiles f else []

structure Holds (files : List TreeFile) (n : DirNode) : Prop where
  wellNamed : WellNamed [] n
  lists : ∀ es, Chain [] es → filesAt es n = listed files es

theorem holds_empty (rootInode : Nat) : Holds [] (emptyTree rootInode) := by
  refine ⟨wellNamed_bare rfl, ?_⟩
  intro es _
  cases es with
  | nil => rfl
  | cons e es => rfl

theorem Holds.add {out : HeapMemory × DirNode} {heap : HeapMemory} (holds : Holds files n) (zeros : nul ∉ file.name)
    (nonempty : file.name ≠ []) (done : dirTreeAddPath bytes heap n file = .ok out) :
    Holds (files ++ [file]) out.2 := by
  have added := dirTreeAddPath_added zeros nonempty holds.wellNamed done
  refine ⟨added.wellNamed, ?_⟩
  intro es chain
  rw [added.filesAt chain, holds.lists es chain, listed, listed, List.flatMap_append, List.flatMap_singleton]

theorem addAll_holds (holds : Holds files n) (short : ∀ c ∈ calls, ∀ d ∈ dirs c.file.name, d.length ≤ 30) :
    Ensures (addAll n calls) (Holds (files ++ calls.map Call.file)) (· = .panic "kmalloc: out of memory") := by
  induction calls generalizing n files with
  | nil =>
    rw [List.map_nil, List.append_nil]
    exact holds
  | cons c calls ih =>
    obtain ⟨shortest, short⟩ := List.forall_mem_cons.mp short
    unfold addAll
    cases added : dirTreeAddPath c.bytes c.heap n c.file with
    | error stop =>
      have heap := dirTreeAddPath_heap (n := n) c.bytes c.heap c.nonempty fun d new =>
        Nat.lt_of_le_of_lt (Nat.succ_le_succ (shortest d ((missing_sublist _ _).subset new))) (by decide)
      rw [added] at heap
      exact kmallocAll_stops heap.symm
    | ok out =>
      have rest := ih (holds.add c.zeros c.nonempty added) short
      rwa [List.append_assoc] at rest

theorem mem_listed {entry : CString × Nat} (member : entry ∈ listed files es) :
    ∃ f ∈ files, entry = (f.name, f.inode) ∧ f.name.getLast? ≠ some '/' := by
  obtain ⟨f, there, member⟩ := List.mem_flatMap.mp member
  split at member
  · unfold newFiles at member
    split at member
    case isTrue => cases member
    case isFalse plain => exact ⟨f, there, List.mem_singleton.mp member, plain⟩
  · cases member

theorem Holds.getFile (holds : Holds files n) (nonempty : path ≠ []) (plain : path.getLast? ≠ some '/') :
    ∃ es, (path.head? ≠ some '/' → es = dirs path) ∧
      dirTreeGetFile n path path = ((listed files es).find? fun entry => entry.1 = path).map Prod.snd := by
  have here : ∀ k, foundAt path k = (k.files.find? fun entry => entry.1 = path).map Prod.snd :=
    fun k => if_neg fun both => plain both.1
  by_cases rooted : path.head? = some '/'
  · refine ⟨[], fun relative => absurd rooted relative, ?_⟩
    rw [dirTreeGetFile_rooted rooted, here, ← holds.lists [] trivial]
    rfl
  · refine ⟨dirs path, fun _ => rfl, ?_⟩
    rw [dirTreeGetFile_eq rooted nonempty, ← holds.lists _ (chain_dirs path), filesAt]
    cases walk (dirs path) n with
    | none => rfl
    | some k => exact here k

theorem Holds.getFile_none (holds : Holds files n) (nonempty : path ≠ []) (plain : path.getLast? ≠ some '/')
    (other : ∀ f ∈ files, f.name ≠ path) : dirTreeGetFile n path path = none := by
  obtain ⟨es, -, found⟩ := holds.getFile nonempty plain
  rw [found, Option.map_eq_none_iff, List.find?_eq_none]
  intro entry member same
  obtain ⟨f, there, rfl, -⟩ := mem_listed member
  exact other f there (of_decide_eq_true same)

theorem Holds.getFile_some (holds : Holds files n) (distinct : (files.map TreeFile.name).Nodup) (member : file ∈ files)
    (nonempty : file.name ≠ []) (relative : file.name.head? ≠ some '/') (plain : file.name.getLast? ≠ some '/') :
    dirTreeGetFile n file.name file.name = some file.inode := by
  obtain ⟨es, place, found⟩ := holds.getFile nonempty plain
  have there : (file.name, file.inode) ∈ listed files es := by
    refine List.mem_flatMap.mpr ⟨file, member, ?_⟩
    simp [place relative, newFiles, plain]
  rw [found]
  cases first : (listed files es).find? fun entry => entry.1 = file.name with
  | none => simpa using List.find?_eq_none.mp first _ there
  | some entry =>
    -- the first entry with the name was brought by the file, for no other has that name
    obtain ⟨f, member', rfl, -⟩ := mem_listed (List.mem_of_find?_eq_some first)
    have same : f.name = file.name := by simpa using List.find?_some first
    rw [List.inj_on_of_nodup_map distinct member' member same]
    rfl

end Files

theorem getFile_after_addAll (rootInode : Nat) (calls : List Call)
    (distinct : (calls.map fun c => c.file.name).Nodup)
    (short : ∀ c ∈ calls, ∀ d ∈ dirs c.file.name, d.length ≤ 30) :
    Ensures (addAll (emptyTree rootInode) calls)
      (fun root =>
        (∀ c ∈ calls, c.file.name.getLast? ≠ some '/' →
          dirTreeGetFile root c.file.name c.file.name = some c.file.inode) ∧
        ∀ path, path ≠ [] → path.getLast? ≠ some '/' → (∀ c ∈ calls, c.file.name ≠ path) →
          dirTreeGetFile root path path = none)
      (· = .panic "kmalloc: out of memory") := by
  refine (addAll_holds (holds_empty rootInode) short).mono ?_ fun _ stop => stop
  intro root holds
  rw [List.nil_append] at holds
  constructor
  · intro c member plain
    refine holds.getFile_some ?_ (List.mem_map_of_mem member) c.nonempty c.relative plain
    rwa [List.map_map]
  · intro path nonempty plain other
    refine holds.getFile_none nonempty plain ?_
    intro f member
    obtain ⟨c, there, rfl⟩ := List.mem_map.mp member
    exact other c there

def fileFirst : List Call :=
  [⟨fun _ => 1, initMalloc, ⟨2, ['d', '/', 'f']⟩, by decide, by decide, by decide⟩,
    ⟨fun _ => 1, initMalloc, ⟨3, ['d', '/']⟩, by decide, by decide, by decide⟩]

theorem getFile_after_fileFirst : (addAll (emptyTree 1) fileFirst).isOk = true ∧
    Ensures (addAll (emptyTree 1) fileFirst)
      (fun root => dirTreeGetFile root ['d', '/', 'f'] ['d', '/', 'f'] = some 2 ∧
        dirTreeGetFile root ['d', '/', 'g'] ['d', '/', 'g'] = none)
      (· = .panic "kmalloc: out of memory") := by
  refine ⟨by decide +kernel, ?_⟩
  refine (getFile_after_addAll 1 fileFirst (by decide) (by decide)).mono ?_ fun _ stop => stop
  intro root found
  exact ⟨found.1 _ List.mem_cons_self (by decide), found.2 _ (by decide) (by decide) (by decide)⟩

end PiOS.Proof.DirTree
