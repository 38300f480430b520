import PiOS.Proof.DirHistory
import PiOS.Proof.HeapBytes

namespace PiOS.Proof.DirTree
open Kernel Heap Transition

structure History where
  root : DirNode
  files : List TreeFile
  overrun : Bool

def History.add (h : History) (c : Call) : Option History :=
  match dirTreeAddPath c.bytes c.heap h.root c.file with
  | .ok (_, root) => some ⟨root, h.files ++ [c.file], h.overrun⟩
  | .error .outOfBounds => some { h with overrun := true }
  | .error _ => none

def inodeOf (files : List TreeFile) (d : CString) : Option Nat :=
  (files.reverse.find? fun f => f.name = d).map TreeFile.inode

inductive WellFormed (inodes : CString → Option Nat) : CString → DirNode → Prop
  | node {q : CString} {n : DirNode} (named : ∀ val ∈ n.subdirs, Next q val.name)
      (fits : ∀ val ∈ n.subdirs, val.name.length < dirNameSize)
      (inode : ∀ val ∈ n.subdirs, val.inode = inodes val.name)
      (below : ∀ val ∈ n.subdirs, WellFormed inodes val.name val) : WellFormed inodes q n

structure Sound (rootInode : Nat) (h : History) : Prop where
  fits : h.overrun = false
  root : h.root.name = ['/'] ∧ h.root.inode = some rootInode
  nodes : WellFormed (inodeOf h.files) [] h.root
  getFile : ∀ path, path.getLast? = some '/' →
    dirTreeGetFile h.root path path = if path = ['/'] then some rootInode else inodeOf h.files path

/-- The memory `kmalloc` gives for the node of a directory has a zero behind the name, and a null pointer at
`inode` unless the call stores one there. -/
def Blank (bytes : HeapBytes) (path : CString) (b : CString × Nat) : Prop :=
  bytes (b.2 + b.1.length) = 0 ∧ (b.1 = path ∨ wordAt (bytes.read (b.2 + dirInodeOffset) 2) 0 = 0)

structure Prepared (h : History) (c : Call) : Prop where
  short : ∀ d ∈ missing (dirs c.file.name) h.root, d.length + 1 < dirNameSize
  blank : ∀ b ∈ newBlocks c.heap (missing (dirs c.file.name) h.root), Blank c.bytes c.file.name b

section Nodes

variable {bytes : HeapBytes} {file : TreeFile} {files : List TreeFile} {q d path : CString} {es ds : List CString}
  {n m k : DirNode} {b : CString × Nat}

theorem byteChar_nul {b : Byte} : byteChar b = nul ↔ b = 0 := by
  constructor
  · intro same
    have small : b.toNat < 256 := b.isLt
    have valid : b.toNat.isValidChar := Or.inl (by omega)
    have value : (byteChar b).toNat = b.toNat := by
      rw [byteChar, Char.ofNat, dif_pos valid]
      rfl
    rw [same] at value
    exact BitVec.eq_of_toNat_eq value.symm
  · rintro rfl
    rfl

theorem dirNodeName_eq {stale : CString} {x : Char} (zeros : nul ∉ path) (isPrefix : d <+: path)
    (room : d.length + 1 < stale.length) (here : stale[d.length]? = some x) :
    dirNodeName stale path d.length = d ++ if x = nul then [] else [x] := by
  have taken : path.take d.length = d := (List.prefix_iff_eq_take.mp isPrefix).symm
  have clean : ∀ c ∈ d, (c ≠ nul) := fun c member same => zeros (same ▸ isPrefix.subset member)
  obtain ⟨bound, rfl⟩ := List.getElem?_eq_some_iff.mp here
  have behind := List.drop_eq_getElem_cons bound
  rw [List.drop_eq_getElem_cons room] at behind
  rw [dirNodeName, taken, List.set_append_right _ _ (by omega), List.takeWhile_append_of_pos (by simpa using clean),
    behind, Nat.add_sub_cancel_left, List.set_cons_succ, List.set_cons_zero]
  by_cases zero : stale[d.length] = nul
  · simp [zero]
  · simp [zero]

theorem nodeAt_name (bytes : HeapBytes) (zeros : nul ∉ path) (isPrefix : b.1 <+: path)
    (room : b.1.length + 1 < dirNameSize) : (nodeAt bytes path b).name =
      b.1 ++ if bytes (b.2 + b.1.length) = 0 then [] else [byteChar (bytes (b.2 + b.1.length))] := by
  have length : ((bytes.read b.2 dirNameSize).map byteChar).length = dirNameSize := by
    rw [List.length_map, HeapBytes.read_length]
  have here : ((bytes.read b.2 dirNameSize).map byteChar)[b.1.length]? = some (byteChar (bytes (b.2 + b.1.length))) := by
    simp [HeapBytes.read, Nat.lt_of_succ_lt room]
  have name := dirNodeName_eq zeros isPrefix (length ▸ room) here
  simp only [byteChar_nul] at name
  exact name

theorem newBlocks_sublist (heap : HeapMemory) (ds : List CString) : List.Sublist ((newBlocks heap ds).map Prod.fst) ds := by
  induction ds generalizing heap with
  | nil => exact List.Sublist.refl _
  | cons d ds ih =>
    unfold newBlocks
    cases kmalloc heap (BitVec.ofNat 16 sizeofDirTNode) with
    | error e => exact List.nil_sublist _
    | ok out =>
      simp only
      cases listAppend out.2 with
      | error e => exact List.Sublist.cons_cons d (List.nil_sublist _)
      | ok heap' => exact List.Sublist.cons_cons d (ih heap')

theorem Chain.longest (chain : Chain q ds) : ∀ d ∈ ds, q.length < d.length := by
  induction ds generalizing q with
  | nil => exact fun d member => by cases member
  | cons d ds ih =>
    have longer := chain.1.longer
    refine List.forall_mem_cons.mpr ⟨by omega, ?_⟩
    intro e member
    have := ih chain.2 e member
    omega

theorem Chain.nodup (chain : Chain q ds) : ds.Nodup := by
  induction ds generalizing q with
  | nil => exact List.nodup_nil
  | cons d ds ih =>
    refine List.nodup_cons.mpr ⟨fun member => ?_, ih chain.2⟩
    exact absurd (chain.2.longest d member) (Nat.lt_irrefl _)

theorem At.begins {fuel nextSlash : Nat} {pre rest : CString} (here : At path nextSlash q pre rest)
    (enough : rest.length < fuel) : ∀ d ∈ dirsOf pre rest, d <+: path := by
  induction fuel generalizing q nextSlash pre rest with
  | zero => exact absurd enough (Nat.not_lt_zero _)
  | succ fuel ih =>
    cases found : strchr rest '/' with
    | none =>
      rw [dirsOf_none found]
      exact fun d member => by cases member
    | some k =>
      have there := here.next found
      rw [dirsOf_some found]
      exact List.forall_mem_cons.mpr
        ⟨there.split ▸ List.prefix_append _ _, ih there (rest_lt found enough)⟩

theorem begins_of_mem_dirs (member : d ∈ dirs path) : d <+: path := by
  cases path with
  | nil => cases member
  | cons c path => exact (at_start (List.cons_ne_nil c path)).begins (Nat.lt_succ_self _) d member

theorem missing_walk (chain : Chain q ds) (member : d ∈ missing ds n) :
    ∃ es, es <+: ds ∧ es ≠ [] ∧ endOf q es = d ∧ walk es n = none := by
  induction ds generalizing q n with
  | nil => cases member
  | cons e ds ih =>
    cases found : child e n with
    | none =>
      simp only [missing, found, Option.elim_none] at member
      obtain ⟨before, after, split⟩ := List.append_of_mem member
      refine ⟨before ++ [d], ⟨after, by simp [split]⟩, by simp, by simp [endOf], ?_⟩
      cases before with
      | nil | cons =>
        obtain ⟨rfl, -⟩ := List.cons.inj split
        simp [walk, found]
    | some val =>
      simp only [missing, found, Option.elim_some] at member
      obtain ⟨es, isPrefix, -, ends, none⟩ := ih chain.2 member
      refine ⟨e :: es, List.cons_prefix_cons.mpr ⟨rfl, isPrefix⟩, List.cons_ne_nil e es, ?_, ?_⟩
      · rw [endOf_cons]
        exact ends
      · simp [walk, found, none]

theorem Chain.front (chain : Chain q ds) (isPrefix : es <+: ds) : Chain q es := by
  induction es generalizing q ds with
  | nil => trivial
  | cons e es ih =>
    cases ds with
    | nil => simp at isPrefix
    | cons d ds =>
      obtain ⟨rfl, shorter⟩ := List.cons_prefix_cons.mp isPrefix
      exact ⟨chain.1, ih chain.2 shorter⟩

theorem child_of_mem {val : DirNode} (level : Level q (n.subdirs.map DirNode.name)) (next : Next q d)
    (member : val ∈ n.subdirs) (begins : d <+: val.name) : child d n = some val := by
  rcases n with ⟨name, subdirs, files, inode⟩
  obtain ⟨before, after, rfl⟩ := List.append_of_mem member
  refine child_append ?_ begins
  intro v earlier begins'
  have apart := level.apart
  simp only [DirNode.subdirs, List.map_append, List.map_cons, List.pairwise_append] at apart
  exact apart.2.2 v.name (List.mem_map_of_mem earlier) val.name List.mem_cons_self d next begins' begins

theorem wellFormed_of_walk {inodes : CString → Option Nat} {q : CString} {n : DirNode} (named : WellNamed q n)
    (walks : ∀ es k, Chain q es → es ≠ [] → walk es n = some k →
      k.name = endOf q es ∧ k.name.length < dirNameSize ∧ k.inode = inodes (endOf q es)) : WellFormed inodes q n := by
  have entry : ∀ val ∈ n.subdirs, Next q val.name ∧ child val.name n = some val ∧
      val.name.length < dirNameSize ∧ val.inode = inodes val.name := by
    intro val member
    obtain ⟨d, next, begins⟩ := named.level.named val.name (List.mem_map_of_mem member)
    have found := child_of_mem named.level next member begins
    obtain ⟨name, fits, inode⟩ := walks [d] val ⟨next, trivial⟩ (by simp) (by simp [walk, found])
    obtain rfl : val.name = d := name
    exact ⟨next, found, fits, inode⟩
  refine .node (fun val member => (entry val member).1) (fun val member => (entry val member).2.2.1)
    (fun val member => (entry val member).2.2.2) ?_
  intro val member
  obtain ⟨next, found, -⟩ := entry val member
  refine wellFormed_of_walk (named.child next found) ?_
  intro es k chain some walked
  have further := walks (val.name :: es) k ⟨next, chain⟩ (List.cons_ne_nil _ _) (by simp [walk, found, walked])
  rwa [endOf_cons] at further
termination_by n
decreasing_by
  have smaller := List.sizeOf_lt_of_mem member
  rcases n with ⟨name, subdirs, files, inode⟩
  simp only [DirNode.subdirs] at smaller
  simp only [DirNode.node.sizeOf_spec]
  omega

theorem WellFormed.walk {inodes : CString → Option Nat} (formed : WellFormed inodes q n) (chain : Chain q es)
    (nonempty : es ≠ []) (walked : walk es n = some k) : k.name = endOf q es ∧ k.inode = inodes (endOf q es) := by
  induction es generalizing q n with
  | nil => exact absurd rfl nonempty
  | cons d es ih =>
    obtain ⟨named, -, inode, below⟩ := formed
    obtain ⟨next, chain⟩ := chain
    obtain ⟨val, found, inner⟩ := Option.bind_eq_some_iff.mp walked
    obtain ⟨member, begins⟩ := child_some found
    obtain rfl : d = val.name := next.unique (named val member) begins List.prefix_rfl
    rw [endOf_cons]
    cases es with
    | nil =>
      obtain rfl := Option.some.inj inner
      exact ⟨rfl, inode val member⟩
    | cons e es => exact ih (below val member) chain (List.cons_ne_nil e es) inner

theorem inodeOf_append (files : List TreeFile) (file : TreeFile) (d : CString) :
    inodeOf (files ++ [file]) d = if file.name = d then some file.inode else inodeOf files d := by
  unfold inodeOf
  rw [List.reverse_append, List.reverse_singleton, List.singleton_append, List.find?_cons]
  by_cases same : file.name = d
  · simp [same]
  · simp [same]

theorem long_of_relative (relative : path.head? ≠ some '/') (slash : path.getLast? = some '/') : 1 < path.length := by
  rcases path with _ | ⟨a, _ | ⟨b, path⟩⟩
  · cases slash
  · exact absurd slash relative
  · simp

theorem newInode_at (relative : file.name.head? ≠ some '/') (chain : Chain [] es) (nonempty : es ≠ []) (inode : Option Nat) :
    (if es = dirs file.name then newInode file inode else inode) =
      if file.name = endOf [] es then some file.inode else inode := by
  unfold newInode
  by_cases named : file.name = endOf [] es
  · have place : es = dirs file.name := named ▸ chain.eq_dirs nonempty
    have slash : file.name.getLast? = some '/' := named ▸ (chain.slash nonempty).1
    rw [if_pos place, if_pos slash, if_pos named]
  · rw [if_neg named]
    split
    case isTrue place =>
      refine if_neg fun slash => named ?_
      rw [place, endOf_dirs slash (long_of_relative relative slash)]
    case isFalse => rfl

structure Formed (rootInode : Nat) (h : History) : Prop where
  fits : h.overrun = false
  root : h.root.name = ['/'] ∧ h.root.inode = some rootInode
  relative : ∀ f ∈ h.files, f.name.head? ≠ some '/'
  holds : Holds h.files h.root
  nodes : ∀ es k, Chain [] es → es ≠ [] → walk es h.root = some k →
    k.name = endOf [] es ∧ k.name.length < dirNameSize ∧ k.inode = inodeOf h.files (endOf [] es)
  absent : ∀ es, Chain [] es → es ≠ [] → walk es h.root = none → inodeOf h.files (endOf [] es) = none

theorem inodeOf_rooted (relative : ∀ f ∈ files, f.name.head? ≠ some '/') (rooted : path.head? = some '/') :
    inodeOf files path = none := by
  rw [inodeOf, Option.map_eq_none_iff, List.find?_eq_none]
  intro f member same
  exact relative f (List.mem_reverse.mp member) (of_decide_eq_true same ▸ rooted)

theorem Holds.no_directory (holds : Holds files n) (chain : Chain [] es) (walked : walk es n = some k)
    (slash : path.getLast? = some '/') : k.files.find? (fun entry => entry.1 = path) = none := by
  rw [List.find?_eq_none]
  intro entry member same
  have lists := holds.lists es chain
  rw [filesAt, walked, Option.elim_some] at lists
  obtain ⟨f, -, rfl, plain⟩ := mem_listed (lists ▸ member)
  have named : f.name = path := of_decide_eq_true same
  exact plain (named ▸ slash)

variable {rootInode : Nat} {h : History}

theorem Formed.getFile (formed : Formed rootInode h) (slash : path.getLast? = some '/') :
    dirTreeGetFile h.root path path = if path = ['/'] then some rootInode else inodeOf h.files path := by
  by_cases rooted : path.head? = some '/'
  · have nothing := formed.holds.no_directory (show Chain [] [] from trivial) rfl slash
    rw [dirTreeGetFile_rooted rooted, foundAt, formed.root.1, formed.root.2, nothing,
      inodeOf_rooted formed.relative rooted]
    by_cases top : path = ['/']
    · simp [top]
    · simp [top, Ne.symm top]
  · have nonempty : path ≠ [] := by
      rintro rfl
      cases slash
    have other : path ≠ ['/'] := by
      rintro rfl
      exact rooted rfl
    have ends := endOf_dirs slash (long_of_relative rooted slash)
    have some : dirs path ≠ [] := by
      intro nil
      rw [nil] at ends
      exact nonempty ends.symm
    rw [dirTreeGetFile_eq rooted nonempty, if_neg other]
    cases walked : walk (dirs path) h.root with
    | none =>
      have absent := formed.absent _ (chain_dirs path) some walked
      rw [ends] at absent
      rw [absent, Option.bind_none]
    | some k =>
      obtain ⟨name, -, inode⟩ := formed.nodes _ k (chain_dirs path) some walked
      rw [ends] at name inode
      rw [Option.bind_some, foundAt, if_pos ⟨slash, name⟩, inode]

theorem Formed.sound (formed : Formed rootInode h) : Sound rootInode h where
  fits := formed.fits
  root := formed.root
  nodes := wellFormed_of_walk formed.holds.wellNamed formed.nodes
  getFile _ slash := formed.getFile slash

theorem formed_empty (rootInode : Nat) : Formed rootInode ⟨emptyTree rootInode, [], false⟩ where
  fits := rfl
  root := ⟨rfl, rfl⟩
  relative := by simp
  holds := holds_empty rootInode
  nodes := by
    intro es k _ nonempty walked
    cases es with
    | nil => exact absurd rfl nonempty
    | cons e es => cases walked
  absent := fun _ _ _ _ => rfl

end Nodes

section Steps

variable {rootInode : Nat} {h h' : History} {c : Call}

theorem add_cases (taken : h.add c = some h') :
    (∃ out, dirTreeAddPath c.bytes c.heap h.root c.file = .ok out ∧ h' = ⟨out.2, h.files ++ [c.file], h.overrun⟩) ∨
    (dirTreeAddPath c.bytes c.heap h.root c.file = .error .outOfBounds ∧ h'.overrun = true) := by
  unfold History.add at taken
  split at taken
  case h_1 heap root done =>
    exact Or.inl ⟨(heap, root), done, (Option.some.inj taken).symm⟩
  case h_2 failed =>
    obtain rfl := Option.some.inj taken
    exact Or.inr ⟨failed, rfl⟩
  case h_3 => cases taken

theorem not_outOfBounds (short : ∀ d ∈ missing (dirs c.file.name) h.root, d.length + 1 < dirNameSize) :
    dirTreeAddPath c.bytes c.heap h.root c.file ≠ .error .outOfBounds := by
  intro failed
  have heap := dirTreeAddPath_heap c.bytes c.heap c.nonempty short
  rw [failed] at heap
  cases kmallocAll_stops heap.symm

theorem nodeAt_blank {b : CString × Nat} (begins : b.1 <+: c.file.name) (room : b.1.length + 1 < dirNameSize)
    (blank : Blank c.bytes c.file.name b) :
    (nodeAt c.bytes c.file.name b).name = b.1 ∧ (c.file.name ≠ b.1 → (nodeAt c.bytes c.file.name b).inode = none) := by
  constructor
  · rw [nodeAt_name c.bytes c.zeros begins room, blank.1]
    simp
  · intro other
    rcases blank.2 with same | zero
    · exact absurd same.symm other
    · simp [nodeAt, DirNode.inode, zero]

theorem Formed.add (formed : Formed rootInode h) (prepared : Prepared h c) (taken : h.add c = some h') :
    Formed rootInode h' := by
  rcases add_cases taken with ⟨out, done, rfl⟩ | ⟨failed, -⟩
  case inr => exact absurd failed (not_outOfBounds prepared.short)
  have added := dirTreeAddPath_added c.zeros c.nonempty formed.holds.wellNamed done
  have grown := added.grown
  constructor
  · exact formed.fits
  · refine ⟨grown.name.trans formed.root.1, ?_⟩
    -- a directory has a directory of its own to go to
    have plain : [] = dirs c.file.name → c.file.name.getLast? ≠ some '/' := by
      intro top slash
      have ends := endOf_dirs slash (long_of_relative c.relative slash)
      rw [← top] at ends
      exact c.nonempty ends.symm
    simp only
    rw [grown.inode]
    split
    case isTrue top => rw [newInode, if_neg (plain top), formed.root.2]
    case isFalse => exact formed.root.2
  · intro f member
    rcases List.mem_append.mp member with old | new
    · exact formed.relative f old
    · rw [List.mem_singleton.mp new]
      exact c.relative
  · exact formed.holds.add c.zeros c.nonempty done
  · intro es l chain nonempty walked
    simp only [inodeOf_append]
    cases before : walk es h.root with
    | some k =>
      obtain ⟨l', after, grown⟩ := added.kept es chain k before
      obtain rfl := Option.some.inj (after.symm.trans walked)
      obtain ⟨name, fits, inode⟩ := formed.nodes es k chain nonempty before
      refine ⟨grown.name.trans name, grown.name ▸ fits, ?_⟩
      rw [grown.inode, newInode_at c.relative chain nonempty, inode]
    | none =>
      by_cases isPrefix : es <+: dirs c.file.name
      · obtain ⟨b, new, place, l', after, grown⟩ := added.made es chain before isPrefix
        obtain rfl := Option.some.inj (after.symm.trans walked)
        have absent := (newBlocks_sublist _ _).subset (List.mem_map_of_mem new)
        have begins := begins_of_mem_dirs ((missing_sublist _ _).subset absent)
        have room := prepared.short b.1 absent
        obtain ⟨name, inode⟩ := nodeAt_blank begins room (prepared.blank b new)
        refine ⟨grown.name.trans (name.trans place), ?_, ?_⟩
        · rw [grown.name, name]
          omega
        · rw [grown.inode, newInode_at c.relative chain nonempty, ← place]
          by_cases own : c.file.name = b.1
          · rw [if_pos own, if_pos own]
          · rw [if_neg own, if_neg own, inode own, place, formed.absent es chain nonempty before]
      · rw [added.absent es chain before isPrefix] at walked
        cases walked
  · intro es chain nonempty none
    have before : walk es h.root = Option.none := by
      cases before : walk es h.root with
      | none => rfl
      | some k =>
        obtain ⟨l, after, -⟩ := added.kept es chain k before
        cases after.symm.trans none
    have other : c.file.name ≠ endOf [] es := by
      intro same
      have place : es = dirs c.file.name := same ▸ chain.eq_dirs nonempty
      obtain ⟨b, -, -, l, after, -⟩ := added.made es chain before (place ▸ List.prefix_rfl)
      cases after.symm.trans none
    rw [inodeOf_append, if_neg other]
    exact formed.absent es chain nonempty before

theorem not_sound_of_unprepared (formed : Formed rootInode h) (unprepared : ¬ Prepared h c) (taken : h.add c = some h') :
    ¬ Sound rootInode h' := by
  intro sound
  rcases add_cases taken with ⟨out, done, rfl⟩ | ⟨-, overrun⟩
  case inr =>
    rw [sound.fits] at overrun
    cases overrun
  refine unprepared ⟨dirTreeAddPath_short c.nonempty done, ?_⟩
  intro b new
  have absent := (newBlocks_sublist _ _).subset (List.mem_map_of_mem new)
  have distinct := (newBlocks_sublist c.heap _).nodup ((missing_sublist _ h.root).nodup (chain_dirs c.file.name).nodup)
  have added := dirTreeAddPath_added c.zeros c.nonempty formed.holds.wellNamed done
  obtain ⟨es, isPrefix, nonempty, ends, before⟩ := missing_walk (chain_dirs c.file.name) absent
  have chain := (chain_dirs c.file.name).front isPrefix
  obtain ⟨b', new', place, l, after, grown⟩ := added.made es chain before isPrefix
  obtain rfl := List.inj_on_of_nodup_map distinct new' new (place.trans ends)
  obtain ⟨name, inode⟩ := sound.nodes.walk chain nonempty after
  have begins := begins_of_mem_dirs ((missing_sublist _ _).subset absent)
  constructor
  · rw [grown.name, nodeAt_name c.bytes c.zeros begins (dirTreeAddPath_short c.nonempty done _ absent), ends] at name
    simpa using name
  · by_cases own : b'.1 = c.file.name
    · exact Or.inl own
    · rw [grown.inode, newInode_at c.relative chain nonempty, inodeOf_append, ← place, if_neg (Ne.symm own),
        if_neg (Ne.symm own), place, formed.absent es chain nonempty before] at inode
      exact Or.inr (by simpa [nodeAt, DirNode.inode] using inode)

end Steps

theorem nodes_sound_iff (rootInode : Nat) (calls : List Call) :
    Throughout History.add (Sound rootInode) ⟨emptyTree rootInode, [], false⟩ calls ↔
      Guarded History.add Prepared ⟨emptyTree rootInode, [], false⟩ calls :=
  throughout_iff_guarded (fun _ formed => formed.sound) (fun _ _ _ formed prepared taken => formed.add prepared taken)
    (fun _ _ _ formed unprepared taken => not_sound_of_unprepared formed unprepared taken) (formed_empty rootInode)

def staleCall : Call := ⟨fun _ => 1, initMalloc, ⟨2, ['d', '/']⟩, by decide, by decide, by decide⟩

theorem stale_node_not_sound : ¬ Throughout History.add (Sound 1) ⟨emptyTree 1, [], false⟩ [staleCall] := by
  intro safe
  have looked : (History.add ⟨emptyTree 1, [], false⟩ staleCall).map
      (fun h => (dirTreeGetFile h.root ['d', '/'] ['d', '/'], inodeOf h.files ['d', '/'])) = some (none, some 2) := by
    decide +kernel
  obtain ⟨h, taken, values⟩ := Option.map_eq_some_iff.mp looked
  obtain ⟨found, given⟩ := Prod.mk.inj values
  have sound : Sound 1 h := throughout_head (safe.2 h taken)
  have getFile := sound.getFile ['d', '/'] rfl
  rw [found, if_neg (by decide), given] at getFile
  cases getFile

end PiOS.Proof.DirTree
