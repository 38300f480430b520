import PiOS.Proof.Archive

namespace PiOS.Proof.Archive
open Kernel Heap Transition DirTree

abbrev Entry := Nat × InodeType × Nat × CString

def entryOf (inode : TarInode) : Entry := (inode.fid.toNat, inode.type, inode.size.toNat, inode.name)

def entries : Nat → List Header → List Entry
  | _, [] => []
  | sector, m :: members => (sector, m.type, m.size, m.path) :: entries (sector + 1 + m.dataSectors) members

def Scanned (image : Image) (bytes : Nat → HeapBytes) (heap : HeapMemory) : Prop :=
  ∃ fuel out, tarMakeDirTree image.card bytes heap fuel = some (.ok out) ∧
    out.passed.map entryOf = entries 0 image.members

def newDirs (seen : List CString) (path : CString) : List CString :=
  (dirs path).filter fun d => ∀ p ∈ seen, d ∉ dirs p

def blocksFor (seen : List CString) (m : Header) : List Word :=
  BitVec.ofNat 16 sizeofInode :: BitVec.ofNat 16 m.name.length :: treeBlocks ⟨0, m.path⟩ (newDirs seen m.path)

def demand : List CString → List Header → List Word
  | _, [] => []
  | seen, m :: members => blocksFor seen m ++ demand (m.path :: seen) members

def HasRoom (heap : HeapMemory) (members : List Header) : Prop :=
  (kmallocAll heap (BitVec.ofNat 16 sizeofInode :: demand [] members)).isOk = true

section Seen

variable {bytes : HeapBytes} {q path : CString} {ds es seen : List CString} {n tree : DirNode} {m : Header}
  {heap heap' : HeapMemory}

structure Seen (seen : List CString) (tree : DirNode) : Prop where
  wellNamed : WellNamed [] tree
  nodes : ∀ es, Chain [] es → es ≠ [] → ((walk es tree).isSome ↔ ∃ p ∈ seen, es <+: dirs p)
  short : ∀ p ∈ seen, ∀ d ∈ dirs p, d.length + 1 < dirNameSize

theorem seen_empty (inode : Nat) : Seen [] (emptyTree inode) where
  wellNamed := wellNamed_bare rfl
  nodes := by
    intro es _ nonempty
    cases es with
    | nil => exact absurd rfl nonempty
    | cons e es => simp [walk, child, emptyTree, DirNode.subdirs]
  short := by simp

theorem endOf_mem (nonempty : es ≠ []) : endOf q es ∈ es := by
  rw [endOf, List.getLastD_eq_getLast?, List.getLast?_eq_some_getLast nonempty]
  exact List.getLast_mem nonempty

theorem endOf_mem_dirs (chain : Chain [] es) (nonempty : es ≠ []) : endOf [] es ∈ dirs path ↔ es <+: dirs path := by
  constructor
  · intro member
    obtain ⟨before, after, split⟩ := List.append_of_mem member
    have front : before ++ [endOf [] es] <+: dirs path := ⟨after, by simp [split]⟩
    have ends : endOf [] (before ++ [endOf [] es]) = endOf [] es := by simp [endOf]
    rw [chain.unique ((chain_dirs path).front front) ends.symm]
    exact front
  · exact fun isPrefix => isPrefix.subset (endOf_mem nonempty)

theorem missing_eq_filter (new : CString → Prop) [DecidablePred new] (q : CString)
    (nodes : ∀ es, es <+: ds → es ≠ [] → (walk es n = none ↔ new (endOf q es))) : missing ds n = ds.filter new := by
  induction ds generalizing q n with
  | nil => rfl
  | cons d ds ih =>
    have first := nodes [d] (by simp) (by simp)
    cases found : child d n with
    | none =>
      -- behind a directory without a node no other one has a node
      have all : ∀ e ∈ d :: ds, new e := by
        intro e member
        obtain ⟨before, after, split⟩ := List.append_of_mem member
        have walked := nodes (before ++ [e]) ⟨after, by simp [split]⟩ (by simp)
        rw [endOf, List.getLastD_concat] at walked
        refine walked.mp ?_
        cases before with
        | nil | cons =>
          obtain ⟨rfl, -⟩ := List.cons.inj split
          simp [walk, found]
      rw [List.filter_eq_self.mpr (by simpa using all)]
      simp [missing, found]
    | some val =>
      have old : ¬ new d := fun isNew => by simpa [walk, found] using first.mpr isNew
      have below : ∀ es, es <+: ds → es ≠ [] → (walk es val = none ↔ new (endOf d es)) := by
        intro es isPrefix nonempty
        have step := nodes (d :: es) (List.cons_prefix_cons.mpr ⟨rfl, isPrefix⟩) (List.cons_ne_nil d es)
        rw [endOf_cons] at step
        simpa [walk, found] using step
      simp [missing, found, old, ih d below]

theorem Seen.missing (met : Seen seen tree) : missing (dirs path) tree = newDirs seen path := by
  refine missing_eq_filter _ [] fun es isPrefix nonempty => ?_
  have chain := (chain_dirs path).front isPrefix
  rw [← Option.not_isSome_iff_eq_none, met.nodes es chain nonempty]
  simp [endOf_mem_dirs chain nonempty]

theorem newDirs_short (met : Seen seen tree) (short : ∀ d ∈ newDirs seen path, d.length + 1 < dirNameSize) :
    ∀ d ∈ dirs path, d.length + 1 < dirNameSize := by
  intro d member
  by_cases new : ∀ p ∈ seen, d ∉ dirs p
  · exact short d (List.mem_filter.mpr ⟨member, by simpa using new⟩)
  · push Not at new
    obtain ⟨p, earlier, there⟩ := new
    exact met.short p earlier d there

theorem newDirs_subset : newDirs seen path ⊆ dirs path := List.filter_subset_self _

theorem Seen.add {file : TreeFile} {news : List (CString × Nat)} (met : Seen seen n)
    (added : Added bytes file [] (dirs path) news n tree) (short : ∀ d ∈ newDirs seen path, d.length + 1 < dirNameSize) :
    Seen (path :: seen) tree where
  wellNamed := added.wellNamed
  nodes := by
    intro es chain nonempty
    have old := met.nodes es chain nonempty
    simp only [List.mem_cons, exists_eq_or_imp]
    cases before : walk es n with
    | some k =>
      obtain ⟨l, after, -⟩ := added.kept es chain k before
      rw [before] at old
      simp [after, old.mp rfl]
    | none =>
      rw [before] at old
      have none : ¬ ∃ p ∈ seen, es <+: dirs p := fun earlier => by simpa using old.mpr earlier
      by_cases isPrefix : es <+: dirs path
      · obtain ⟨b, -, -, l, after, -⟩ := added.made es chain before isPrefix
        simp [after, isPrefix]
      · simp only [added.absent es chain before isPrefix, isPrefix, false_or]
        simpa using none
  short := List.forall_mem_cons.mpr ⟨newDirs_short met short, met.short⟩

theorem path_zeros (m : Header) : nul ∉ m.path := by
  intro member
  obtain ⟨c, there, same⟩ := List.mem_map.mp member
  exact m.zeros (byteChar_nul.mp same ▸ there)

theorem path_nonempty (m : Header) : m.path ≠ [] := fun nil => m.nonempty (List.map_eq_nil_iff.mp nil)

theorem enter_heap (bytes : HeapBytes) (heap : HeapMemory) (met : Seen seen tree) (short : ∀ d ∈ newDirs seen m.path, d.length + 1 < dirNameSize) :
    (enter bytes heap tree m.name).map (fun out => out.2.1) = kmallocAll heap (blocksFor seen m) := by
  unfold enter blocksFor
  rw [kmallocAll]
  cases kmalloc heap (BitVec.ofNat 16 sizeofInode) with
  | error stop => rfl
  | ok inode =>
    simp only [bind, Except.bind, kmallocAll]
    cases kmalloc inode.2 (BitVec.ofNat 16 m.name.length) with
    | error stop => rfl
    | ok name =>
      have added : (dirTreeAddPath bytes name.2 tree ⟨inode.1, m.name.map byteChar⟩).map Prod.fst =
          kmallocAll name.2 (treeBlocks ⟨0, m.path⟩ (newDirs seen m.path)) := by
        rw [← met.missing] at short ⊢
        exact dirTreeAddPath_heap bytes name.2 (path_nonempty m) short
      simp only [← added]
      cases dirTreeAddPath bytes name.2 tree ⟨inode.1, m.name.map byteChar⟩ <;> rfl

theorem enter_ok {out : Nat × HeapMemory × DirNode} (met : Seen seen tree) (entered : enter bytes heap tree m.name = .ok out) :
    Seen (m.path :: seen) out.2.2 ∧ kmallocAll heap (blocksFor seen m) = .ok out.2.1 := by
  have split := entered
  unfold enter at split
  obtain ⟨inode, -, split⟩ := bind_eq_ok.mp split
  obtain ⟨name, -, split⟩ := bind_eq_ok.mp split
  obtain ⟨inner, done, same⟩ := bind_eq_ok.mp split
  cases same
  have room := dirTreeAddPath_short (path_nonempty m) done
  have short : ∀ d ∈ newDirs seen m.path, d.length + 1 < dirNameSize := met.missing ▸ room
  refine ⟨met.add (dirTreeAddPath_added (path_zeros m) (path_nonempty m) met.wellNamed done) short, ?_⟩
  rw [← enter_heap bytes heap met short, entered]
  rfl

theorem enter_of_heap (bytes : HeapBytes) (met : Seen seen tree) (short : ∀ d ∈ dirs m.path, d.length + 1 < dirNameSize)
    (room : kmallocAll heap (blocksFor seen m) = .ok heap') :
    ∃ out, enter bytes heap tree m.name = .ok out ∧ out.2.1 = heap' := by
  rw [← enter_heap bytes heap met fun d new => short d (newDirs_subset new)] at room
  exact map_eq_ok.mp room

end Seen

section Scan

variable {card : Card} {bytes : Nat → HeapBytes} {members : List Header} {m : Header} {s : TarScan} {sector : Nat}
  {seen : List CString}

structure Behind (s : TarScan) (sector : Nat) (seen : List CString) : Prop where
  sector : s.sector = BitVec.ofNat 16 sector
  early : s.emptySectors = 0
  met : Seen seen s.tarDirTree

theorem Behind.header (place : Behind s sector seen) (room : sector < 32768) : s.sector.toNat = sector := by
  rw [place.sector, BitVec.toNat_ofNat]
  omega

theorem Behind.next {out : Nat × HeapMemory × DirNode} (place : Behind s sector seen) (small : m.size ≤ 65024)
    (entered : enter (bytes s.passed.length) s.heap s.tarDirTree m.name = .ok out) :
    Behind (behind card s m out) (sector + 1 + m.dataSectors) (m.path :: seen) where
  sector := by
    have skip : sectorsSkip (BitVec.ofNat 16 m.size) = BitVec.ofNat 16 (1 + m.dataSectors) := by
      apply BitVec.eq_of_toNat_eq
      rw [(sectorsSkip_eq_iff.mpr small).2, BitVec.toNat_ofNat, Header.dataSectors]
      omega
    simp only [behind, place.sector, skip, ← BitVec.ofNat_add, Nat.add_assoc]
  early := place.early
  met := (enter_ok place.met entered).1

theorem behind_passed {out : Nat × HeapMemory × DirNode} (place : Behind s sector seen) (room : sector < 32768)
    (small : m.size ≤ 65024) :
    (behind card s m out).passed.map entryOf = s.passed.map entryOf ++ [(sector, m.type, m.size, m.path)] := by
  rw [behind, List.map_append, List.map_singleton, entryOf, place.header room, (sectorsSkip_eq_iff.mpr small).1]

theorem tarScan_ok {s' : TarScan} (early : s.emptySectors < 2) (turn : tarTurn card (bytes s.passed.length) s = .ok s')
    (fuel : Nat) : tarScan card bytes (fuel + 1) s = tarScan card bytes fuel s' := by
  rw [tarScan, if_pos early, turn]

theorem scan_end (place : Behind s sector seen) (onCard : OnCard card sector []) (room : sector + 1 < 32768) (fuel : Nat) :
    ∃ out, tarScan card bytes (fuel + 3) s = some (.ok out) ∧ out.passed = s.passed := by
  have one : (1 : Word).toNat = 1 := rfl
  have here := place.header (by omega)
  have next : (s.sector + 1).toNat = sector + 1 := by
    rw [BitVec.toNat_add, here, one]
    exact Nat.mod_eq_of_lt (by omega)
  obtain ⟨zero, zero'⟩ := onCard 0 (by decide)
  rw [← here] at zero
  rw [← next] at zero'
  rw [tarScan_ok (by simp [place.early]) (tarTurn_empty _ zero), tarScan_ok (by simp [place.early]) (tarTurn_empty _ zero'),
    tarScan, if_neg (by simp [place.early])]
  exact ⟨_, rfl, rfl⟩

theorem scan_returns {heap' : HeapMemory} (place : Behind s sector seen) (onCard : OnCard card sector members)
    (small : ∀ m ∈ members, m.size ≤ 65024) (room : sector + sectorsOf members + 2 < 32768)
    (short : ∀ m ∈ members, ∀ d ∈ dirs m.path, d.length + 1 < dirNameSize)
    (served : kmallocAll s.heap (demand seen members) = .ok heap') :
    ∃ out, tarScan card bytes (members.length + 3) s = some (.ok out) ∧
      out.passed.map entryOf = s.passed.map entryOf ++ entries sector members := by
  induction members generalizing s sector seen with
  | nil =>
    obtain ⟨out, scanned, passed⟩ := scan_end place onCard (by omega) 0
    refine ⟨out, scanned, ?_⟩
    rw [passed, entries, List.append_nil]
  | cons m members ih =>
    obtain ⟨header, onCard⟩ := onCard
    obtain ⟨smallest, small⟩ := List.forall_mem_cons.mp small
    obtain ⟨shortest, short⟩ := List.forall_mem_cons.mp short
    have here := place.header (by omega)
    rw [sectorsOf, List.map_cons, List.sum_cons, ← sectorsOf] at room
    rw [demand, kmallocAll_append] at served
    obtain ⟨heap, first, served⟩ := bind_eq_ok.mp served
    obtain ⟨out, entered, rfl⟩ := enter_of_heap (bytes s.passed.length) place.met shortest first
    have turn : tarTurn card (bytes s.passed.length) s = .ok (behind card s m out) := by
      rw [tarTurn_member _ (here ▸ header), entered]
      rfl
    obtain ⟨last, scanned, passed⟩ := ih (place.next smallest entered) onCard small (by omega) short served
    refine ⟨last, ?_, ?_⟩
    · rw [List.length_cons, Nat.add_right_comm, tarScan_ok (by simp [place.early]) turn, scanned]
    · rw [passed, behind_passed place (by omega) smallest, List.append_assoc, entries, List.singleton_append]

theorem scan_needs {fuel : Nat} {last : TarScan} (place : Behind s sector seen) (onCard : OnCard card sector members)
    (small : ∀ m ∈ members, m.size ≤ 65024) (room : sector + sectorsOf members + 2 < 32768)
    (scanned : tarScan card bytes fuel s = some (.ok last)) :
    (∀ m ∈ members, ∀ d ∈ dirs m.path, d.length + 1 < dirNameSize) ∧
      ∃ heap', kmallocAll s.heap (demand seen members) = .ok heap' := by
  induction members generalizing s sector seen fuel with
  | nil => exact ⟨by simp, s.heap, rfl⟩
  | cons m members ih =>
    obtain ⟨header, onCard⟩ := onCard
    obtain ⟨smallest, small⟩ := List.forall_mem_cons.mp small
    have here := place.header (by omega)
    rw [sectorsOf, List.map_cons, List.sum_cons, ← sectorsOf] at room
    cases fuel with
    | zero => cases scanned
    | succ fuel =>
      have turn := tarTurn_member (bytes s.passed.length) (here ▸ header)
      rw [tarScan, if_pos (by simp [place.early]), turn] at scanned
      cases entered : enter (bytes s.passed.length) s.heap s.tarDirTree m.name with
      | error stop =>
        rw [entered] at scanned
        cases scanned
      | ok out =>
        rw [entered] at scanned
        obtain ⟨met, first⟩ := enter_ok place.met entered
        obtain ⟨short, heap', served⟩ := ih (place.next smallest entered) onCard small (by omega) scanned
        refine ⟨List.forall_mem_cons.mpr ⟨met.short m.path List.mem_cons_self, short⟩, heap', ?_⟩
        rw [demand, kmallocAll_append, first]
        exact served

end Scan

section Image

variable {image : Image} {bytes : Nat → HeapBytes} {heap heap₁ : HeapMemory} {inode : Nat}

theorem behind_start (inode : Nat) (heap : HeapMemory) : Behind ⟨0, 0, fun _ => 0, heap, emptyTree inode, []⟩ 0 [] :=
  ⟨rfl, rfl, seen_empty inode⟩

theorem tarMakeDirTree_eq (root : kmalloc heap (BitVec.ofNat 16 sizeofInode) = .ok (inode, heap₁)) (fuel : Nat) :
    tarMakeDirTree image.card bytes heap fuel =
      tarScan image.card bytes fuel ⟨0, 0, fun _ => 0, heap₁, emptyTree inode, []⟩ := by
  simp only [tarMakeDirTree, dirTreeInit, root, bind, Except.bind]
  rfl

theorem Scanned.needs (scanned : Scanned image bytes heap) :
    (∀ m ∈ image.members, ∀ d ∈ dirs m.path, d.length + 1 < dirNameSize) ∧ HasRoom heap image.members := by
  obtain ⟨fuel, last, scanned, -⟩ := scanned
  have room := image.short
  cases root : kmalloc heap (BitVec.ofNat 16 sizeofInode) with
  | error stop =>
    simp only [tarMakeDirTree, dirTreeInit, root] at scanned
    cases scanned
  | ok out =>
    rw [tarMakeDirTree_eq root] at scanned
    obtain ⟨short, heap', served⟩ := scan_needs (behind_start _ _) image.onCard image.small (by omega) scanned
    refine ⟨short, ?_⟩
    simp only [HasRoom, kmallocAll, root, bind, Except.bind, served]
    rfl

theorem scanned_of_room (short : ∀ m ∈ image.members, ∀ d ∈ dirs m.path, d.length + 1 < dirNameSize)
    (enough : HasRoom heap image.members) : Scanned image bytes heap := by
  have room := image.short
  unfold HasRoom kmallocAll at enough
  cases root : kmalloc heap (BitVec.ofNat 16 sizeofInode) with
  | error stop =>
    rw [root] at enough
    cases enough
  | ok out =>
    simp only [root, bind, Except.bind] at enough
    cases served : kmallocAll out.2 (demand [] image.members) with
    | error stop =>
      rw [served] at enough
      cases enough
    | ok heap' =>
      obtain ⟨last, scanned, passed⟩ :=
        scan_returns (behind_start out.1 out.2) image.onCard image.small (by omega) short served
      exact ⟨_, last, (tarMakeDirTree_eq root _).trans scanned, passed⟩

end Image

theorem scanned_iff (image : Image) (bytes : Nat → HeapBytes) (heap : HeapMemory) :
    Scanned image bytes heap ↔
      (∀ m ∈ image.members, ∀ d ∈ dirs m.path, d.length ≤ 30) ∧ HasRoom heap image.members := by
  have short : ∀ d : CString, d.length ≤ 30 ↔ d.length + 1 < dirNameSize := by
    intro d
    unfold dirNameSize
    omega
  simp only [short]
  exact ⟨fun scanned => scanned.needs, fun ⟨named, enough⟩ => scanned_of_room named enough⟩

def emptyFile : Header := fileHeader 0 (by decide)

def fullCard : Card := fun sector => if sector < 1000 then headerByte emptyFile else fun _ => 0

theorem onCard_full {n sector : Nat} (whole : sector + n = 1000) : OnCard fullCard sector (List.replicate n emptyFile) := by
  induction n generalizing sector with
  | zero =>
    intro i _
    have here : ¬ sector < 1000 := by omega
    have next : ¬ sector + 1 < 1000 := by omega
    simp [fullCard, here, next]
  | succ n ih =>
    have nothing : emptyFile.dataSectors = 0 := rfl
    exact ⟨headerAt_bytes (if_pos (by omega)), ih (by omega)⟩

theorem demand_full (n : Nat) (seen : List CString) : 3 * n ≤ (demand seen (List.replicate n emptyFile)).length := by
  induction n generalizing seen with
  | zero => exact Nat.zero_le _
  | succ n ih =>
    have blocks : (blocksFor seen emptyFile).length = 3 := rfl
    have rest := ih (emptyFile.path :: seen)
    rw [List.replicate_succ, demand, List.length_append, blocks]
    omega

def fullImage : Image where
  card := fullCard
  members := List.replicate 1000 emptyFile
  onCard := onCard_full rfl
  small m member := by
    rw [(List.mem_replicate.mp member).2]
    decide
  short := by
    rw [sectorsOf, List.map_replicate, List.sum_replicate]
    decide

theorem fullImage_not_scanned : ¬ Scanned fullImage (fun _ _ => 0) initMalloc := by
  intro scanned
  have members : fullImage.members = List.replicate 1000 emptyFile := by rw [fullImage]
  have enough := scanned.needs.2
  rw [members, HasRoom] at enough
  cases served : kmallocAll initMalloc (BitVec.ofNat 16 sizeofInode :: demand [] (List.replicate 1000 emptyFile)) with
  | error stop =>
    rw [served] at enough
    cases enough
  | ok heap' =>
    have bound := heapInv_init.kmallocAll_le served
    have many := demand_full 1000 []
    rw [List.length_cons, heapArrSize_eq] at bound
    omega

end PiOS.Proof.Archive
