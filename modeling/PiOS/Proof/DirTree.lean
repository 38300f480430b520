import Mathlib.Data.List.Infix
import PiOS.Kernel.Fs.DirTree
import PiOS.Proof.Heap
import PiOS.Transition.Outcome

namespace PiOS.Proof.DirTree
open Kernel Heap Transition

structure Next (q d : CString) : Prop where
  inside : q <+: d
  longer : max 1 q.length < d.length
  slash : d[d.length - 1]? = some '/'
  only : ∀ i, max 1 q.length ≤ i → d[i]? = some '/' → i + 1 = d.length

def Chain : CString → List CString → Prop
  | _, [] => True
  | q, d :: ds => Next q d ∧ Chain d ds

def dirsOf : CString → CString → List CString
  | _, [] => []
  | pre, c :: rest => if c = '/' then (pre ++ [c]) :: dirsOf (pre ++ [c]) rest else dirsOf (pre ++ [c]) rest

def dirs (path : CString) : List CString := dirsOf (path.take 1) (path.drop 1)

def child (d : CString) (n : DirNode) : Option DirNode :=
  n.subdirs.find? fun val => strncmpSame val.name d d.length

def walk : List CString → DirNode → Option DirNode
  | [], n => some n
  | d :: ds, n => (child d n).bind (walk ds)

section Paths

variable {q d e pre rest path : CString}

theorem Next.unique {name : CString} (next : Next q d) (next' : Next q e) (begins : d <+: name) (begins' : e <+: name) :
    d = e := by
  have shorter : ∀ {a b : CString}, Next q a → Next q b → a <+: name → b <+: name → a.length ≤ b.length → a = b := by
    intro a b nextA nextB beginsA beginsB le
    obtain ⟨more, rfl⟩ := List.prefix_of_prefix_length_le beginsA beginsB le
    have longer := nextA.longer
    have place : (a ++ more)[a.length - 1]? = some '/' := by
      rw [List.getElem?_append_left (by omega)]
      exact nextA.slash
    have ends := nextB.only (a.length - 1) (by omega) place
    have nothing : more = [] := by
      rw [List.length_append] at ends
      exact List.eq_nil_of_length_eq_zero (by omega)
    rw [nothing, List.append_nil]
  rcases Nat.le_total d.length e.length with le | le
  · exact shorter next next' begins begins' le
  · exact (shorter next' next begins' begins le).symm

variable {n : Nat}

theorem strchr_lt (found : strchr rest '/' = some n) : n < rest.length :=
  (List.findIdx?_eq_some_iff_getElem.mp found).1

theorem rest_lt {fuel : Nat} (found : strchr rest '/' = some n) (enough : rest.length < fuel + 1) :
    (rest.drop (n + 1)).length < fuel := by
  have := strchr_lt found
  rw [List.length_drop]
  omega

theorem dirsOf_none (none : strchr rest '/' = none) : dirsOf pre rest = [] := by
  induction rest generalizing pre with
  | nil => rfl
  | cons c rest ih =>
    simp only [strchr, List.findIdx?_cons] at none
    by_cases slash : c = '/'
    · simp [slash] at none
    · simp only [slash, decide_false, Bool.false_eq_true, if_false, Option.map_eq_none_iff] at none
      simp only [dirsOf, slash, if_false]
      exact ih none

theorem dirsOf_some (found : strchr rest '/' = some n) :
    dirsOf pre rest = (pre ++ rest.take (n + 1)) :: dirsOf (pre ++ rest.take (n + 1)) (rest.drop (n + 1)) := by
  induction rest generalizing pre n with
  | nil => cases found
  | cons c rest ih =>
    simp only [strchr, List.findIdx?_cons] at found
    by_cases slash : c = '/'
    · simp only [slash, decide_true, if_true, Option.some.injEq] at found
      subst found
      simp [dirsOf, slash]
    · simp only [slash, decide_false, Bool.false_eq_true, if_false, Option.map_eq_some_iff] at found
      obtain ⟨m, later, rfl⟩ := found
      simp only [dirsOf, slash, if_false, ih later, List.take_succ_cons, List.drop_succ_cons, List.append_assoc,
        List.singleton_append]

theorem next_of_strchr (inside : q <+: pre) (start : max 1 q.length = pre.length)
    (found : strchr rest '/' = some n) : Next q (pre ++ rest.take (n + 1)) := by
  obtain ⟨room, here, first⟩ := List.findIdx?_eq_some_iff_getElem.mp found
  have length : (pre ++ rest.take (n + 1)).length = pre.length + (n + 1) := by
    rw [List.length_append, List.length_take]
    omega
  have behind : ∀ j ≤ n, (pre ++ rest.take (n + 1))[pre.length + j]? = rest[j]? := by
    intro j small
    rw [List.getElem?_append_right (by omega), Nat.add_sub_cancel_left, List.getElem?_take_of_lt (by omega)]
  constructor
  · exact inside.trans (List.prefix_append _ _)
  · omega
  · rw [length, Nat.add_sub_assoc (by omega), behind _ (by omega), Nat.add_sub_cancel, List.getElem?_eq_getElem room]
    simpa using here
  · intro i low slash
    have bound := (List.getElem?_eq_some_iff.mp slash).1
    obtain ⟨j, rfl⟩ := Nat.exists_eq_add_of_le (start ▸ low)
    rw [behind j (by omega)] at slash
    by_contra early
    have before := first j (by omega)
    obtain ⟨_, value⟩ := List.getElem?_eq_some_iff.mp slash
    simp [value] at before

end Paths

section Walk

variable {q d e : CString} {n m : DirNode} {ds : List CString} {name : CString}

def endOf (q : CString) (ds : List CString) : CString := ds.getLastD q

structure Level (q : CString) (names : List CString) : Prop where
  named : ∀ name ∈ names, ∃ d, Next q d ∧ d <+: name
  apart : names.Pairwise fun a b => ∀ d, Next q d → d <+: a → ¬ d <+: b

def WellNamed (q : CString) (n : DirNode) : Prop :=
  ∀ ds m, Chain q ds → walk ds n = some m → Level (endOf q ds) (m.subdirs.map DirNode.name)

theorem strncmpSame_iff : strncmpSame name d d.length = true ↔ d <+: name := by
  rw [strncmpSame, decide_eq_true_eq, List.take_length, List.prefix_iff_eq_take, eq_comm]

theorem child_some (found : child d n = some m) : m ∈ n.subdirs ∧ d <+: m.name := by
  unfold child at found
  have hit := List.find?_some found
  exact ⟨List.mem_of_find?_eq_some found, strncmpSame_iff.mp hit⟩

theorem child_none_iff : child d n = none ↔ ∀ m ∈ n.subdirs, ¬ d <+: m.name := by
  simp only [child, List.find?_eq_none, strncmpSame_iff]

theorem wellNamed_iff : WellNamed q n ↔
    Level q (n.subdirs.map DirNode.name) ∧ ∀ d m, Next q d → child d n = some m → WellNamed d m := by
  constructor
  · intro named
    refine ⟨named [] n trivial rfl, ?_⟩
    intro d m next found ds k chain walked
    have path : walk (d :: ds) n = some k := by simp [walk, found, walked]
    have level := named (d :: ds) k ⟨next, chain⟩ path
    cases ds with
    | nil => exact level
    | cons e es => exact level
  · rintro ⟨level, deep⟩ ds m chain walked
    cases ds with
    | nil =>
      obtain rfl := Option.some.inj walked
      exact level
    | cons d ds =>
      obtain ⟨next, chain⟩ := chain
      obtain ⟨k, found, walked⟩ := Option.bind_eq_some_iff.mp walked
      have level := deep d k next found ds m chain walked
      cases ds with
      | nil => exact level
      | cons e es => exact level

theorem level_nil (q : CString) : Level q [] := ⟨by simp, List.Pairwise.nil⟩

theorem wellNamed_bare (bare : n.subdirs = []) : WellNamed q n := by
  rw [wellNamed_iff, bare]
  exact ⟨level_nil q, fun _ _ _ found => absurd found (by simp [child, bare])⟩

theorem WellNamed.level (named : WellNamed q n) : Level q (n.subdirs.map DirNode.name) := (wellNamed_iff.mp named).1

theorem WellNamed.child (named : WellNamed q n) (next : Next q d) (found : child d n = some m) : WellNamed d m :=
  (wellNamed_iff.mp named).2 d m next found

theorem child_ne (next : Next q d) (next' : Next q e) (other : e ≠ d) (begins : d <+: name) :
    strncmpSame name e e.length = false := by
  rw [Bool.eq_false_iff, ne_eq, strncmpSame_iff]
  exact fun begins' => other (next'.unique next begins' begins)

end Walk

def newFiles (file : TreeFile) : List (CString × Nat) :=
  if file.name.getLast? = some '/' then [] else [(file.name, file.inode)]

def newInode (file : TreeFile) (inode : Option Nat) : Option Nat :=
  if file.name.getLast? = some '/' then some file.inode else inode

structure Grown (file : TreeFile) (here : Prop) [Decidable here] (n m : DirNode) : Prop where
  name : m.name = n.name
  files : m.files = n.files ++ if here then newFiles file else []
  inode : m.inode = if here then newInode file n.inode else n.inode

def missing : List CString → DirNode → List CString
  | [], _ => []
  | d :: ds, n => (child d n).elim (d :: ds) (missing ds)

def newBlocks : HeapMemory → List CString → List (CString × Nat)
  | _, [] => []
  | heap, d :: ds =>
    match kmalloc heap (BitVec.ofNat 16 sizeofDirTNode) with
    | .error _ => []
    | .ok (ptr, heap) =>
      match listAppend heap with
      | .error _ => [(d, ptr)]
      | .ok heap => (d, ptr) :: newBlocks heap ds

def nodeAt (bytes : HeapBytes) (path : CString) (b : CString × Nat) : DirNode :=
  .node (dirNodeName ((bytes.read b.2 dirNameSize).map byteChar) path b.1.length) [] []
    (if wordAt (bytes.read (b.2 + dirInodeOffset) 2) 0 = 0 then none
      else some (wordAt (bytes.read (b.2 + dirInodeOffset) 2) 0).toNat)

structure Added (bytes : HeapBytes) (file : TreeFile) (q : CString) (ds : List CString) (news : List (CString × Nat))
    (n m : DirNode) : Prop where
  wellNamed : WellNamed q m
  kept : ∀ es, Chain q es → ∀ k, walk es n = some k → ∃ l, walk es m = some l ∧ Grown file (es = ds) k l
  absent : ∀ es, Chain q es → walk es n = none → ¬ es <+: ds → walk es m = none
  made : ∀ es, Chain q es → walk es n = none → es <+: ds → ∃ b ∈ news, b.1 = endOf q es ∧
    ∃ l, walk es m = some l ∧ Grown file (es = ds) (nodeAt bytes file.name b) l

section Insert

variable {bytes : HeapBytes} {file : TreeFile} {q d : CString} {ds : List CString} {news : List (CString × Nat)}
  {n m k l : DirNode}

theorem Added.grown (added : Added bytes file q ds news n m) : Grown file ([] = ds) n m := by
  obtain ⟨l, walked, grown⟩ := added.kept [] trivial n rfl
  obtain rfl := Option.some.inj walked
  exact grown

theorem Added.name_eq (added : Added bytes file q ds news n m) : m.name = n.name := added.grown.name

theorem Grown.of_iff {here there : Prop} [Decidable here] [Decidable there] (grown : Grown file here n m)
    (same : here ↔ there) : Grown file there n m := by
  obtain ⟨name, files, inode⟩ := grown
  simp only [same] at files inode
  exact ⟨name, files, inode⟩

theorem newDirNode_eq (bytes : HeapBytes) (heap : HeapMemory) (path d : CString) (room : d.length + 1 < dirNameSize) :
    newDirNode bytes heap path d.length =
      (kmalloc heap (BitVec.ofNat 16 sizeofDirTNode)).map fun out => (nodeAt bytes path (d, out.1), out.2) := by
  unfold newDirNode
  simp only [room, if_true]
  cases kmalloc heap (BitVec.ofNat 16 sizeofDirTNode) <;> rfl

variable {heap : HeapMemory} {path name pre rest : CString} {val : DirNode} {out : HeapMemory × DirNode}
  {nextSlash : Nat} {files : List (CString × Nat)} {before after : List DirNode} {inode : Option Nat} {fuel : Nat}

theorem newDirNode_room {prefixLen : Nat} {out : DirNode × HeapMemory}
    (made : newDirNode bytes heap path prefixLen = .ok out) : prefixLen + 1 < dirNameSize := by
  unfold newDirNode at made
  obtain ⟨_, -, made⟩ := bind_eq_ok.mp made
  by_contra long
  simp only [long, if_false] at made
  cases made

theorem nodeAt_begins (bytes : HeapBytes) (zeros : nul ∉ path) (isPrefix : d <+: path) (ptr : Nat) :
    d <+: (nodeAt bytes path (d, ptr)).name := by
  have taken : path.take d.length = d := (List.prefix_iff_eq_take.mp isPrefix).symm
  have clean : ∀ c ∈ d, (c ≠ nul) := fun c member same => zeros (same ▸ isPrefix.subset member)
  simp only [nodeAt, DirNode.name, dirNodeName, taken, List.set_append, Nat.not_lt.mpr (Nat.le_succ d.length), if_false]
  rw [List.takeWhile_append_of_pos (by simpa using clean)]
  exact List.prefix_append _ _

theorem missing_bare (bare : n.subdirs = []) (ds : List CString) : missing ds n = ds := by
  cases ds with
  | nil => rfl
  | cons d ds => simp [missing, child, bare]

theorem added_below {val' : DirNode} (named : WellNamed q n) (next : Next q d) (grown : Grown file False n m)
    (below : Added bytes file d ds news val val') (entry : child d m = some val')
    (others : ∀ e, Next q e → e ≠ d → child e m = child e n) (level : Level q (m.subdirs.map DirNode.name))
    (before : child d n = some val ∨
      child d n = none ∧ ∃ ptr, (d, ptr) ∈ news ∧ val = nodeAt bytes file.name (d, ptr)) :
    Added bytes file q (d :: ds) news n m := by
  have through : ∀ es, walk (d :: es) m = walk es val' := fun es => by simp [walk, entry]
  have aside : ∀ e es, Next q e → e ≠ d → walk (e :: es) m = walk (e :: es) n :=
    fun e es next' other => by simp [walk, others e next' other]
  have last : ∀ es, endOf q (d :: es) = endOf d es := fun es => by cases es <;> rfl
  constructor
  · rw [wellNamed_iff]
    refine ⟨level, ?_⟩
    intro e k next' found
    by_cases here : e = d
    · subst here
      obtain rfl := Option.some.inj (entry.symm.trans found)
      exact below.wellNamed
    · rw [others e next' here] at found
      exact named.child next' found
  · intro es chain k walked
    cases es with
    | nil =>
      obtain rfl := Option.some.inj walked
      exact ⟨m, rfl, grown.of_iff (by simp)⟩
    | cons e es =>
      obtain ⟨next', chain⟩ := chain
      by_cases here : e = d
      · subst here
        rcases before with old | ⟨none, -⟩
        · have inner : walk es val = some k := by simpa [walk, old] using walked
          obtain ⟨l, walked', grown'⟩ := below.kept es chain k inner
          exact ⟨l, (through es).trans walked', grown'.of_iff (by simp)⟩
        · simp [walk, none] at walked
      · refine ⟨k, (aside e es next' here).trans walked, rfl, ?_, ?_⟩
        · simp [here]
        · simp [here]
  · intro es chain walked apart
    cases es with
    | nil => cases walked
    | cons e es =>
      obtain ⟨next', chain⟩ := chain
      by_cases here : e = d
      · subst here
        rw [through]
        have shorter : ¬ es <+: ds := fun isPrefix => apart (List.cons_prefix_cons.mpr ⟨rfl, isPrefix⟩)
        rcases before with old | ⟨none, ptr, -, rfl⟩
        · exact below.absent es chain (by simpa [walk, old] using walked) shorter
        · refine below.absent es chain ?_ shorter
          cases es with
          | nil => exact absurd (List.nil_prefix) shorter
          | cons e' es => rfl
      · exact (aside e es next' here).trans walked
  · intro es chain walked isPrefix
    cases es with
    | nil => cases walked
    | cons e es =>
      obtain ⟨rfl, shorter⟩ := List.cons_prefix_cons.mp isPrefix
      obtain ⟨-, chain⟩ := chain
      rw [last]
      have step : ∀ {b : CString × Nat} {l : DirNode}, b ∈ news → b.1 = endOf e es → walk es val' = some l →
          Grown file (es = ds) (nodeAt bytes file.name b) l → ∃ b ∈ news, b.1 = endOf e es ∧
            ∃ l, walk (e :: es) m = some l ∧ Grown file (e :: es = e :: ds) (nodeAt bytes file.name b) l :=
        fun member place walked grown' => ⟨_, member, place, _, (through es).trans walked, grown'.of_iff (by simp)⟩
      rcases before with old | ⟨none, ptr, member, rfl⟩
      · obtain ⟨b, member, place, l, walked', grown'⟩ :=
          below.made es chain (by simpa [walk, old] using walked) shorter
        exact step member place walked' grown'
      · cases es with
        | nil =>
          obtain ⟨l, walked', grown'⟩ := below.kept [] trivial _ rfl
          exact step member rfl walked' grown'
        | cons e' es =>
          obtain ⟨b, member, place, l, walked', grown'⟩ := below.made (e' :: es) chain rfl shorter
          exact step member place walked' grown'

theorem added_here (named : WellNamed q n) (same : m.subdirs = n.subdirs) (grown : Grown file True n m) :
    Added bytes file q [] news n m := by
  have walks : ∀ e es, walk (e :: es) m = walk (e :: es) n := fun e es => by simp [walk, child, same]
  constructor
  · intro ds k chain walked
    cases ds with
    | nil =>
      obtain rfl := Option.some.inj walked
      rw [same]
      exact named.level
    | cons e es => exact named (e :: es) k chain ((walks e es).symm.trans walked)
  · intro es _ k walked
    cases es with
    | nil =>
      obtain rfl := Option.some.inj walked
      exact ⟨m, rfl, grown.of_iff (by simp)⟩
    | cons e es => exact ⟨k, (walks e es).trans walked, rfl, by simp, by simp⟩
  · intro es _ walked _
    cases es with
    | nil => cases walked
    | cons e es => exact (walks e es).trans walked
  · intro es _ walked isPrefix
    obtain rfl := List.prefix_nil.mp isPrefix
    cases walked

theorem strncmpSame_of_begins (isPrefix : d <+: path) :
    strncmpSame name path d.length = strncmpSame name d d.length := by
  unfold strncmpSame
  rw [List.take_length, ← List.prefix_iff_eq_take.mp isPrefix]

theorem child_append (none : ∀ v ∈ before, ¬ d <+: v.name) (begins : d <+: val.name) :
    child d (.node name (before ++ val :: after) files inode) = some val := by
  have first : before.find? (fun v => strncmpSame v.name d d.length) = Option.none := by
    rw [List.find?_eq_none]
    exact fun v member hit => none v member (strncmpSame_iff.mp hit)
  simp only [child, DirNode.subdirs, List.find?_append, first, Option.none_or]
  exact List.find?_cons_of_pos (strncmpSame_iff.mpr begins)

theorem child_skip {e : CString} (other : strncmpSame val.name e e.length = false) :
    child e (.node name (before ++ val :: after) files inode) = child e (.node name (before ++ after) files inode) := by
  simp [child, DirNode.subdirs, List.find?_append, other]

theorem span_cases (d : CString) (subdirs : List DirNode) :
    (∃ before val after, subdirs.span (fun v => ! strncmpSame v.name d d.length) = (before, val :: after) ∧
      subdirs = before ++ val :: after ∧ (∀ v ∈ before, ¬ d <+: v.name) ∧ d <+: val.name) ∨
    (subdirs.span (fun v => ! strncmpSame v.name d d.length) = (subdirs, []) ∧ ∀ v ∈ subdirs, ¬ d <+: v.name) := by
  rw [List.span_eq_takeWhile_dropWhile]
  induction subdirs with
  | nil => exact Or.inr ⟨rfl, by simp⟩
  | cons v subdirs ih =>
    by_cases begins : d <+: v.name
    · have hit := strncmpSame_iff.mpr begins
      exact Or.inl ⟨[], v, subdirs, by simp [hit], rfl, by simp, begins⟩
    · have miss : strncmpSame v.name d d.length = false := by
        rw [Bool.eq_false_iff, ne_eq, strncmpSame_iff]
        exact begins
      rcases ih with ⟨before, val, after, spanned, split, skipped, found⟩ | ⟨spanned, skipped⟩
      · obtain ⟨taken, dropped⟩ := Prod.mk.inj spanned
        refine Or.inl ⟨v :: before, val, after, by simp [miss, taken, dropped], by rw [split, List.cons_append], ?_, found⟩
        exact List.forall_mem_cons.mpr ⟨begins, skipped⟩
      · obtain ⟨taken, dropped⟩ := Prod.mk.inj spanned
        exact Or.inr ⟨by simp [miss, taken, dropped], List.forall_mem_cons.mpr ⟨begins, skipped⟩⟩

section Entries

variable {name : CString} {before after : List DirNode} {files : List (CString × Nat)} {inode : Option Nat}
  {val val' : DirNode}

theorem added_found (named : WellNamed q (.node name (before ++ val :: after) files inode)) (next : Next q d)
    (skipped : ∀ v ∈ before, ¬ d <+: v.name) (begins : d <+: val.name) (below : Added bytes file d ds news val val') :
    Added bytes file q (d :: ds) news (.node name (before ++ val :: after) files inode)
      (.node name (before ++ val' :: after) files inode) := by
  have same : val'.name = val.name := below.name_eq
  have begins' : d <+: val'.name := same ▸ begins
  refine added_below named next ⟨rfl, by simp [DirNode.files], by simp [DirNode.inode]⟩ below
    (child_append skipped begins') ?_ ?_ (Or.inl (child_append skipped begins))
  · intro e next' other
    rw [child_skip (child_ne next next' other begins'), child_skip (child_ne next next' other begins)]
  · have level := named.level
    simpa [DirNode.subdirs, same] using level

theorem added_new {ptr : Nat} (named : WellNamed q (.node name before files inode)) (next : Next q d)
    (skipped : ∀ v ∈ before, ¬ d <+: v.name) (allotted : (d, ptr) ∈ news)
    (begins : d <+: (nodeAt bytes file.name (d, ptr)).name)
    (below : Added bytes file d ds news (nodeAt bytes file.name (d, ptr)) val') :
    Added bytes file q (d :: ds) news (.node name before files inode) (.node name (before ++ [val']) files inode) := by
  have begins' : d <+: val'.name := below.name_eq ▸ begins
  refine added_below named next ⟨rfl, by simp [DirNode.files], by simp [DirNode.inode]⟩ below
    (child_append skipped begins') ?_ ?_ (Or.inr ⟨child_none_iff.mpr skipped, ptr, allotted, rfl⟩)
  · intro e next' other
    rw [child_skip (child_ne next next' other begins'), List.append_nil]
  · have level := named.level
    simp only [DirNode.subdirs, List.map_append, List.map_cons, List.map_nil] at level ⊢
    constructor
    · intro a member
      rcases List.mem_append.mp member with old | last
      · exact level.named a old
      · obtain rfl := List.mem_singleton.mp last
        exact ⟨d, next, begins'⟩
    · rw [List.pairwise_append]
      refine ⟨level.apart, List.pairwise_singleton _ _, ?_⟩
      intro a member b last e next' beginsA beginsB
      obtain rfl := List.mem_singleton.mp last
      obtain rfl := next'.unique next beginsB begins'
      obtain ⟨v, there, rfl⟩ := List.mem_map.mp member
      exact skipped v there beginsA

end Entries

theorem Added.mono {news' : List (CString × Nat)} (added : Added bytes file q ds news n m) (more : news ⊆ news') :
    Added bytes file q ds news' n m := by
  refine ⟨added.wellNamed, added.kept, added.absent, ?_⟩
  intro es chain none isPrefix
  obtain ⟨b, member, rest⟩ := added.made es chain none isPrefix
  exact ⟨b, more member, rest⟩

theorem dirTreeEnter_grown (done : dirTreeEnter file heap n = .ok out) :
    out.2.subdirs = n.subdirs ∧ Grown file True n out.2 := by
  rcases n with ⟨name, subdirs, files, inode⟩
  unfold dirTreeEnter at done
  simp only at done
  split at done
  case isTrue slash =>
    cases done
    exact ⟨rfl, rfl, by simp [newFiles, slash, DirNode.files], by simp [newInode, slash, DirNode.inode]⟩
  case isFalse slash =>
    obtain ⟨heap', -, done⟩ := bind_eq_ok.mp done
    cases done
    exact ⟨rfl, rfl, by simp [newFiles, slash, DirNode.files], by simp [newInode, slash, DirNode.inode]⟩

structure At (path : CString) (nextSlash : Nat) (q pre rest : CString) : Prop where
  split : path = pre ++ rest
  place : pre.length = nextSlash + 1
  inside : q <+: pre
  start : max 1 q.length = pre.length

theorem At.behind (here : At path nextSlash q pre rest) : path.drop (nextSlash + 1) = rest := by
  rw [here.split, ← here.place, List.drop_left]

theorem At.next {k : Nat} (here : At path nextSlash q pre rest) (found : strchr rest '/' = some k) :
    At path (nextSlash + 1 + k) (pre ++ rest.take (k + 1)) (pre ++ rest.take (k + 1)) (rest.drop (k + 1)) := by
  have room := strchr_lt found
  have place := here.place
  have length : (pre ++ rest.take (k + 1)).length = nextSlash + 1 + k + 1 := by
    rw [List.length_append, List.length_take]
    omega
  refine ⟨?_, length, List.prefix_rfl, by omega⟩
  rw [List.append_assoc, List.take_append_drop]
  exact here.split

inductive Turn (bytes : HeapBytes) (file : TreeFile) (fuel nextSlash : Nat) (heap : HeapMemory) (pre rest : CString) :
    DirNode → Except Stop (HeapMemory × DirNode) → Prop
  | ends {n : DirNode} (none : strchr rest '/' = none) :
      Turn bytes file fuel nextSlash heap pre rest n (dirTreeEnter file heap n)
  | enters {k : Nat} {name : CString} {before after : List DirNode} {files : List (CString × Nat)} {inode : Option Nat}
      {val : DirNode} (found : strchr rest '/' = some k) (skipped : ∀ v ∈ before, ¬ (pre ++ rest.take (k + 1)) <+: v.name)
      (begins : pre ++ rest.take (k + 1) <+: val.name) :
      Turn bytes file fuel nextSlash heap pre rest (.node name (before ++ val :: after) files inode)
        ((dirTreeAddLoop bytes file fuel (nextSlash + 1 + k) heap val).map fun out =>
          (out.1, .node name (before ++ out.2 :: after) files inode))
  | creates {k : Nat} {name : CString} {subdirs : List DirNode} {files : List (CString × Nat)} {inode : Option Nat}
      (found : strchr rest '/' = some k) (skipped : ∀ v ∈ subdirs, ¬ (pre ++ rest.take (k + 1)) <+: v.name) :
      Turn bytes file fuel nextSlash heap pre rest (.node name subdirs files inode) (do
        let new ← newDirNode bytes heap file.name (pre ++ rest.take (k + 1)).length
        let heap ← listAppend new.2
        (dirTreeAddLoop bytes file fuel (nextSlash + 1 + k) heap new.1).map fun out =>
          (out.1, .node name (subdirs ++ [out.2]) files inode))

theorem turn (bytes : HeapBytes) (fuel : Nat) (here : At file.name nextSlash q pre rest) (heap : HeapMemory)
    (n : DirNode) :
    Turn bytes file fuel nextSlash heap pre rest n (dirTreeAddLoop bytes file (fuel + 1) nextSlash heap n) := by
  rcases n with ⟨name, subdirs, files, inode⟩
  unfold dirTreeAddLoop
  simp only [here.behind]
  cases found : strchr rest '/' with
  | none => exact .ends found
  | some k =>
    have there := here.next found
    have isPrefix : pre ++ rest.take (k + 1) <+: file.name := there.split ▸ List.prefix_append _ _
    simp only [← there.place, strncmpSame_of_begins isPrefix]
    rcases span_cases (pre ++ rest.take (k + 1)) subdirs with ⟨before, val, after, spanned, rfl, skipped, begins⟩ |
      ⟨spanned, skipped⟩
    · rw [spanned]
      exact .enters found skipped begins
    · rw [spanned]
      exact .creates found skipped

theorem dirTreeAddLoop_added (zeros : nul ∉ file.name)
    (here : At file.name nextSlash q pre rest) (enough : rest.length < fuel)
    (named : WellNamed q n) (done : dirTreeAddLoop bytes file fuel nextSlash heap n = .ok out) :
    Added bytes file q (dirsOf pre rest) (newBlocks heap (missing (dirsOf pre rest) n)) n out.2 := by
  induction fuel generalizing q nextSlash heap pre rest n out with
  | zero => exact absurd enough (Nat.not_lt_zero _)
  | succ fuel ih =>
    have taken := turn bytes fuel here heap n
    rw [done] at taken
    generalize result : Except.ok out = r at taken
    cases taken with
    | ends none =>
      rw [dirsOf_none none]
      obtain ⟨same, grown⟩ := dirTreeEnter_grown result.symm
      exact added_here named same grown
    | enters found skipped begins =>
      have next := next_of_strchr here.inside here.start found
      obtain ⟨⟨heap', val'⟩, inner, rfl⟩ := map_eq_ok.mp result.symm
      rw [dirsOf_some found]
      simp only [missing, child_append skipped begins, Option.elim_some]
      have old := named.child next (child_append skipped begins)
      have below := ih (here.next found) (rest_lt found enough) old inner
      exact added_found named next skipped begins below
    | @creates k name subdirs files inode found skipped =>
      have next := next_of_strchr here.inside here.start found
      have there := here.next found
      have enough' := rest_lt found enough
      have none : child _ (.node name subdirs files inode) = none := child_none_iff.mpr skipped
      obtain ⟨⟨newNode, heap'⟩, made, result⟩ := bind_eq_ok.mp result.symm
      obtain ⟨heap'', appended, result⟩ := bind_eq_ok.mp result
      obtain ⟨⟨heap₃, newNode'⟩, inner, rfl⟩ := map_eq_ok.mp result
      rw [dirsOf_some found]
      simp only [missing, none, Option.elim_none]
      generalize pre ++ rest.take (k + 1) = d at next there made skipped ⊢
      rw [newDirNode_eq bytes heap file.name d (newDirNode_room made)] at made
      obtain ⟨⟨ptr, heap₁⟩, allocated, same⟩ := map_eq_ok.mp made
      cases same
      have begins := nodeAt_begins bytes zeros (there.split ▸ List.prefix_append _ _) ptr
      have below := ih there enough' (wellNamed_bare rfl) inner
      rw [missing_bare rfl] at below
      have blocks : newBlocks heap (d :: dirsOf d (rest.drop (k + 1))) =
          (d, ptr) :: newBlocks heap'' (dirsOf d (rest.drop (k + 1))) := by
        simp only at appended
        simp only [newBlocks, allocated, appended]
      rw [blocks]
      exact added_new named next skipped List.mem_cons_self begins (below.mono (List.subset_cons_self _ _))

theorem at_start (nonempty : path ≠ []) : At path 0 [] (path.take 1) (path.drop 1) := by
  have positive := List.length_pos_iff.mpr nonempty
  have length : (path.take 1).length = 1 := by
    rw [List.length_take]
    omega
  exact ⟨(List.take_append_drop 1 path).symm, length, List.nil_prefix, by rw [length, List.length_nil]; rfl⟩

theorem dirTreeAddPath_added (zeros : nul ∉ file.name) (nonempty : file.name ≠ [])
    (named : WellNamed [] n) (done : dirTreeAddPath bytes heap n file = .ok out) :
    Added bytes file [] (dirs file.name) (newBlocks heap (missing (dirs file.name) n)) n out.2 := by
  refine dirTreeAddLoop_added zeros (at_start nonempty) ?_ named done
  rw [List.length_drop]
  omega

theorem dirTreeAddLoop_short (here : At file.name nextSlash q pre rest) (enough : rest.length < fuel)
    (done : dirTreeAddLoop bytes file fuel nextSlash heap n = .ok out) :
    ∀ d ∈ missing (dirsOf pre rest) n, d.length + 1 < dirNameSize := by
  induction fuel generalizing q nextSlash heap pre rest n out with
  | zero => exact absurd enough (Nat.not_lt_zero _)
  | succ fuel ih =>
    have taken := turn bytes fuel here heap n
    rw [done] at taken
    generalize result : Except.ok out = r at taken
    cases taken with
    | ends none =>
      rw [dirsOf_none none]
      exact fun d member => by cases member
    | enters found skipped begins =>
      obtain ⟨inner, entered, -⟩ := map_eq_ok.mp result.symm
      rw [dirsOf_some found]
      simp only [missing, child_append skipped begins, Option.elim_some]
      exact ih (here.next found) (rest_lt found enough) entered
    | @creates k name subdirs files inode found skipped =>
      have none : child _ (.node name subdirs files inode) = none := child_none_iff.mpr skipped
      obtain ⟨new, made, result⟩ := bind_eq_ok.mp result.symm
      obtain ⟨heap', -, result⟩ := bind_eq_ok.mp result
      obtain ⟨inner, entered, -⟩ := map_eq_ok.mp result
      have room := newDirNode_room made
      rw [newDirNode_eq bytes heap file.name _ room] at made
      obtain ⟨place, -, rfl⟩ := map_eq_ok.mp made
      have below := ih (here.next found) (rest_lt found enough) entered
      rw [missing_bare rfl] at below
      rw [dirsOf_some found]
      simp only [missing, none, Option.elim_none]
      exact List.forall_mem_cons.mpr ⟨room, below⟩

theorem dirTreeAddPath_short (nonempty : file.name ≠ []) (done : dirTreeAddPath bytes heap n file = .ok out) :
    ∀ d ∈ missing (dirs file.name) n, d.length + 1 < dirNameSize := by
  refine dirTreeAddLoop_short (at_start nonempty) ?_ done
  rw [List.length_drop]
  omega

end Insert

def treeBlocks (file : TreeFile) (new : List CString) : List Word :=
  (new.flatMap fun _ => [BitVec.ofNat 16 sizeofDirTNode, BitVec.ofNat 16 sizeofListNode]) ++
    if file.name.getLast? = some '/' then [] else [BitVec.ofNat 16 sizeofListNode]

section Allocation

variable {bytes : HeapBytes} {file : TreeFile} {q d pre rest : CString} {n : DirNode} {heap : HeapMemory}

theorem missing_sublist (ds : List CString) (n : DirNode) : List.Sublist (missing ds n) ds := by
  induction ds generalizing n with
  | nil => exact List.Sublist.refl _
  | cons d ds ih =>
    cases found : child d n with
    | none => simp [missing, found]
    | some val =>
      simp only [missing, found, Option.elim_some]
      exact (ih val).cons d

theorem dirTreeEnter_heap : (dirTreeEnter file heap n).map Prod.fst = kmallocAll heap (treeBlocks file []) := by
  rcases n with ⟨name, subdirs, files, inode⟩
  unfold dirTreeEnter treeBlocks listAppend
  by_cases slash : file.name.getLast? = some '/'
  · simp only [slash, if_true]
    rfl
  · simp only [slash, if_false]
    rw [List.flatMap_nil, List.nil_append, kmallocAll]
    cases kmalloc heap (BitVec.ofNat 16 sizeofListNode) <;> rfl

theorem dirTreeAddLoop_heap {fuel nextSlash : Nat} (here : At file.name nextSlash q pre rest)
    (enough : rest.length < fuel) (short : ∀ d ∈ missing (dirsOf pre rest) n, d.length + 1 < dirNameSize) :
    (dirTreeAddLoop bytes file fuel nextSlash heap n).map Prod.fst =
      kmallocAll heap (treeBlocks file (missing (dirsOf pre rest) n)) := by
  induction fuel generalizing q nextSlash heap pre rest n with
  | zero => exact absurd enough (Nat.not_lt_zero _)
  | succ fuel ih =>
    have taken := turn bytes fuel here heap n
    generalize dirTreeAddLoop bytes file (fuel + 1) nextSlash heap n = r at taken
    cases taken with
    | ends none =>
      rw [dirsOf_none none]
      exact dirTreeEnter_heap
    | enters found skipped begins =>
      rw [dirsOf_some found] at short ⊢
      simp only [missing, child_append skipped begins, Option.elim_some] at short ⊢
      rw [← ih (here.next found) (rest_lt found enough) short]
      cases dirTreeAddLoop bytes file fuel _ heap _ <;> rfl
    | @creates k name subdirs files inode found skipped =>
      have there := here.next found
      have enough' := rest_lt found enough
      have none : child _ (.node name subdirs files inode) = none := child_none_iff.mpr skipped
      rw [dirsOf_some found] at short ⊢
      simp only [missing, none, Option.elim_none] at short ⊢
      generalize pre ++ rest.take (k + 1) = d at there short ⊢
      have blocks : treeBlocks file (d :: dirsOf d (rest.drop (k + 1))) = BitVec.ofNat 16 sizeofDirTNode ::
          BitVec.ofNat 16 sizeofListNode :: treeBlocks file (dirsOf d (rest.drop (k + 1))) := rfl
      rw [blocks, kmallocAll, newDirNode_eq bytes heap file.name d (short d List.mem_cons_self)]
      cases kmalloc heap (BitVec.ofNat 16 sizeofDirTNode) with
      | error e => rfl
      | ok out =>
        have all := missing_bare (n := nodeAt bytes file.name (d, out.1)) rfl (dirsOf d (rest.drop (k + 1)))
        have below : ∀ heap, (dirTreeAddLoop bytes file fuel (nextSlash + 1 + k) heap
            (nodeAt bytes file.name (d, out.1))).map Prod.fst =
              kmallocAll heap (treeBlocks file (dirsOf d (rest.drop (k + 1)))) := by
          intro heap
          rw [ih there enough' (by rw [all]; exact fun e member => short e (List.mem_cons_of_mem _ member)), all]
        simp only [Except.map, bind, Except.bind, kmallocAll, listAppend]
        cases kmalloc out.2 (BitVec.ofNat 16 sizeofListNode) with
        | error e => rfl
        | ok out' =>
          simp only [← below]
          cases dirTreeAddLoop bytes file fuel (nextSlash + 1 + k) out'.2 (nodeAt bytes file.name (d, out.1)) <;> rfl

theorem dirTreeAddPath_heap (bytes : HeapBytes) (heap : HeapMemory) (nonempty : file.name ≠ [])
    (short : ∀ d ∈ missing (dirs file.name) n, d.length + 1 < dirNameSize) :
    (dirTreeAddPath bytes heap n file).map Prod.fst = kmallocAll heap (treeBlocks file (missing (dirs file.name) n)) := by
  refine dirTreeAddLoop_heap (at_start nonempty) ?_ short
  rw [List.length_drop]
  omega

end Allocation

section Lookup

variable {q path pre rest : CString} {n : DirNode}

theorem getSlashPos_cons {c : Char} (other : c ≠ '/') (s : CString) (n : Nat) :
    getSlashPos (c :: s) n = (getSlashPos s n).map (· + 1) := by
  rw [getSlashPos]
  · exact fun _ same => other same
  · exact fun _ _ same => other same

theorem getSlashPos_zero (s : CString) : getSlashPos s 0 = strchr s '/' := by
  induction s with
  | nil => rfl
  | cons c s ih =>
    by_cases slash : c = '/'
    · simp [getSlashPos, strchr, List.findIdx?_cons, slash]
    · rw [getSlashPos_cons slash, ih]
      simp [strchr, List.findIdx?_cons, slash]

theorem getSlashPos_append (pre rest : CString) :
    getSlashPos (pre ++ rest) (pre.count '/') = (strchr rest '/').map (pre.length + ·) := by
  induction pre with
  | nil =>
    have same : (fun k => ([] : CString).length + k) = id := by
      funext k
      simp
    rw [List.nil_append, List.count_nil, getSlashPos_zero, same, Option.map_id, id_eq]
  | cons c pre ih =>
    have shift : ∀ x : Option Nat, (x.map (pre.length + ·)).map (· + 1) = x.map ((c :: pre).length + ·) := by
      intro x
      cases x with
      | none => rfl
      | some k => simp [Nat.add_right_comm]
    by_cases slash : c = '/'
    · subst slash
      rw [List.cons_append, List.count_cons_self, getSlashPos, ih, shift]
    · rw [List.cons_append, List.count_cons_of_ne slash, getSlashPos_cons slash, ih, shift]

theorem count_next (pre : CString) {k : Nat} (found : strchr rest '/' = some k) :
    (pre ++ rest.take (k + 1)).count '/' = pre.count '/' + 1 := by
  obtain ⟨room, here, first⟩ := List.findIdx?_eq_some_iff_getElem.mp found
  have none : (rest.take k).count '/' = 0 := by
    rw [List.count_eq_zero]
    intro member
    obtain ⟨j, small, value⟩ := List.getElem_of_mem member
    rw [List.length_take] at small
    rw [List.getElem_take] at value
    have := first j (by omega)
    simp [value] at this
  rw [List.take_add_one, List.getElem?_eq_getElem room, List.count_append, List.count_append, none]
  have slash : rest[k] = '/' := by simpa using here
  simp [slash]

theorem dirTreeDescend_eq {fuel nextSlash : Nat} (here : At path nextSlash q pre rest) (enough : rest.length < fuel) :
    dirTreeDescend path fuel (pre.count '/') n = walk (dirsOf pre rest) n := by
  induction fuel generalizing q nextSlash pre rest n with
  | zero => exact absurd enough (Nat.not_lt_zero _)
  | succ fuel ih =>
    have position := getSlashPos_append pre rest
    rw [← here.split] at position
    unfold dirTreeDescend
    cases found : strchr rest '/' with
    | none =>
      rw [found] at position
      simp only [position, Option.map_none, dirsOf_none found, walk]
    | some k =>
      have there := here.next found
      have counted := count_next pre found
      have enough' : (rest.drop (k + 1)).length < fuel := by
        have := strchr_lt found
        rw [List.length_drop]
        omega
      have value : pre.length + k = nextSlash + k + 1 := by
        have := here.place
        omega
      have length : nextSlash + k + 2 = (pre ++ rest.take (k + 1)).length := by
        have := there.place
        omega
      rw [found, Option.map_some, value] at position
      rw [dirsOf_some found]
      simp only [position, length]
      rw [← counted]
      generalize pre ++ rest.take (k + 1) = d at there ⊢
      have isPrefix : d <+: path := there.split ▸ List.prefix_append _ _
      simp only [strncmpSame_of_begins isPrefix, walk, child]
      cases n.subdirs.find? (fun val => strncmpSame val.name d d.length) with
      | none => rfl
      | some val => exact ih there enough'

def foundAt (path : CString) (n : DirNode) : Option Nat :=
  if path.getLast? = some '/' ∧ n.name = path then
    n.inode
  else
    (n.files.find? fun file => file.1 = path).map Prod.snd

theorem dirTreeGetFile_eq (relative : path.head? ≠ some '/') (nonempty : path ≠ []) :
    dirTreeGetFile n path path = (walk (dirs path) n).bind (foundAt path) := by
  have start : (path.take 1).count '/' = 0 := by
    cases path with
    | nil => rfl
    | cons c path =>
      have other : '/' ≠ c := fun same => relative (by rw [same, List.head?_cons])
      simpa [List.count_eq_zero] using other
  have descend : dirTreeDescend path (path.length + 1) 0 n = walk (dirs path) n := by
    rw [← start]
    refine dirTreeDescend_eq (at_start nonempty) ?_
    rw [List.length_drop]
    omega
  unfold dirTreeGetFile
  rw [descend]
  cases walk (dirs path) n <;> rfl

theorem dirTreeGetFile_rooted (rooted : path.head? = some '/') : dirTreeGetFile n path path = foundAt path n := by
  obtain ⟨rest, rfl⟩ := List.head?_eq_some_iff.mp rooted
  rfl

end Lookup

section Chains

variable {q d path pre rest : CString} {es es' : List CString} {fuel nextSlash : Nat}

theorem endOf_cons (q d : CString) (es : List CString) : endOf q (d :: es) = endOf d es := by
  cases es <;> rfl

theorem Chain.inside (chain : Chain q es) : q <+: endOf q es := by
  induction es generalizing q with
  | nil => exact List.prefix_rfl
  | cons d es ih =>
    rw [endOf_cons]
    exact chain.1.inside.trans (ih chain.2)

theorem Chain.longer (chain : Chain q (d :: es)) : q.length < (endOf q (d :: es)).length := by
  have inside := (Chain.inside chain.2).length_le
  have longer := chain.1.longer
  rw [endOf_cons]
  omega

theorem Chain.unique (chain : Chain q es) (chain' : Chain q es') (same : endOf q es = endOf q es') : es = es' := by
  induction es generalizing q es' with
  | nil =>
    cases es' with
    | nil => rfl
    | cons d' es' => exact absurd (congrArg List.length same) chain'.longer.ne
  | cons d es ih =>
    cases es' with
    | nil => exact absurd (congrArg List.length same) chain.longer.ne'
    | cons d' es' =>
      rw [endOf_cons, endOf_cons] at same
      obtain rfl : d = d' := chain.1.unique chain'.1 (Chain.inside chain.2) (same ▸ Chain.inside chain'.2)
      rw [ih chain.2 chain'.2 same]

theorem At.chain (here : At path nextSlash q pre rest) (enough : rest.length < fuel) : Chain q (dirsOf pre rest) := by
  induction fuel generalizing q nextSlash pre rest with
  | zero => exact absurd enough (Nat.not_lt_zero _)
  | succ fuel ih =>
    cases found : strchr rest '/' with
    | none =>
      rw [dirsOf_none found]
      trivial
    | some k =>
      rw [dirsOf_some found]
      exact ⟨next_of_strchr here.inside here.start found, ih (here.next found) (rest_lt found enough)⟩

theorem chain_dirs (path : CString) : Chain [] (dirs path) := by
  cases path with
  | nil => trivial
  | cons c path => exact (at_start (List.cons_ne_nil c path)).chain (Nat.lt_succ_self _)

theorem At.endOf (here : At path nextSlash q pre rest) (enough : rest.length < fuel)
    (slash : path.getLast? = some '/') (more : rest ≠ []) : DirTree.endOf q (dirsOf pre rest) = path := by
  induction fuel generalizing q nextSlash pre rest with
  | zero => exact absurd enough (Nat.not_lt_zero _)
  | succ fuel ih =>
    have last : rest.getLast? = some '/' := by
      rwa [here.split, List.getLast?_append_of_ne_nil _ more] at slash
    cases found : strchr rest '/' with
    | none =>
      have := List.findIdx?_eq_none_iff.mp found '/' (List.mem_of_getLast? last)
      simp at this
    | some k =>
      have there := here.next found
      rw [dirsOf_some found, endOf_cons]
      cases left : rest.drop (k + 1) with
      | nil =>
        have whole := there.split
        rw [left, List.append_nil] at whole
        exact whole.symm
      | cons c rest' =>
        rw [← left]
        exact ih there (rest_lt found enough) (by rw [left]; exact List.cons_ne_nil c rest')

theorem endOf_dirs (slash : path.getLast? = some '/') (long : 1 < path.length) : endOf [] (dirs path) = path := by
  have nonempty : path ≠ [] := by
    rintro rfl
    simp at long
  refine (at_start nonempty).endOf (Nat.lt_succ_self _) slash ?_
  rw [ne_eq, List.drop_eq_nil_iff]
  omega

theorem Chain.slash (chain : Chain q es) (some : es ≠ []) :
    (endOf q es).getLast? = Option.some '/' ∧ 1 < (endOf q es).length := by
  induction es generalizing q with
  | nil => exact absurd rfl some
  | cons d es ih =>
    rw [endOf_cons]
    cases es with
    | nil =>
      refine ⟨?_, by have := chain.1.longer; simp only [endOf, List.getLastD_nil]; omega⟩
      rw [List.getLast?_eq_getElem?]
      exact chain.1.slash
    | cons e es => exact ih chain.2 (List.cons_ne_nil e es)

theorem Chain.eq_dirs (chain : Chain [] es) (some : es ≠ []) : es = dirs (endOf [] es) := by
  obtain ⟨slash, long⟩ := chain.slash some
  exact chain.unique (chain_dirs _) (endOf_dirs slash long).symm

end Chains

end PiOS.Proof.DirTree
