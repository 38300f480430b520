import Mathlib.Data.List.Infix
import PiOS.Kernel.Fs.FileSystem

namespace PiOS.Proof.Mounts
open Kernel

def Covers (mountPath path : CString) : Prop :=
  path = mountPath ∨ (mountPath.getLast? = some '/' ∧ mountPath <+: path) ∨ mountPath ++ ['/'] <+: path
deriving Decidable

section Match

variable {mountPath path : CString} {init rest : CString} {last : Char}

theorem Covers.pre (covers : Covers mountPath path) : mountPath <+: path := by
  rcases covers with rfl | ⟨-, pre⟩ | pre
  · exact List.prefix_rfl
  · exact pre
  · exact (List.prefix_append _ _).trans pre

theorem covers_append_iff :
    Covers (init ++ [last]) (init ++ [last] ++ rest) ↔ last = '/' ∨ rest = [] ∨ rest.head? = some '/' := by
  unfold Covers
  rw [List.prefix_append_right_inj, List.getLast?_concat]
  cases rest with
  | nil => simp
  | cons c rest => simp [List.cons_prefix_cons, eq_comm]

theorem strncmpSame_append_iff {rest : CString} {count : Nat} :
    strncmpSame mountPath (mountPath ++ rest) count = true ↔ count ≤ mountPath.length ∨ rest = [] := by
  unfold strncmpSame
  rw [decide_eq_true_eq]
  by_cases small : count ≤ mountPath.length
  · simp [small, List.take_append_of_le_length]
  · obtain ⟨more, rfl⟩ := Nat.exists_eq_add_of_lt (Nat.lt_of_not_le small)
    rw [Nat.add_assoc, List.take_length_add_append, List.take_of_length_le (by omega), List.self_eq_append_right]
    simp

theorem segmentEnd_iff :
    strncmpSame (init ++ [last]) (init ++ [last] ++ rest) (segmentEnd (init ++ [last]) (init ++ [last] ++ rest)) = true ↔
      last = '/' ∨ rest = [] ∨ rest.head? = some '/' := by
  have length : (init ++ [last]).length - 1 = init.length := by simp
  have behind : (init ++ [last] ++ rest).drop init.length = last :: rest := by simp
  rw [strncmpSame_append_iff]
  unfold segmentEnd strchr
  rw [length, behind, List.findIdx?_cons]
  by_cases slash : last = '/'
  · simp [slash]
  · cases rest with
    | nil => simp [slash]
    | cons c rest =>
      by_cases next : c = '/'
      · simp [slash, next, List.findIdx?_cons]
      · cases found : rest.findIdx? (· = '/') with
        | none | some => simp [slash, next, List.findIdx?_cons, found]

theorem match_iff_covers (rooted : mountPath.head? = some '/') : strncmpSame mountPath path mountPath.length = true ∧
      strncmpSame mountPath path (segmentEnd mountPath path) = true ↔ Covers mountPath path := by
  have whole : strncmpSame mountPath path mountPath.length = true ↔ mountPath <+: path := by
    simp [strncmpSame, List.prefix_iff_eq_take]
  have nonempty : mountPath ≠ [] := by
    rintro rfl
    cases rooted
  rw [whole]
  constructor
  · rintro ⟨⟨rest, rfl⟩, same⟩
    rw [← List.dropLast_append_getLast nonempty] at same ⊢
    exact covers_append_iff.mpr (segmentEnd_iff.mp same)
  · intro covers
    refine ⟨covers.pre, ?_⟩
    obtain ⟨rest, rfl⟩ := covers.pre
    rw [← List.dropLast_append_getLast nonempty] at covers ⊢
    exact segmentEnd_iff.mpr (covers_append_iff.mp covers)

end Match

def Best (mounts : List Mount) (path : CString) : Option Nat × Nat → Prop
  | (none, count) => count = 0 ∧ ∀ m ∈ mounts, ¬ Covers m.absMountPath path
  | (some vnode, count) => ∃ m, mounts[vnode]? = some m ∧ Covers m.absMountPath path ∧
      count = strcnt m.absMountPath '/' ∧
      (∀ n ∈ mounts, Covers n.absMountPath path → strcnt n.absMountPath '/' ≤ count) ∧
      ∀ i < vnode, ∀ n, mounts[i]? = some n → Covers n.absMountPath path → strcnt n.absMountPath '/' < count

section Loop

variable {mounts : List Mount} {path : CString} {best : Option Nat × Nat} {m : Mount}

theorem strcnt_pos {mountPath : CString} (rooted : mountPath.head? = some '/') : 0 < strcnt mountPath '/' :=
  List.count_pos_iff.mpr (List.mem_of_mem_head? rooted)

theorem vnodeForTurn_eq (rooted : m.absMountPath.head? = some '/') (best : Option Nat × Nat) (vnode : Nat) :
    vnodeForTurn path best (m, vnode) = if best.2 < strcnt m.absMountPath '/' ∧ Covers m.absMountPath path then
        (some vnode, strcnt m.absMountPath '/') else best := by
  unfold vnodeForTurn
  simp only [match_iff_covers rooted, gt_iff_lt]

theorem Best.le (found : Best mounts path best) {n : Mount} (member : n ∈ mounts)
    (covers : Covers n.absMountPath path) : strcnt n.absMountPath '/' ≤ best.2 := by
  rcases best with ⟨_ | vnode, count⟩
  · exact absurd covers (found.2 n member)
  · obtain ⟨_, -, -, -, most, -⟩ := found
    exact most n member covers

theorem Best.turn (found : Best mounts path best) (rooted : m.absMountPath.head? = some '/') :
    Best (mounts ++ [m]) path (vnodeForTurn path best (m, mounts.length)) := by
  rw [vnodeForTurn_eq rooted]
  split
  case isTrue better =>
    obtain ⟨more, covers⟩ := better
    refine ⟨m, by simp, covers, rfl, ?_, ?_⟩
    · intro n member covered
      rcases List.mem_append.mp member with before | new
      · exact (found.le before covered).trans more.le
      · obtain rfl := List.mem_singleton.mp new
        exact le_rfl
    · intro i before n at_i covered
      rw [List.getElem?_append_left before] at at_i
      exact (found.le (List.mem_of_getElem? at_i) covered).trans_lt more
  case isFalse worse =>
    have bound : Covers m.absMountPath path → strcnt m.absMountPath '/' ≤ best.2 :=
      fun covers => Nat.le_of_not_lt fun more => worse ⟨more, covers⟩
    rcases best with ⟨_ | vnode, count⟩
    · refine ⟨found.1, ?_⟩
      intro n member covered
      rcases List.mem_append.mp member with before | new
      · exact found.2 n before covered
      · obtain rfl := List.mem_singleton.mp new
        have none := bound covered
        have some := strcnt_pos rooted
        rw [found.1] at none
        omega
    · obtain ⟨b, at_vnode, covers, same, most, first⟩ := found
      have inside : vnode < mounts.length := (List.getElem?_eq_some_iff.mp at_vnode).1
      refine ⟨b, ?_, covers, same, ?_, ?_⟩
      · rw [List.getElem?_append_left inside]
        exact at_vnode
      · intro n member covered
        rcases List.mem_append.mp member with before | new
        · exact most n before covered
        · obtain rfl := List.mem_singleton.mp new
          exact bound covered
      · intro i before n at_i covered
        rw [List.getElem?_append_left (before.trans inside)] at at_i
        exact first i before n at_i covered

section

variable (rooted : ∀ m ∈ mounts, m.absMountPath.head? = some '/')
include rooted

theorem best_of_loop : Best mounts path (mounts.zipIdx.foldl (vnodeForTurn path) (none, 0)) := by
  induction mounts using List.reverseRecOn with
  | nil => exact ⟨rfl, fun _ member => absurd member List.not_mem_nil⟩
  | append_singleton mounts m ih =>
    rw [List.zipIdx_append, List.foldl_append]
    have before := ih fun n member => rooted n (List.mem_append_left _ member)
    have turn := before.turn (rooted m (by simp))
    simpa using turn

theorem vnodeFor_best (path : CString) : ∃ count, Best mounts path (vfsVnodeForIn mounts path, count) :=
  ⟨_, best_of_loop rooted⟩

theorem vnodeFor_none_iff : vfsVnodeForIn mounts path = none ↔ ∀ m ∈ mounts, ¬ Covers m.absMountPath path := by
  obtain ⟨count, best⟩ := vnodeFor_best rooted path
  cases found : vfsVnodeForIn mounts path with
  | none =>
    rw [found] at best
    exact iff_of_true rfl best.2
  | some vnode =>
    rw [found] at best
    obtain ⟨m, at_vnode, covers, -⟩ := best
    exact iff_of_false nofun fun none => none m (List.mem_of_getElem? at_vnode) covers

end

end Loop

def regFindInode (s : FileSystem) (reg : Driver) (vnode : Nat) (whole vnodeLocalPath : CString) :
    Except Stop (Option Nat × FileSystem) :=
  match reg with
  | .rootfs => .ok (s.foundInode vnode ((s.inList.find? fun ent => ent.1 = vnodeLocalPath).map Prod.snd))
  | .tmp => s.tmpFindInode vnode vnodeLocalPath
  | .tar => .ok (s.foundInode vnode (dirTreeGetFile s.tarDirTree whole vnodeLocalPath))
  | driver => .ok (s.foundInode vnode driver.rootInode)

theorem findInode_eq {s : FileSystem} {path : CString} {vnode : Nat} {m : Mount}
    (found : vfsVnodeForIn s.mounts path = some vnode) (at_vnode : s.mounts[vnode]? = some m) :
    s.findInode path = regFindInode s m.reg vnode path (path.drop m.absMountPath.length) := by
  unfold FileSystem.findInode regFindInode
  cases reg : m.reg <;> simp only [found, at_vnode, reg]

theorem findInode_at_covering_mount (s : FileSystem) (path : CString) :
    (vfsVnodeForIn s.mounts path = none ↔ ∀ m ∈ s.mounts, ¬ Covers m.absMountPath path) ∧
      (vfsVnodeForIn s.mounts path = none → s.findInode path = .ok (none, s)) ∧
      ∀ vnode, vfsVnodeForIn s.mounts path = some vnode →
        ∃ m rest, s.mounts[vnode]? = some m ∧ Covers m.absMountPath path ∧ path = m.absMountPath ++ rest ∧
          s.findInode path = regFindInode s m.reg vnode path rest := by
  refine ⟨vnodeFor_none_iff s.rooted, ?_, ?_⟩
  · intro nowhere
    unfold FileSystem.findInode
    simp only [nowhere]
  · intro vnode found
    obtain ⟨count, best⟩ := vnodeFor_best s.rooted path
    rw [found] at best
    obtain ⟨m, at_vnode, covers, -⟩ := best
    obtain ⟨rest, split⟩ := covers.pre
    have local_path : path.drop m.absMountPath.length = rest := by rw [← split, List.drop_left]
    refine ⟨m, rest, at_vnode, covers, split.symm, ?_⟩
    rw [findInode_eq found at_vnode, local_path]

example : ¬ Covers "/dev/tty".toList "/dev/ttyS0".toList := by decide

def mountFor (mounts : List Mount) (path : CString) : Option Mount :=
  (vfsVnodeForIn mounts path).bind fun vnode => mounts[vnode]?

/-- Among the mounts that cover the path, one with the longest mount path. -/
def MostSpecific (mounts : List Mount) (path : CString) : Option Mount → Prop
  | none => ∀ m ∈ mounts, ¬ Covers m.absMountPath path
  | some m => m ∈ mounts ∧ Covers m.absMountPath path ∧
      ∀ n ∈ mounts, Covers n.absMountPath path → n.absMountPath.length ≤ m.absMountPath.length

structure MountTable where
  mounts : List Mount
  rooted : ∀ m ∈ mounts, m.absMountPath.head? = some '/'
  distinct : (mounts.map Mount.absMountPath).Nodup

def OrderFree (t : MountTable) : Prop :=
  ∀ path, ∃ result, MostSpecific t.mounts path result ∧
    ∀ order, order.Perm t.mounts → mountFor order path = result

def EntryOf (directory entry : CString) : Prop :=
  directory.getLast? = some '/' ∧ ∃ component, component ≠ [] ∧ '/' ∉ component ∧ entry = directory ++ component

section Specific

variable {mounts : List Mount} {path : CString}

theorem strcnt_lt {shorter longer : CString} (covers : Covers shorter path) (covers' : Covers longer path)
    (less : shorter.length < longer.length) (apart : ¬ EntryOf shorter longer) :
    strcnt shorter '/' < strcnt longer '/' := by
  obtain ⟨component, rfl⟩ := List.prefix_of_prefix_length_le covers.pre covers'.pre less.le
  have nonempty : component ≠ [] := by
    rintro rfl
    simp at less
  have slash : '/' ∈ component := by
    by_contra none
    have pre := covers'.pre
    rcases covers with rfl | ⟨final, -⟩ | next
    · have := pre.length_le
      omega
    · exact apart ⟨final, component, nonempty, none, rfl⟩
    · have le : (shorter ++ ['/']).length ≤ (shorter ++ component).length := by
        rw [List.length_append]
        exact less
      have := List.prefix_of_prefix_length_le next pre le
      rw [List.prefix_append_right_inj] at this
      exact none (this.subset (List.mem_singleton_self _))
  have more : 0 < component.count '/' := List.count_pos_iff.mpr slash
  unfold strcnt
  rw [List.count_append]
  omega

theorem mountFor_mostSpecific (rooted : ∀ m ∈ mounts, m.absMountPath.head? = some '/')
    (apart : ∀ m ∈ mounts, ∀ n ∈ mounts, ¬ EntryOf m.absMountPath n.absMountPath) :
    MostSpecific mounts path (mountFor mounts path) := by
  obtain ⟨count, best⟩ := vnodeFor_best rooted path
  unfold mountFor
  cases found : vfsVnodeForIn mounts path with
  | none =>
    rw [found] at best
    exact best.2
  | some vnode =>
    rw [found] at best
    obtain ⟨m, at_vnode, covers, rfl, most, -⟩ := best
    rw [Option.bind_some, at_vnode]
    refine ⟨List.mem_of_getElem? at_vnode, covers, ?_⟩
    intro n member covered
    by_contra longer
    have more := strcnt_lt covers covered (Nat.lt_of_not_le longer) (apart _ (List.mem_of_getElem? at_vnode) n member)
    have := most n member covered
    omega

theorem MostSpecific.unique {result result' : Option Mount} (distinct : (mounts.map Mount.absMountPath).Nodup)
    (specific : MostSpecific mounts path result) (specific' : MostSpecific mounts path result') : result = result' := by
  rcases result with _ | m <;> rcases result' with _ | m'
  · rfl
  · exact absurd specific'.2.1 (specific m' specific'.1)
  · exact absurd specific.2.1 (specific' m specific.1)
  · obtain ⟨member, covers, most⟩ := specific
    obtain ⟨member', covers', most'⟩ := specific'
    have length := le_antisymm (most' m member covers) (most m' member' covers')
    have same : m.absMountPath = m'.absMountPath :=
      (List.prefix_of_prefix_length_le covers.pre covers'.pre length.le).eq_of_length length
    rw [List.inj_on_of_nodup_map distinct member member' same]

theorem MostSpecific.perm {order : List Mount} {result : Option Mount} (same : order.Perm mounts)
    (specific : MostSpecific order path result) : MostSpecific mounts path result := by
  cases result with
  | none => exact fun m member => specific m (same.mem_iff.mpr member)
  | some m =>
    obtain ⟨member, covers, most⟩ := specific
    exact ⟨same.mem_iff.mp member, covers, fun n member' => most n (same.mem_iff.mpr member')⟩

theorem mountFor_directory {directory entry : Mount} {others : List Mount}
    (rooted : ∀ m ∈ directory :: others, m.absMountPath.head? = some '/')
    (inside : EntryOf directory.absMountPath entry.absMountPath) {m : Mount}
    (found : mountFor (directory :: others) entry.absMountPath = some m) : m.absMountPath ≠ entry.absMountPath := by
  intro same
  obtain ⟨final, component, nonempty, none, split⟩ := inside
  obtain ⟨count, best⟩ := vnodeFor_best rooted entry.absMountPath
  obtain ⟨vnode, vnodeFor, at_vnode⟩ := Option.bind_eq_some_iff.mp found
  rw [vnodeFor] at best
  obtain ⟨m', at_vnode', -, rfl, -, first⟩ := best
  obtain rfl := Option.some.inj (at_vnode.symm.trans at_vnode')
  have covered : Covers directory.absMountPath entry.absMountPath :=
    Or.inr (Or.inl ⟨final, split ▸ List.prefix_append _ _⟩)
  cases vnode with
  | zero =>
    obtain rfl := Option.some.inj at_vnode
    rw [same] at split
    exact nonempty (List.self_eq_append_right.mp split)
  | succ vnode =>
    have less := first 0 (Nat.succ_pos vnode) directory rfl covered
    have equal : strcnt directory.absMountPath '/' = strcnt m.absMountPath '/' := by
      unfold strcnt
      rw [same, split, List.count_append, List.count_eq_zero.mpr none, Nat.add_zero]
    omega

end Specific

/-- A directory and an entry mounted without a final slash have as many slashes, and the first one is taken. -/
theorem vnodeFor_orderFree_iff (t : MountTable) :
    OrderFree t ↔ ∀ m ∈ t.mounts, ∀ n ∈ t.mounts, ¬ EntryOf m.absMountPath n.absMountPath := by
  constructor
  · intro free directory member entry member' inside
    obtain ⟨before, behind, split⟩ := List.append_of_mem member
    have perm : (directory :: (before ++ behind)).Perm t.mounts := split ▸ List.perm_middle.symm
    obtain ⟨result, specific, same⟩ := free entry.absMountPath
    have found := same _ perm
    cases result with
    | none => exact specific entry member' (Or.inl rfl)
    | some m =>
      obtain ⟨-, covers, most⟩ := specific
      have longest := most entry member' (Or.inl rfl)
      apply mountFor_directory (fun n here => t.rooted n (perm.mem_iff.mp here)) inside found
      exact covers.pre.eq_of_length (le_antisymm covers.pre.length_le longest)
  · intro apart path
    refine ⟨_, mountFor_mostSpecific t.rooted apart, ?_⟩
    intro order perm
    have specific : MostSpecific order path (mountFor order path) := by
      apply mountFor_mostSpecific
      · exact fun m member => t.rooted m (perm.mem_iff.mp member)
      · exact fun m member n member' => apart m (perm.mem_iff.mp member) n (perm.mem_iff.mp member')
    exact (specific.perm perm).unique t.distinct (mountFor_mostSpecific t.rooted apart)

def rootAndEntry : MountTable where
  mounts := [⟨.rootfs, ['/']⟩, ⟨.tty, ['/', 'a']⟩]
  rooted := by simp
  distinct := by simp

theorem vnodeFor_not_orderFree :
    vfsVnodeForIn rootAndEntry.mounts ['/', 'a'] = some 0 ∧
      vfsVnodeForIn rootAndEntry.mounts.reverse ['/', 'a'] = some 0 ∧ ¬ OrderFree rootAndEntry := by
  refine ⟨by decide, by decide, ?_⟩
  intro free
  obtain ⟨result, -, same⟩ := free ['/', 'a']
  have first := same rootAndEntry.mounts (List.Perm.refl _)
  have second := same rootAndEntry.mounts.reverse (List.reverse_perm _)
  have paths := congrArg (Option.map Mount.absMountPath) (first.trans second.symm)
  revert paths
  decide

end PiOS.Proof.Mounts
