import PiOS.Kernel.Fs.Rootfs
import PiOS.Proof.Heap
import PiOS.Proof.Mounts
import PiOS.Transition.Outcome

namespace PiOS.Proof.RootPaths
open Kernel Heap Mounts Transition

def entryPath (c : CreateEntry) : CString := c.pathPrefix ++ c.name

structure RoundTrips (s : Rootfs) (c : CreateEntry) (inode : Nat) : Prop where
  found : ∀ self, (s.rootfsVfsFindInode self (entryPath c)).1 = some inode
  absolute : s.rootfsVfsAbsolutePath inode = some (entryPath c)
  name : (s.inode inode).name = c.name
  routed : s.fs.mounts[c.self]? = some ⟨.rootfs, ['/']⟩ →
    (∀ vnode m, s.fs.mounts[vnode]? = some m → Covers m.absMountPath ('/' :: entryPath c) → vnode = c.self) →
    ∃ path, s.vfsAbsPathAlloc inode = .ok path ∧ (s.fs.findInode path).map Prod.fst = .ok (some inode)

theorem fullPath_eq (pathPrefix name : CString) : fullPath pathPrefix name = pathPrefix ++ name := by
  simp [fullPath, strcpyAt]

theorem find?_of_unique {α : Type*} {p : α → Bool} {l : List α} {a : α} (member : a ∈ l) (holds : p a = true)
    (unique : ∀ b ∈ l, p b = true → b = a) : l.find? p = some a := by
  cases found : l.find? p with
  | none => exact absurd holds (List.find?_eq_none.mp found a member)
  | some b => rw [unique b (List.mem_of_find?_eq_some found) (List.find?_some found)]

structure Created (entries : List (CreateEntry × Nat)) (s : Rootfs) : Prop where
  inList : s.fs.inList = entries.map fun e => (entryPath e.1, e.2)
  ffid : s.ffid = BitVec.ofNat 16 entries.length
  inodes : ∀ n c inode, entries[n]? = some (c, inode) → (s.inode inode).name = c.name ∧
    (s.inode inode).fid = BitVec.ofNat 16 n ∧ (s.fs.kernel.inodes inode).vnode = some c.self
  heap : ∃ live, HeapInv ⟨s.fs.kernel.heap, live⟩ ∧ ∀ e ∈ entries, e.2 ∈ live.map Prod.fst

variable {s s' : Rootfs} {entries new : List (CreateEntry × Nat)} {calls : List CreateEntry} {c : CreateEntry}
  {inode : Nat}

theorem Created.step (done : Created entries s) (returned : s.rootfsCreateEntry c = .ok (inode, s')) :
    Created (entries ++ [(c, inode)]) s' := by
  obtain ⟨live, inv, held⟩ := done.heap
  unfold Rootfs.rootfsCreateEntry at returned
  obtain ⟨⟨ent, heap₁⟩, first, returned⟩ := bind_eq_ok.mp returned
  obtain ⟨⟨node, heap₂⟩, second, returned⟩ := bind_eq_ok.mp returned
  obtain ⟨⟨path, heap₃⟩, third, returned⟩ := bind_eq_ok.mp returned
  obtain ⟨⟨last, heap₄⟩, fourth, returned⟩ := bind_eq_ok.mp returned
  cases returned
  have taken := (inv.kmalloc first).kmalloc second
  -- the new inode is a block of its own beside those of the entries
  have fresh : ∀ e ∈ entries, e.2 ≠ inode := by
    intro e member same
    have distinct := taken.distinct
    rw [List.map_cons, List.nodup_cons] at distinct
    exact distinct.1 (List.mem_cons_of_mem _ (same ▸ held e member))
  refine ⟨?_, ?_, fun n d inode' here => ?_, _, (taken.kmalloc third).kmalloc fourth, fun e member => ?_⟩
  · rw [List.map_append, ← done.inList, List.map_singleton, entryPath, ← fullPath_eq]
    rfl
  · rw [List.length_append, BitVec.ofNat_add, ← done.ffid]
    rfl
  · rcases Nat.lt_trichotomy n entries.length with old | rfl | beyond
    · rw [List.getElem?_append_left old] at here
      have other := fresh _ (List.mem_of_getElem? here)
      simpa [FileSystem.setVnode, FileSystem.setHeap, Function.update_of_ne other] using done.inodes n d inode' here
    · obtain ⟨rfl, rfl⟩ : c = d ∧ inode = inode' := by simpa using here
      simp [FileSystem.setVnode, fullPath_eq, done.ffid]
    · rw [List.getElem?_eq_none (by simp; omega)] at here
      cases here
  · rcases List.mem_append.mp member with old | new
    · have kept := held e old
      simp only [List.map_cons, List.mem_cons]
      exact Or.inr (Or.inr (Or.inr (Or.inr kept)))
    · obtain rfl := List.mem_singleton.mp new
      simp

theorem Created.all (done : Created entries s) (returned : s.createEntries calls = .ok (new, s')) :
    Created (entries ++ new) s' ∧ new.map Prod.fst = calls := by
  induction calls generalizing s entries new with
  | nil =>
    cases returned
    exact ⟨by rwa [List.append_nil], rfl⟩
  | cons c calls ih =>
    obtain ⟨⟨inode, s₁⟩, first, returned⟩ := bind_eq_ok.mp returned
    obtain ⟨⟨more, s₂⟩, rest, returned⟩ := bind_eq_ok.mp returned
    cases returned
    obtain ⟨all, same⟩ := ih (done.step first) rest
    refine ⟨by rwa [List.append_assoc] at all, ?_⟩
    rw [List.map_cons, same]

section Lookup

variable (made : Created entries s) (member : (c, inode) ∈ entries)
include made member

theorem Created.find_path (paths : (entries.map fun e => entryPath e.1).Nodup) :
    s.fs.inList.find? (fun ent => ent.1 = entryPath c) = some (entryPath c, inode) := by
  rw [made.inList]
  refine find?_of_unique (List.mem_map_of_mem member) (by simp) ?_
  intro ent listed same
  obtain ⟨d, there, rfl⟩ := List.mem_map.mp listed
  rw [List.inj_on_of_nodup_map paths there member (of_decide_eq_true same)]

theorem Created.absolutePath (few : entries.length < 0x10000) : s.rootfsVfsAbsolutePath inode = some (entryPath c) := by
  obtain ⟨n, here⟩ := List.mem_iff_getElem?.mp member
  have found : s.fs.inList.find? (fun ent => (s.inode ent.2).fid = (s.inode inode).fid) =
      some (entryPath c, inode) := by
    rw [made.inList]
    refine find?_of_unique (List.mem_map_of_mem member) (by simp) ?_
    intro ent listed same
    obtain ⟨d, there, rfl⟩ := List.mem_map.mp listed
    obtain ⟨m, at_m⟩ := List.mem_iff_getElem?.mp there
    have fids := of_decide_eq_true same
    rw [(made.inodes m _ _ at_m).2.1, (made.inodes n c inode here).2.1] at fids
    have inside := (List.getElem?_eq_some_iff.mp at_m).1
    have inside' := (List.getElem?_eq_some_iff.mp here).1
    have index : m = n := by
      have values := congrArg BitVec.toNat fids
      rwa [word_ofNat_toNat (by omega), word_ofNat_toNat (by omega)] at values
    subst index
    rw [Option.some.inj (at_m.symm.trans here)]
  rw [Rootfs.rootfsVfsAbsolutePath, found, Option.map_some]

theorem Created.roundTrips (few : entries.length < 0x10000) (paths : (entries.map fun e => entryPath e.1).Nodup) :
    RoundTrips s c inode := by
  have absolute := made.absolutePath member few
  have found := made.find_path member paths
  obtain ⟨n, here⟩ := List.mem_iff_getElem?.mp member
  obtain ⟨name, -, vnode⟩ := made.inodes n c inode here
  refine ⟨fun self => ?_, absolute, name, fun root alone => ⟨'/' :: entryPath c, ?_, ?_⟩⟩
  · rw [Rootfs.rootfsVfsFindInode, found]
    rfl
  · simp [Rootfs.vfsAbsPathAlloc, vnode, root, absolute, fullPath_eq]
  · have covers : Covers ['/'] ('/' :: entryPath c) := Or.inr (Or.inl ⟨rfl, List.prefix_append ['/'] _⟩)
    obtain ⟨count, best⟩ := vnodeFor_best s.fs.rooted ('/' :: entryPath c)
    cases chosen : vfsVnodeForIn s.fs.mounts ('/' :: entryPath c) with
    | none =>
      rw [chosen] at best
      exact absurd covers (best.2 _ (List.mem_of_getElem? root))
    | some v =>
      rw [chosen] at best
      obtain ⟨m, at_v, covered, -⟩ := best
      obtain rfl := alone v m at_v covered
      rw [findInode_eq chosen root, regFindInode]
      exact congrArg (fun ent => Except.ok ((s.fs.foundInode c.self (Option.map Prod.snd ent)).1)) found

end Lookup

theorem root_paths_round_trip (s : Rootfs) (ops : List HeapOp) (h : HeapState)
    (reached : run heapStep initHeap ops = some h) (heap : s.fs.kernel.heap = h.memory) (calls : List CreateEntry)
    (few : calls.length < 0x10000) (paths : (calls.map entryPath).Nodup) (s' : Rootfs)
    (entries : List (CreateEntry × Nat)) (returned : s.init.createEntries calls = .ok (entries, s')) :
    entries.map Prod.fst = calls ∧ ∀ c inode, (c, inode) ∈ entries → RoundTrips s' c inode := by
  have inv : HeapInv h := run_invariant (fun _ _ _ => heapStep_inv) heapInv_init reached
  have start : Created [] s.init :=
    ⟨rfl, rfl, nofun, h.live, show HeapInv ⟨s.fs.kernel.heap, h.live⟩ from heap ▸ inv, nofun⟩
  obtain ⟨made, rfl⟩ := start.all returned
  rw [List.length_map] at few
  rw [List.map_map] at paths
  exact ⟨rfl, fun c inode member => made.roundTrips member few paths⟩

def bootRootfs : Rootfs where
  fs := { bootFileSystem fun _ _ => 0 with mounts := [⟨.rootfs, ['/']⟩], rooted := by simp }
  ffid := 0
  inode := fun _ => ⟨[], 0, 0, 0⟩
  getAbs := fun _ _ => none

def deviceEntries : List CreateEntry := [⟨0, [], "dev/".toList, 2⟩, ⟨0, "dev/".toList, "tty".toList, 1⟩]

theorem root_paths_round_trip_devices : ∃ s' inode, (bootRootfs.init.createEntries deviceEntries).map Prod.snd = .ok s' ∧
    RoundTrips s' ⟨0, "dev/".toList, "tty".toList, 1⟩ inode := by
  have goes : (bootRootfs.init.createEntries deviceEntries).toOption.isSome := by decide +kernel
  obtain ⟨⟨entries, s'⟩, here⟩ := Option.isSome_iff_exists.mp goes
  have returned := toOption_eq_some.mp here
  obtain ⟨same, trips⟩ := root_paths_round_trip bootRootfs [] initHeap rfl rfl deviceEntries (by decide) (by decide) s'
    entries returned
  have member : ⟨0, "dev/".toList, "tty".toList, 1⟩ ∈ entries.map Prod.fst := by simp [same, deviceEntries]
  obtain ⟨⟨c, inode⟩, listed, rfl⟩ := List.mem_map.mp member
  exact ⟨s', inode, by rw [returned]; rfl, trips _ inode listed⟩

end PiOS.Proof.RootPaths
