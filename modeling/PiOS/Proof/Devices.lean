import PiOS.Kernel.Fs.Mount
import PiOS.Transition.Outcome
import PiOS.Transition.Run

namespace PiOS.Proof.Devices
open Kernel Transition Function

def devicePaths : List (CString × Driver) :=
  [("/dev/tty".toList, .tty), ("/dev/log".toList, .sio), ("/dev/kbd".toList, .kbd),
    ("/dev/ttyS0".toList, .serial1), ("/dev/ttyS1".toList, .serial2), ("/dev/i2c".toList, .i2c)]

def deviceAt (path : CString) : Option Driver := (devicePaths.find? (·.1 = path)).map Prod.snd

structure Wanted (ι : Type) where
  device : ι → Fin 16 → Option Driver
  drivers : DriverState

section

variable {ι : Type} [DecidableEq ι]

def Wanted.setDevice (wanted : Wanted ι) (i : ι) (fd : Fin 16) (device : Option Driver) : Wanted ι :=
  { wanted with device := update wanted.device i (update (wanted.device i) fd device) }

def Wanted.deviceFor (wanted : Wanted ι) (i : ι) (fd : Word) (actual : Driver) : Driver :=
  if inside : fd.toNat < 16 then (wanted.device i ⟨fd.toNat, inside⟩).getD actual else actual

def noteDevice (wanted : Wanted ι) (s : DeviceState ι) : DeviceAction ι → DeviceState ι → Wanted ι
  | .open i path found, _ =>
    match procFreeFd (s.files i), (s.vfsFindInode path found).1 with
    | some fd, some _ => wanted.setDevice i fd (deviceAt path)
    | _, _ => wanted
  | .close _ _, _ => wanted
  | .write i fd req, _ =>
    if validateFd fd = false then
      wanted
    else
      match s.fileDriver i fd with
      | .error _ => wanted
      | .ok actual =>
        match (wanted.deviceFor i fd actual).submit wanted.drivers { req with type := vfsAsyncTypeWrite } with
        | .error _ => wanted
        | .ok drivers => { wanted with drivers := drivers }

def wantedStep : DeviceState ι × Wanted ι → DeviceAction ι → Option (DeviceState ι × Wanted ι) :=
  watch deviceStep noteDevice

def WritesReach (w : DeviceState ι × Wanted ι) : Prop := w.1.drivers = w.2.drivers

def isSerial (driver : Driver) : Bool := driver = .serial1 ∨ driver = .serial2

def LinesApart (w : DeviceState ι × Wanted ι) : DeviceAction ι → Prop
  | .open _ path _ =>
    ((vfsVnodeFor path).bind vnodeReg).any isSerial →
      (∀ j fd, (w.1.files j fd).inode ≠ Driver.serial1.rootInode) ∨
        Driver.serial1.rootInode.bind w.1.inodeVnode = vfsVnodeFor path
  | _ => True

instance [Fintype ι] (w : DeviceState ι × Wanted ι) (action : DeviceAction ι) : Decidable (LinesApart w action) := by
  cases action <;> unfold LinesApart <;> infer_instance

variable {device : Driver} {j : ι} {s' : DeviceState ι} {fd' : Fin 16}

theorem deviceAt_vnode {path : CString} (here : deviceAt path = some device) :
    (vfsVnodeFor path).bind vnodeReg = some device := by
  obtain ⟨entry, found, rfl⟩ := Option.map_eq_some_iff.1 here
  have known : ∀ e ∈ devicePaths, (vfsVnodeFor e.1).bind vnodeReg = some e.2 := by decide +kernel
  have same : entry.1 = path := by simpa using List.find?_some found
  rw [← same]
  exact known entry (List.mem_of_find?_eq_some found)

theorem deviceAt_rootInode {path : CString} (here : deviceAt path = some device) : device.rootInode ≠ none := by
  obtain ⟨entry, found, rfl⟩ := Option.map_eq_some_iff.1 here
  have known : ∀ e ∈ devicePaths, e.2.rootInode ≠ none := by decide
  exact known entry (List.mem_of_find?_eq_some found)

theorem rootInode_shared {first second : Driver} (some_inode : first.rootInode ≠ none)
    (same : first.rootInode = second.rootInode) : first = second ∨ isSerial first ∧ isSerial second := by
  cases first <;> cases second <;> simp_all [Driver.rootInode, isSerial]

structure DeviceInv (w : DeviceState ι × Wanted ι) : Prop where
  reach : w.1.drivers = w.2.drivers
  root : ∀ i fd d, w.2.device i fd = some d → d.rootInode ≠ none
  device : ∀ i fd d inode, w.2.device i fd = some d → (w.1.files i fd).inode = some inode →
    (w.1.inodeVnode inode).bind vnodeReg = some d
  home : ∀ inode d, (w.1.inodeVnode inode).bind vnodeReg = some d →
    d.rootInode = some inode ∨ d.rootInode = none ∧ deviceInodes ≤ inode

variable {s : DeviceState ι} {wanted : Wanted ι} {i : ι} {path : CString} {found : Option Nat} {fd : Fin 16}
  {inode : Nat}

theorem rootInode_lt (root : device.rootInode = some inode) : inode < deviceInodes := by
  cases device <;> simp_all [Driver.rootInode, deviceInodes] <;> omega

theorem rootInode_serial (serial : isSerial device) : device.rootInode = Driver.serial1.rootInode := by
  cases device <;> first | rfl | cases serial

omit [DecidableEq ι] in
theorem vfsFindInode_none (none_found : (s.vfsFindInode path found).1 = none) : (s.vfsFindInode path found).2 = s := by
  unfold DeviceState.vfsFindInode at none_found ⊢
  split at none_found
  · rfl
  · split at none_found
    · rfl
    · cases none_found

omit [DecidableEq ι] in
theorem vfsFindInode_some (has : (s.vfsFindInode path found).1 = some inode) :
    ∃ vnode, vfsVnodeFor path = some vnode ∧
      (s.vfsFindInode path found).2 = { s with inodeVnode := update s.inodeVnode inode (some vnode) } ∧
      ((∃ d, vnodeReg vnode = some d ∧ d.rootInode = some inode) ∨
        (vnodeReg vnode).bind Driver.rootInode = none ∧ deviceInodes ≤ inode) := by
  unfold DeviceState.vfsFindInode at has ⊢
  split at has
  · cases has
  · rename_i vnode at_path
    split at has
    · cases has
    · rename_i target chosen
      obtain rfl := Option.some.inj has
      refine ⟨vnode, at_path, rfl, ?_⟩
      cases root : (vnodeReg vnode).bind Driver.rootInode with
      | some inode =>
        rw [root, Option.some_or] at chosen
        obtain ⟨d, reg, has⟩ := Option.bind_eq_some_iff.1 root
        exact Or.inl ⟨d, reg, has.trans chosen⟩
      | none =>
        rw [root, Option.none_or] at chosen
        obtain ⟨n, -, rfl⟩ := Option.map_eq_some_iff.1 chosen
        exact Or.inr ⟨rfl, Nat.le_add_right _ _⟩

omit [DecidableEq ι] in
theorem DeviceInv.kept (inv : DeviceInv (s, wanted)) (apart : LinesApart (s, wanted) (.open i path found))
    {vnode : Nat} (at_path : vfsVnodeFor path = some vnode)
    (owner : (∃ d, vnodeReg vnode = some d ∧ d.rootInode = some inode) ∨
      (vnodeReg vnode).bind Driver.rootInode = none ∧ deviceInodes ≤ inode)
    {fd : Fin 16} {d : Driver} (device : wanted.device j fd = some d)
    (opened : (s.files j fd).inode = some inode) : vnodeReg vnode = some d := by
  have before := inv.device j fd d inode device opened
  have root : d.rootInode = some inode := by
    rcases inv.home inode d before with root | ⟨absent, -⟩
    · exact root
    · exact absurd absent (inv.root j fd d device)
  rcases owner with ⟨d', reg, root'⟩ | ⟨-, large⟩
  · rcases rootInode_shared (inv.root j fd d device) (root.trans root'.symm) with rfl | ⟨serial, serial'⟩
    · exact reg
    · -- the one inode of both lines
      have shared : Driver.serial1.rootInode = some inode := (rootInode_serial serial).symm.trans root
      rcases apart (by rw [at_path, Option.bind_some, reg]; exact serial') with closed | same
      · exact absurd (opened.trans shared.symm) (closed j fd)
      · rw [shared, Option.bind_some, at_path] at same
        rwa [show s.inodeVnode inode = some vnode from same] at before
  · exact absurd (rootInode_lt root) (Nat.not_lt.2 large)

theorem sysOpen_cases (wanted : Wanted ι) (opens : s.sysOpen i path found = s') :
    s' = s ∧ noteDevice wanted s (.open i path found) s' = wanted ∨
      ∃ fd inode vnode, vfsVnodeFor path = some vnode ∧
        ((∃ d, vnodeReg vnode = some d ∧ d.rootInode = some inode) ∨
          (vnodeReg vnode).bind Driver.rootInode = none ∧ deviceInodes ≤ inode) ∧
        s' = { s with
          files := update s.files i (update (s.files i) fd ⟨some inode, 0, 0, none⟩)
          inodeVnode := update s.inodeVnode inode (some vnode) } ∧
        noteDevice wanted s (.open i path found) s' = wanted.setDevice i fd (deviceAt path) := by
  subst opens
  cases free : procFreeFd (s.files i) with
  | none => exact Or.inl (by simp only [DeviceState.sysOpen, noteDevice, free, and_self])
  | some fd =>
    cases has : (s.vfsFindInode path found).1 with
    | none =>
      have same := vfsFindInode_none has
      exact Or.inl (by
        simp only [DeviceState.sysOpen, noteDevice, free, has, same, vfsOpen, update_eq_self, and_self])
    | some inode =>
      obtain ⟨vnode, at_path, state, owner⟩ := vfsFindInode_some has
      exact Or.inr ⟨fd, inode, vnode, at_path, owner, by
        simp only [DeviceState.sysOpen, noteDevice, free, has, state, vfsOpen, and_self]⟩

theorem setDevice_cases {device : Option Driver} {d : Driver}
    (noted : (wanted.setDevice i fd device).device j fd' = some d) :
    j = i ∧ fd' = fd ∧ device = some d ∨ ¬(j = i ∧ fd' = fd) ∧ wanted.device j fd' = some d := by
  by_cases self : j = i
  · subst self
    by_cases same : fd' = fd
    · subst same
      exact Or.inl ⟨rfl, rfl, by simpa [Wanted.setDevice] using noted⟩
    · refine Or.inr ⟨fun both => same both.2, ?_⟩
      simpa [Wanted.setDevice, update_of_ne same] using noted
  · refine Or.inr ⟨fun both => self both.1, ?_⟩
    simpa [Wanted.setDevice, update_of_ne self] using noted

theorem files_other {files : ι → FdTable} {file : ProcFile} (other : ¬(j = i ∧ fd' = fd)) :
    update files i (update (files i) fd file) j fd' = files j fd' := by
  by_cases self : j = i
  · subst self
    have different : fd' ≠ fd := fun same => other ⟨rfl, same⟩
    rw [update_self, update_of_ne different]
  · rw [update_of_ne self]

theorem open_inv (inv : DeviceInv (s, wanted)) (apart : LinesApart (s, wanted) (.open i path found)) :
    DeviceInv (s.sysOpen i path found, noteDevice wanted s (.open i path found) (s.sysOpen i path found)) := by
  rcases sysOpen_cases wanted rfl with ⟨same, noted⟩ | ⟨fd, inode, vnode, at_path, owner, opened, noted⟩
  · rw [noted, same]
    exact inv
  · rw [noted, opened]
    refine ⟨inv.reach, fun j fd' d device => ?_, fun j fd' d inode' device has => ?_, fun inode' d reg => ?_⟩
    · rcases setDevice_cases device with ⟨-, -, here⟩ | ⟨-, old⟩
      · exact deviceAt_rootInode here
      · exact inv.root j fd' d old
    · dsimp only at has ⊢
      rcases setDevice_cases device with ⟨rfl, rfl, here⟩ | ⟨other, old⟩
      · have reg := deviceAt_vnode here
        simp only [update_self, Option.some.injEq] at has
        rw [← has, update_self, ← at_path]
        exact reg
      · rw [files_other other] at has
        by_cases target : inode' = inode
        · subst target
          rw [update_self]
          exact inv.kept apart at_path owner old has
        · rw [update_of_ne target]
          exact inv.device j fd' d inode' old has
    · dsimp only at reg
      by_cases target : inode' = inode
      · subst target
        rw [update_self, Option.bind_some] at reg
        rcases owner with ⟨d', reg', root⟩ | ⟨absent, large⟩
        · obtain rfl := Option.some.inj (reg.symm.trans reg')
          exact Or.inl root
        · rw [reg, Option.bind_some] at absent
          exact Or.inr ⟨absent, large⟩
      · rw [update_of_ne target] at reg
        exact inv.home inode' d reg

theorem vfsClose_inode {files files' : FdTable} {fd rc : Word} (closed : vfsClose files fd = .ok (rc, files'))
    (opened : (files' fd').inode = some inode) : (files fd').inode = some inode := by
  obtain ⟨file, -, rest⟩ := bind_eq_ok.1 closed
  split at rest
  · cases rest
    exact opened
  · obtain ⟨stored, store, rest⟩ := bind_eq_ok.1 rest
    cases rest
    unfold storeFile at store
    split at store
    · cases store
      rename_i inside
      by_cases same : fd' = ⟨fd.toNat, inside⟩
      · rw [same, update_self] at opened
        cases opened
      · rwa [update_of_ne same] at opened
    · cases store

theorem close_inv {fd : Word} (inv : DeviceInv (s, wanted)) (closed : s.sysClose i fd = .ok s') :
    DeviceInv (s', wanted) := by
  unfold DeviceState.sysClose at closed
  split at closed
  · cases closed
    exact inv
  · obtain ⟨⟨rc, files⟩, close, rfl⟩ := map_eq_ok.1 closed
    refine ⟨inv.reach, inv.root, fun j fd' d inode device opened => ?_, inv.home⟩
    refine inv.device j fd' d inode device ?_
    by_cases self : j = i
    · subst self
      simp only [update_self] at opened
      exact vfsClose_inode close opened
    · simpa only [update_of_ne self] using opened

omit [DecidableEq ι] in
theorem DeviceInv.deviceFor_eq (inv : DeviceInv (s, wanted)) {fd : Word} {actual : Driver}
    (reached : s.fileDriver i fd = .ok actual) : wanted.deviceFor i fd actual = actual := by
  obtain ⟨file, deref, rest⟩ := bind_eq_ok.1 reached
  unfold derefFile at deref
  split at deref
  · rename_i inside
    cases deref
    rw [Wanted.deviceFor, dif_pos inside]
    split at rest
    · cases rest
    · rename_i driver at_file
      obtain rfl := Except.ok.inj rest
      obtain ⟨vnode, at_inode, reg⟩ := Option.bind_eq_some_iff.1 at_file
      obtain ⟨inode, opened, at_vnode⟩ := Option.bind_eq_some_iff.1 at_inode
      cases noted : wanted.device i ⟨fd.toNat, inside⟩ with
      | none => rfl
      | some d =>
        have device := inv.device i _ d inode noted opened
        rw [show s.inodeVnode inode = some vnode from at_vnode, Option.bind_some] at device
        exact Option.some.inj (device.symm.trans reg)
  · cases deref

theorem write_inv {fd : Word} {req : AsyncReq} (inv : DeviceInv (s, wanted))
    (written : s.sysWrite i fd req = .ok s') : DeviceInv (s', noteDevice wanted s (.write i fd req) s') := by
  unfold DeviceState.sysWrite at written
  split at written
  · rename_i invalid
    cases written
    rwa [noteDevice, if_pos invalid]
  · rename_i valid
    obtain ⟨driver, reached, rest⟩ := bind_eq_ok.1 written
    obtain ⟨drivers, submitted, rest⟩ := bind_eq_ok.1 rest
    cases rest
    have noted : noteDevice wanted s (.write i fd req) { s with drivers := drivers } =
        { wanted with drivers := drivers } := by
      have same : wanted.drivers = s.drivers := inv.reach.symm
      simp only [noteDevice, if_neg valid, reached, inv.deviceFor_eq reached, same, submitted]
    rw [noted]
    exact ⟨rfl, inv.root, inv.device, inv.home⟩

theorem step_deviceInv {w w' : DeviceState ι × Wanted ι} {action : DeviceAction ι} (inv : DeviceInv w)
    (apart : LinesApart w action) (taken : wantedStep w action = some w') : DeviceInv w' := by
  obtain ⟨s, wanted⟩ := w
  obtain ⟨s', wanted'⟩ := w'
  obtain ⟨step, noted⟩ := watch_eq_some taken
  dsimp only at step noted
  subst noted
  cases action with
  | «open» i path found =>
    obtain rfl := Option.some.inj step
    exact open_inv inv apart
  | close i fd => exact close_inv inv (toOption_eq_some.1 step)
  | write i fd req => exact write_inv inv (toOption_eq_some.1 step)

theorem writes_reach_of_lines_apart (drivers : DriverState) (actions : List (DeviceAction ι))
    (apart : Guarded wantedStep LinesApart (deviceStart ι drivers, ⟨fun _ _ => none, drivers⟩) actions) :
    Throughout wantedStep WritesReach (deviceStart ι drivers, ⟨fun _ _ => none, drivers⟩) actions := by
  have initial : DeviceInv (deviceStart ι drivers, ⟨fun _ _ => none, drivers⟩) := ⟨rfl, nofun, nofun, nofun⟩
  have kept := throughout_of_guarded (fun _ _ _ inv apart taken => step_deviceInv inv apart taken) initial apart
  exact throughout_mono (fun w inv => inv.reach) kept

end

def idleDrivers : DriverState := driversInit (fun _ => []) ⟨fun _ => none, (0, 0), fun _ _ => none, []⟩

def writeByte (byte : Byte) : AsyncReq := ⟨1, 0, 0, false, vfsAsyncTypeWrite, [byte], 1, 0⟩

theorem writes_reach_of_lines_apart_in_turn :
    Guarded wantedStep LinesApart (deviceStart (Fin 2) idleDrivers, ⟨fun _ _ => none, idleDrivers⟩)
        [.open 0 "/dev/ttyS0".toList none, .open 1 "/dev/tty".toList none, .write 0 0 (writeByte 65), .close 0 0,
          .open 0 "/dev/ttyS1".toList none, .write 0 0 (writeByte 66), .write 1 0 (writeByte 67)] ∧
      Throughout wantedStep WritesReach (deviceStart (Fin 2) idleDrivers, ⟨fun _ _ => none, idleDrivers⟩)
        [.open 0 "/dev/ttyS0".toList none, .open 1 "/dev/tty".toList none, .write 0 0 (writeByte 65), .close 0 0,
          .open 0 "/dev/ttyS1".toList none, .write 0 0 (writeByte 66), .write 1 0 (writeByte 67)] ∧
      (run wantedStep (deviceStart (Fin 2) idleDrivers, ⟨fun _ _ => none, idleDrivers⟩)
        [.open 0 "/dev/ttyS0".toList none, .open 1 "/dev/tty".toList none, .write 0 0 (writeByte 65), .close 0 0,
          .open 0 "/dev/ttyS1".toList none, .write 0 0 (writeByte 66), .write 1 0 (writeByte 67)]).map
          (fun w => (w.1.drivers.serial false, w.1.drivers.serial true,
            w.1.drivers.tty.reqWriteList.map AsyncReq.bytes)) = some ([65], [66], [[67]]) := by
  have apart : Guarded wantedStep LinesApart (deviceStart (Fin 2) idleDrivers, ⟨fun _ _ => none, idleDrivers⟩)
      [.open 0 "/dev/ttyS0".toList none, .open 1 "/dev/tty".toList none, .write 0 0 (writeByte 65), .close 0 0,
        .open 0 "/dev/ttyS1".toList none, .write 0 0 (writeByte 66), .write 1 0 (writeByte 67)] := by
    decide +kernel
  exact ⟨apart, writes_reach_of_lines_apart idleDrivers _ apart, by decide +kernel⟩

theorem write_reaches_other_line :
    (run wantedStep (deviceStart (Fin 2) idleDrivers, ⟨fun _ _ => none, idleDrivers⟩)
        [.open 0 "/dev/ttyS0".toList none, .open 1 "/dev/ttyS1".toList none, .write 0 0 (writeByte 65)]).map
        (fun w => (w.1.drivers.serial false, w.1.drivers.serial true)) = some ([], [65]) ∧
      ¬Throughout wantedStep WritesReach (deviceStart (Fin 2) idleDrivers, ⟨fun _ _ => none, idleDrivers⟩)
        [.open 0 "/dev/ttyS0".toList none, .open 1 "/dev/ttyS1".toList none, .write 0 0 (writeByte 65)] := by
  have lines : (run wantedStep (deviceStart (Fin 2) idleDrivers, ⟨fun _ _ => none, idleDrivers⟩)
      [.open 0 "/dev/ttyS0".toList none, .open 1 "/dev/ttyS1".toList none, .write 0 0 (writeByte 65)]).map
      (fun w => [w.1.drivers.serial false, w.1.drivers.serial true, w.2.drivers.serial false,
        w.2.drivers.serial true]) = some [[], [65], [65], []] := by
    decide +kernel
  refine ⟨by decide +kernel, fun reach => ?_⟩
  obtain ⟨w, reached, sent⟩ := Option.map_eq_some_iff.1 lines
  have same : w.1.drivers = w.2.drivers := throughout_iff.1 reach _ List.prefix_rfl w reached
  rw [same] at sent
  simp only [List.cons.injEq] at sent
  exact absurd (sent.1.symm.trans sent.2.2.1) (by decide)

end PiOS.Proof.Devices
