import XldKernel.VfsDispatch

/-!
# VFS: open handles and the mount table

Source: `kernel/src/vfs.c` (`vfs_open`, `vfs_close`, `vfs_opendir`, `vfs_closedir`). The
drivers are given by their operations on data of their own. A handle keeps the address
of its mount, which `vfs_umount` frees without looking at the handles; closing a handle
whose mount is gone reads freed memory, and the model gives such a call no result.
-/

namespace XldKernel.Vfs
open GuardedRun

/-- `struct vfs_fs_ops`. An operation that opens is told whether `kmalloc` has room for the
driver's handle; it gives no result when it does not return. -/
structure VfsFsOps (α H D : Type) where
  driverOpen : α → List UInt8 → UInt32 → Bool → D → Option (Except VfsErr H × D)
  driverClose : H → D → Except VfsErr Unit × D
  driverOpendir : α → List UInt8 → Bool → D → Option (Except VfsErr H × D)
  driverClosedir : H → D → Except VfsErr Unit × D

structure Handle (H : Type) where
  addr : ℕ
  mount : ℕ
  flags : UInt32
  pos : ℤ
  isDir : Bool
  fsHandle : H

structure Session (α H D : Type) where
  st : State α
  handles : List (Handle H)
  data : D

variable {α H D : Type} (ops : VfsFsOps α H D)

namespace Session

def acquire (w : Session α H D) (m : Mount α) (flags : UInt32) (isDir : Bool) (node : Option ℕ)
    (drive : D → Option (Except VfsErr H × D)) : Option (Except VfsErr Unit × Session α H D) :=
  match node with
  | none => some (.error .nomem, w)
  | some addr =>
    match drive w.data with
    | none => none
    | some (.error e, d) => some (.error e, { w with data := d })
    | some (.ok h, d) =>
      some (.ok (), { w with
        handles := ⟨addr, m.addr, flags, 0, isDir, h⟩ :: w.handles
        data := d })

def vfsOpen (w : Session α H D) (path : List UInt8) (flags : UInt32) (node : Option ℕ)
    (room : Bool) : Option (Except VfsErr Unit × Session α H D) :=
  match vfsOpenDispatch w.st path with
  | .error e => some (.error e, w)
  | .ok (m, relPath) => w.acquire m flags false node (ops.driverOpen m.fs relPath flags room)

def vfsOpendir (w : Session α H D) (path : List UInt8) (node : Option ℕ) (room : Bool) :
    Option (Except VfsErr Unit × Session α H D) :=
  match dispatch .notSupp w.st path with
  | .error e => some (.error e, w)
  | .ok (m, relPath) => w.acquire m 0 true node (ops.driverOpendir m.fs relPath room)

def release (w : Session α H D) (h : Handle H) (drive : H → D → Except VfsErr Unit × D) :
    Option (Except VfsErr Unit × Session α H D) :=
  if w.st.mounts.any (·.addr = h.mount) then
    let r := drive h.fsHandle w.data
    some (r.1, { w with handles := w.handles.filter (·.addr ≠ h.addr), data := r.2 })
  else none

def vfsClose (w : Session α H D) (file : ℕ) : Option (Except VfsErr Unit × Session α H D) :=
  match w.handles.find? (·.addr = file) with
  | none => none
  | some h => w.release h ops.driverClose

def vfsClosedir (w : Session α H D) (dir : ℕ) : Option (Except VfsErr Unit × Session α H D) :=
  match w.handles.find? (·.addr = dir) with
  | none => none
  | some h =>
    if h.isDir = false then some (.error .generic, w) else w.release h ops.driverClosedir

end Session

inductive SessionCall (α : Type) where
  | table (call : Call α)
  | open_ (path : List UInt8) (flags : UInt32) (node : Option ℕ) (room : Bool)
  | opendir (path : List UInt8) (node : Option ℕ) (room : Bool)
  | close (file : ℕ)
  | closedir (dir : ℕ)

namespace Session

def call (w : Session α H D) : SessionCall α → Option (Except VfsErr Unit × Session α H D)
  | .table c => some ((w.st.call c).1, { w with st := (w.st.call c).2 })
  | .open_ path flags node room => w.vfsOpen ops path flags node room
  | .opendir path node room => w.vfsOpendir ops path node room
  | .close file => w.vfsClose ops file
  | .closedir dir => w.vfsClosedir ops dir

def step (w : Session α H D) (c : SessionCall α) : Option (Session α H D) :=
  (w.call ops c).map Prod.snd

def inUse (w : Session α H D) : List ℕ := w.st.mounts.map Mount.addr ++ w.handles.map Handle.addr

/-- `kmalloc` hands out nothing that is in use, and only open handles are closed. -/
def Permitted (w : Session α H D) : SessionCall α → Prop
  | .table (.mount _ _ node _) => ∀ a ∈ node, a ∉ w.inUse
  | .table (.umount _) => True
  | .open_ _ _ node _ => ∀ a ∈ node, a ∉ w.inUse
  | .opendir _ node _ => ∀ a ∈ node, a ∉ w.inUse
  | .close file => file ∈ w.handles.map Handle.addr
  | .closedir dir => dir ∈ w.handles.map Handle.addr

end Session

inductive Outcome (w : Session α H D) :
    SessionCall α → Except VfsErr Unit → Session α H D → Prop
  | table (c : Call α) : Outcome w (.table c) (w.st.call c).1 { w with st := (w.st.call c).2 }
  | refused {c : SessionCall α} {e : VfsErr} (hc : ∀ t, c ≠ .table t) : Outcome w c (.error e) w
  | openFailed {path relPath : List UInt8} {flags : UInt32} {node : Option ℕ} {room : Bool}
      {m : Mount α} {e : VfsErr} {d : D}
      (hdrive : ops.driverOpen m.fs relPath flags room w.data = some (.error e, d)) :
      Outcome w (.open_ path flags node room) (.error e) { w with data := d }
  | opened {path relPath : List UInt8} {flags : UInt32} {addr : ℕ} {room : Bool} {m : Mount α}
      {h : H} {d : D} (hroute : route w.st path = some (m, relPath))
      (hdrive : ops.driverOpen m.fs relPath flags room w.data = some (.ok h, d)) :
      Outcome w (.open_ path flags (some addr) room) (.ok ())
        { w with handles := ⟨addr, m.addr, flags, 0, false, h⟩ :: w.handles, data := d }
  | opendirFailed {path relPath : List UInt8} {node : Option ℕ} {room : Bool} {m : Mount α}
      {e : VfsErr} {d : D}
      (hdrive : ops.driverOpendir m.fs relPath room w.data = some (.error e, d)) :
      Outcome w (.opendir path node room) (.error e) { w with data := d }
  | openedDir {path relPath : List UInt8} {addr : ℕ} {room : Bool} {m : Mount α} {h : H} {d : D}
      (hroute : route w.st path = some (m, relPath))
      (hdrive : ops.driverOpendir m.fs relPath room w.data = some (.ok h, d)) :
      Outcome w (.opendir path (some addr) room) (.ok ())
        { w with handles := ⟨addr, m.addr, 0, 0, true, h⟩ :: w.handles, data := d }
  | closed {file : ℕ} {h : Handle H} (hh : h ∈ w.handles) (haddr : h.addr = file) :
      Outcome w (.close file) (ops.driverClose h.fsHandle w.data).1
        { w with
          handles := w.handles.filter (·.addr ≠ h.addr)
          data := (ops.driverClose h.fsHandle w.data).2 }
  | closedDir {dir : ℕ} {h : Handle H} (hh : h ∈ w.handles) (haddr : h.addr = dir)
      (hdir : h.isDir = true) :
      Outcome w (.closedir dir) (ops.driverClosedir h.fsHandle w.data).1
        { w with
          handles := w.handles.filter (·.addr ≠ h.addr)
          data := (ops.driverClosedir h.fsHandle w.data).2 }

theorem find_handle {hs : List (Handle H)} {a : ℕ} {h : Handle H}
    (hfind : hs.find? (·.addr = a) = some h) : h ∈ hs ∧ h.addr = a :=
  ⟨List.mem_of_find?_eq_some hfind, by simpa using List.find?_some hfind⟩

theorem Session.release_some {w w' : Session α H D} {h : Handle H}
    {drive : H → D → Except VfsErr Unit × D} {r : Except VfsErr Unit}
    (hres : w.release h drive = some (r, w')) :
    r = (drive h.fsHandle w.data).1 ∧
      w' = { w with
        handles := w.handles.filter (·.addr ≠ h.addr), data := (drive h.fsHandle w.data).2 } := by
  rw [Session.release] at hres
  split_ifs at hres
  obtain ⟨rfl, rfl⟩ := Prod.mk.inj (Option.some_inj.mp hres)
  exact ⟨rfl, rfl⟩

theorem Session.acquire_some {w w' : Session α H D} {m : Mount α} {flags : UInt32} {isDir : Bool}
    {node : Option ℕ} {drive : D → Option (Except VfsErr H × D)} {r : Except VfsErr Unit}
    (hres : w.acquire m flags isDir node drive = some (r, w')) :
    (r = .error .nomem ∧ w' = w) ∨
    (∃ e d, drive w.data = some (.error e, d) ∧ r = .error e ∧ w' = { w with data := d }) ∨
    ∃ addr h d, node = some addr ∧ drive w.data = some (.ok h, d) ∧ r = .ok () ∧
      w' = { w with handles := ⟨addr, m.addr, flags, 0, isDir, h⟩ :: w.handles, data := d } := by
  cases node with
  | none =>
    obtain ⟨rfl, rfl⟩ := Prod.mk.inj (Option.some_inj.mp hres)
    exact Or.inl ⟨rfl, rfl⟩
  | some addr =>
    rw [Session.acquire] at hres
    split at hres
    · cases hres
    · next e d hdrive =>
      obtain ⟨rfl, rfl⟩ := Prod.mk.inj (Option.some_inj.mp hres)
      exact Or.inr (Or.inl ⟨e, d, hdrive, rfl, rfl⟩)
    · next h d hdrive =>
      obtain ⟨rfl, rfl⟩ := Prod.mk.inj (Option.some_inj.mp hres)
      exact Or.inr (Or.inr ⟨addr, h, d, rfl, hdrive, rfl, rfl⟩)

variable {ops}

theorem Session.call_outcome {w w' : Session α H D} {c : SessionCall α} {r : Except VfsErr Unit}
    (hcall : w.call ops c = some (r, w')) : Outcome ops w c r w' := by
  cases c with
  | table c =>
    obtain ⟨rfl, rfl⟩ := Prod.mk.inj (Option.some_inj.mp hcall)
    exact .table c
  | open_ path flags node room =>
    rw [Session.call, Session.vfsOpen] at hcall
    split at hcall
    · obtain ⟨rfl, rfl⟩ := Prod.mk.inj (Option.some_inj.mp hcall)
      exact .refused (by simp)
    · next m relPath hdisp =>
      rcases Session.acquire_some hcall with
        ⟨rfl, rfl⟩ | ⟨e, d, hdrive, rfl, rfl⟩ | ⟨addr, h, d, rfl, hdrive, rfl, rfl⟩
      · exact .refused (by simp)
      · exact .openFailed hdrive
      · exact .opened (dispatch_ok.mp hdisp) hdrive
  | opendir path node room =>
    rw [Session.call, Session.vfsOpendir] at hcall
    split at hcall
    · obtain ⟨rfl, rfl⟩ := Prod.mk.inj (Option.some_inj.mp hcall)
      exact .refused (by simp)
    · next m relPath hdisp =>
      rcases Session.acquire_some hcall with
        ⟨rfl, rfl⟩ | ⟨e, d, hdrive, rfl, rfl⟩ | ⟨addr, h, d, rfl, hdrive, rfl, rfl⟩
      · exact .refused (by simp)
      · exact .opendirFailed hdrive
      · exact .openedDir (dispatch_ok.mp hdisp) hdrive
  | close file =>
    rw [Session.call, Session.vfsClose] at hcall
    split at hcall
    · cases hcall
    · next h hfind =>
      obtain ⟨hh, haddr⟩ := find_handle hfind
      obtain ⟨rfl, rfl⟩ := Session.release_some hcall
      exact .closed hh haddr
  | closedir dir =>
    rw [Session.call, Session.vfsClosedir] at hcall
    split at hcall
    · cases hcall
    · next h hfind =>
      obtain ⟨hh, haddr⟩ := find_handle hfind
      split_ifs at hcall with hdir
      · obtain ⟨rfl, rfl⟩ := Prod.mk.inj (Option.some_inj.mp hcall)
        exact .refused (by simp)
      · obtain ⟨rfl, rfl⟩ := Session.release_some hcall
        exact .closedDir hh haddr (by simpa using hdir)

def Session.Valid (w : Session α H D) : Prop :=
  ∀ h ∈ w.handles, h.mount ∈ w.st.mounts.map Mount.addr

def umountPath (path : List UInt8) : List UInt8 := (normalizePath (path.take 255)).2

def Session.Unused (w : Session α H D) : SessionCall α → Prop
  | .table (.umount path) =>
    ∀ m ∈ w.st.mounts, m.path = umountPath path → ∀ h ∈ w.handles, h.mount ≠ m.addr
  | _ => True

theorem unlink_filter {norm : List UInt8} {ms : List (Mount α)}
    (hnodup : (ms.map Mount.path).Nodup) :
    ((unlink norm ms).map Prod.snd).getD ms = ms.filter (fun m => m.path ≠ norm) := by
  induction ms with
  | nil => rfl
  | cons m ms ih =>
    rw [List.map_cons, List.nodup_cons] at hnodup
    rw [unlink]
    by_cases hm : m.path = norm
    · have hrest : ms.filter (fun m => m.path ≠ norm) = ms := by
        refine List.filter_eq_self.mpr fun m' hm' => decide_eq_true ?_
        rintro rfl
        exact hnodup.1 (hm ▸ List.mem_map_of_mem hm')
      rw [if_pos hm, List.filter_cons_of_neg (by simp [hm]), hrest]
      rfl
    · rw [if_neg hm, List.filter_cons_of_pos (by simp [hm]), ← ih hnodup.2]
      cases unlink norm ms <;> rfl

theorem vfsUmount_mounts {s : State α} (h : Consistent s) (path : List UInt8) :
    (vfsUmount s path).2.mounts = s.mounts.filter (fun m => m.path ≠ umountPath path) := by
  have hnorm : (normalizePath (path.take (pathMax - 1))).2 = umountPath path := rfl
  rw [← unlink_filter h.paths, vfsUmount, hnorm]
  cases unlink (umountPath path) s.mounts <;> rfl

theorem vfsMount_mounts {s : State α} (h : Consistent s) (path : List UInt8) (fs : α)
    (node : Option ℕ) (copy : Bool) : s.mounts ⊆ (vfsMount s path fs node copy).2.mounts := by
  rcases vfsMount_cases s path fs node copy with ⟨e, heq⟩ | ⟨addr, norm, -, -, -, heq⟩
  · rw [heq, h.init]
    exact List.Subset.refl _
  · rw [heq, h.init]
    exact List.subset_cons_self _ _

theorem Session.umount_valid {w : Session α H D} (hst : Consistent w.st) (hvalid : w.Valid)
    (path : List UInt8) :
    (∀ h ∈ w.handles, h.mount ∈ (vfsUmount w.st path).2.mounts.map Mount.addr) ↔
      w.Unused (.table (.umount path)) := by
  rw [vfsUmount_mounts hst]
  constructor
  · intro hafter m hm hpath h hh heq
    obtain ⟨m', hm', haddr⟩ := List.mem_map.mp (hafter h hh)
    obtain ⟨hmem, hne⟩ := List.mem_filter.mp hm'
    obtain rfl : m' = m := List.inj_on_of_nodup_map hst.addrs hmem hm (haddr.trans heq)
    exact of_decide_eq_true hne hpath
  · intro hunused h hh
    obtain ⟨m, hm, haddr⟩ := List.mem_map.mp (hvalid h hh)
    refine List.mem_map.mpr ⟨m, List.mem_filter.mpr ⟨hm, decide_eq_true fun hpath => ?_⟩, haddr⟩
    exact hunused m hm hpath h hh haddr.symm

theorem Session.Valid.added {w : Session α H D} (hvalid : w.Valid) {path relPath : List UInt8}
    {m : Mount α} (hroute : route w.st path = some (m, relPath)) {h : Handle H}
    (hmount : h.mount = m.addr) : ∀ x ∈ h :: w.handles, x.mount ∈ w.st.mounts.map Mount.addr := by
  intro x hx
  rcases List.mem_cons.mp hx with rfl | hx
  · rw [hmount]
    exact List.mem_map_of_mem (route_mem hroute)
  · exact hvalid x hx

theorem Session.step_valid {w w' : Session α H D} (hst : Consistent w.st) (hvalid : w.Valid)
    {c : SessionCall α} (hstep : w.step ops c = some w') : w'.Valid ↔ w.Unused c := by
  obtain ⟨⟨r, w₁⟩, hcall, rfl⟩ := Option.map_eq_some_iff.mp hstep
  have hrest : ∀ a, ∀ h ∈ w.handles.filter (·.addr ≠ a), h.mount ∈ w.st.mounts.map Mount.addr :=
    fun _ h hh => hvalid h (List.mem_of_mem_filter hh)
  cases Session.call_outcome hcall with
  | table t =>
    cases t with
    | umount path => exact Session.umount_valid hst hvalid path
    | mount path fs node copy =>
      exact iff_of_true (fun h hh => List.map_subset _ (vfsMount_mounts hst path fs node copy)
        (hvalid h hh)) trivial
  | refused hc =>
    refine iff_of_true hvalid ?_
    cases c with
    | table t => exact absurd rfl (hc t)
    | _ => trivial
  | openFailed => exact iff_of_true hvalid trivial
  | opened hroute => exact iff_of_true (hvalid.added hroute rfl) trivial
  | opendirFailed => exact iff_of_true hvalid trivial
  | openedDir hroute => exact iff_of_true (hvalid.added hroute rfl) trivial
  | closed => exact iff_of_true (hrest _) trivial
  | closedDir => exact iff_of_true (hrest _) trivial

theorem Session.step_consistent {w w' : Session α H D} (hst : Consistent w.st) {c : SessionCall α}
    (hok : w.Permitted c) (hstep : w.step ops c = some w') : Consistent w'.st := by
  obtain ⟨⟨r, w₁⟩, hcall, rfl⟩ := Option.map_eq_some_iff.mp hstep
  cases Session.call_outcome hcall with
  | table t =>
    refine hst.call ?_
    cases t with
    | mount path fs node copy => exact fun a ha hmem => hok a ha (List.mem_append_left _ hmem)
    | umount path => trivial
  | _ => exact hst

def Session.start (d : D) : Session α H D := ⟨State.start, [], d⟩

/-- As long as no call of `vfs_umount` names a mount in use, every open handle has its mount,
and the next call keeps it so if and only if it does not name such a mount either. -/
theorem handles_valid_iff (ops : VfsFsOps α H D) (d : D) (calls : List (SessionCall α))
    (hok : Allowed (Session.step ops) (fun w c => w.Permitted c ∧ w.Unused c)
      (Session.start d) calls) (w : Session α H D)
    (hrun : run (Session.step ops) (Session.start d) calls = some w) :
    w.Valid ∧ ∀ c w', w.step ops c = some w' → (w'.Valid ↔ w.Unused c) := by
  have hkept : ∀ (w : Session α H D) c w', (Consistent w.st ∧ w.Valid) →
      (w.Permitted c ∧ w.Unused c) → w.step ops c = some w' → Consistent w'.st ∧ w'.Valid := by
    rintro w c w' ⟨hst, hvalid⟩ ⟨hperm, hunused⟩ hstep
    exact ⟨Session.step_consistent hst hperm hstep,
      (Session.step_valid hst hvalid hstep).mpr hunused⟩
  obtain ⟨hst, hvalid⟩ := run_invariant hkept hok
    ⟨consistent_start, fun h hh => absurd hh (by simp [Session.start])⟩ hrun
  exact ⟨hvalid, fun c w' hstep => Session.step_valid hst hvalid hstep⟩

instance (w : Session α H D) : ∀ c, Decidable (w.Permitted c)
  | .table (.mount _ _ node _) => inferInstanceAs (Decidable (∀ a ∈ node, a ∉ w.inUse))
  | .table (.umount _) => inferInstanceAs (Decidable True)
  | .open_ _ _ node _ => inferInstanceAs (Decidable (∀ a ∈ node, a ∉ w.inUse))
  | .opendir _ node _ => inferInstanceAs (Decidable (∀ a ∈ node, a ∉ w.inUse))
  | .close file => inferInstanceAs (Decidable (file ∈ w.handles.map Handle.addr))
  | .closedir dir => inferInstanceAs (Decidable (dir ∈ w.handles.map Handle.addr))

instance (w : Session α H D) : ∀ c, Decidable (w.Unused c)
  | .table (.mount _ _ _ _) => inferInstanceAs (Decidable True)
  | .table (.umount path) => inferInstanceAs (Decidable
      (∀ m ∈ w.st.mounts, m.path = umountPath path → ∀ h ∈ w.handles, h.mount ≠ m.addr))
  | .open_ _ _ _ _ => inferInstanceAs (Decidable True)
  | .opendir _ _ _ => inferInstanceAs (Decidable True)
  | .close _ => inferInstanceAs (Decidable True)
  | .closedir _ => inferInstanceAs (Decidable True)

def nullOps : VfsFsOps Unit Unit Unit where
  driverOpen _ _ _ _ d := some (.ok (), d)
  driverClose _ d := (.ok (), d)
  driverOpendir _ _ _ d := some (.ok (), d)
  driverClosedir _ d := (.ok (), d)

def openCalls : List (SessionCall Unit) :=
  [.table (.mount [47, 97] () (some 8) true), .open_ [47, 97, 47, 120] 1 (some 16) true,
    .opendir [47, 97] (some 24) true, .close 16]

theorem handles_valid_openCalls :
    ∃ w, run (Session.step nullOps) (Session.start ()) openCalls = some w ∧ w.Valid ∧
      ∃ w', w.step nullOps (.table (.umount [47, 97])) = some w' ∧
        (w'.Valid ↔ w.Unused (.table (.umount [47, 97]))) := by
  have hvalid := handles_valid_iff nullOps () openCalls (by decide)
    ⟨⟨[⟨8, [47, 97], ()⟩], none, true⟩, [⟨24, 8, 0, 0, true, ()⟩], ()⟩ rfl
  exact ⟨_, rfl, hvalid.1, _, rfl, hvalid.2 _ _ rfl⟩

/-- Mount `/a`, open `/a/x` and unmount: the handle refers to a mount that is gone. -/
theorem handle_outlives_mount :
    Allowed (Session.step nullOps) Session.Permitted (Session.start ())
      [.table (.mount [47, 97] () (some 8) true), .open_ [47, 97, 47, 120] 1 (some 16) true,
        .table (.umount [47, 97])] ∧
    ∃ w, run (Session.step nullOps) (Session.start ())
        [.table (.mount [47, 97] () (some 8) true), .open_ [47, 97, 47, 120] 1 (some 16) true,
          .table (.umount [47, 97])] = some w ∧
      w.handles.map Handle.mount = [8] ∧ w.st.mounts.map Mount.addr = [] ∧ ¬ w.Valid := by
  refine ⟨by decide, ⟨⟨[], none, true⟩, [⟨16, 8, 1, 0, false, ()⟩], ()⟩, rfl, rfl, rfl, ?_⟩
  intro hvalid
  exact absurd (hvalid ⟨16, 8, 1, 0, false, ()⟩ (by simp)) (by simp)

end XldKernel.Vfs
