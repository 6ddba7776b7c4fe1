import XldKernel.VfsHandles
import XldKernel.VfsOpening

/-!
# VFS: the slots of `open_files`

Source: `kernel/src/fat32_vfs.c`. The operations of the FAT32 driver as the VFS calls
them. A file handle holds one slot of `open_files` from the call that opened it to the
call that closes it; a directory handle holds none, whichever call closes it.
-/

namespace XldKernel.Vfs
open BlockDevice Fat32 GuardedRun
variable {σ : Type}

structure FatHandle where
  fatFile : Option (Fin maxOpenFiles)
  isDir : Bool
  dirCluster : ℕ
  dirIndex : ℕ

structure FatData (σ : Type) where
  files : Files
  s : σ

def dirHandle (room : Bool) (cluster : ℕ) (s : σ) : Option (Except VfsErr FatHandle × σ) :=
  if room then some (.ok ⟨none, true, cluster, 0⟩, s) else some (.error .nomem, s)

def fat32VfsOpendir (fs : Fs σ) (path : List UInt8) (room : Bool) (s : σ) :
    Option (Except VfsErr FatHandle × σ) :=
  match fat32Resolve fs (fatPath path) s with
  | none => none
  | some (none, s) => some (.error .notFound, s)
  | some (some ⟨parent, none⟩, s) => dirHandle room parent s
  | some (some ⟨parent, some name⟩, s) =>
    match fat32Find fs parent name s with
    | none => none
    | some (none, s) => some (.error .notFound, s)
    | some (some found, s) =>
      if ¬ found.dirent.IsDir then some (.error .notDir, s)
      else dirHandle room found.dirent.cluster s

def fat32VfsClose (h : FatHandle) (files : Files) : Files :=
  match h.fatFile with
  | none => files
  | some i => Function.update files i (fat32Close (files i))

def fat32VfsOps : VfsFsOps (Fs σ) FatHandle (FatData σ) where
  driverOpen fs path flags room d :=
    (fat32VfsOpen fs path flags room d.files d.s).map fun (r, files, s) =>
      (r.map fun i => ⟨some i, false, 0, 0⟩, ⟨files, s⟩)
  driverClose h d := (.ok (), { d with files := fat32VfsClose h d.files })
  driverOpendir fs path room d :=
    (fat32VfsOpendir fs path room d.s).map fun (r, s) => (r, { d with s := s })
  driverClosedir _ d := (.ok (), d)

theorem session_vfsOpen (w : Session (Fs σ) FatHandle (FatData σ)) (path : List UInt8)
    (flags : UInt32) (node : Option ℕ) (room : Bool) :
    (w.vfsOpen fat32VfsOps path flags node room).map (fun r => (r.1, r.2.data)) =
      (vfsOpen w.st path flags node.isSome room w.data.files w.data.s).map
        fun r => (r.1.map fun _ => (), ⟨r.2.1, r.2.2⟩) := by
  rw [vfsOpen_dispatch, Session.vfsOpen]
  cases vfsOpenDispatch w.st path with
  | error e => rfl
  | ok found =>
    obtain ⟨m, relPath⟩ := found
    cases node with
    | none => rfl
    | some addr =>
      dsimp only [Session.acquire, fat32VfsOps, Option.isSome_some]
      rw [if_neg (by simp)]
      rcases fat32VfsOpen m.fs relPath flags room w.data.files w.data.s with - | ⟨e | i, files, s⟩
      · rfl
      · rfl
      · rfl

def SameUsed (files files' : Files) : Prop :=
  ∀ i, (files' i).used = (files i).used ∧ ((files i).used = true → files' i = files i)

theorem SameUsed.refl (files : Files) : SameUsed files files := fun _ => ⟨rfl, fun _ => rfl⟩

section Slots
variable {fs : Fs σ} {path : List UInt8} {flags : UInt32} {room : Bool} {d d' : FatData σ}

theorem driverOpen_failed {e : VfsErr}
    (h : fat32VfsOps.driverOpen fs path flags room d = some (.error e, d')) :
    SameUsed d.files d'.files := by
  obtain ⟨⟨r, files, s⟩, hopen, heq⟩ := Option.map_eq_some_iff.mp h
  obtain ⟨hr, rfl⟩ := Prod.mk.inj heq
  rcases fat32VfsOpen_cases hopen with ⟨hfat, -⟩ | ⟨i, files₁, hfat, hres⟩
  · rw [fat32Open_null hfat]
    exact .refl _
  · rcases hres with ⟨-, rfl, -⟩ | ⟨-, -, rfl⟩
    · simp [Except.map] at hr
    · -- the slot was free, and is closed again
      obtain ⟨f, htake⟩ : ∃ f, (some i, files₁) = takeHandle d.files f := by
        rcases fat32Open_handles hfat with hx | ⟨e, hx⟩
        · simp at hx
        · exact ⟨_, hx⟩
      have hunused := takeHandle_unused htake.symm
      rw [takeHandle_some htake.symm]
      intro j
      by_cases hj : j = i
      · subst hj
        simp [fat32Close, hunused]
      · simp [hj]

theorem driverOpen_ok {h : FatHandle}
    (hopen : fat32VfsOps.driverOpen fs path flags room d = some (.ok h, d')) :
    ∃ i f, h.fatFile = some i ∧ (d.files i).used = false ∧ f.used = true ∧
      d'.files = Function.update d.files i f := by
  obtain ⟨⟨r, files, s⟩, hres, heq⟩ := Option.map_eq_some_iff.mp hopen
  obtain ⟨hr, rfl⟩ := Prod.mk.inj heq
  rcases fat32VfsOpen_cases hres with ⟨-, rfl⟩ | ⟨i, files₁, hfat, ⟨-, rfl, rfl⟩ | ⟨-, rfl, -⟩⟩
  · simp [Except.map] at hr
  · obtain rfl : _ = h := by simpa [Except.map] using hr
    rcases fat32Open_handles hfat with hx | ⟨e, hx⟩
    · simp at hx
    · exact ⟨i, openFile e (openMode flags), rfl, takeHandle_unused hx.symm, rfl,
        takeHandle_some hx.symm⟩
  · simp [Except.map] at hr

theorem driverOpendir_files {r : Except VfsErr FatHandle}
    (h : fat32VfsOps.driverOpendir fs path room d = some (r, d')) : d'.files = d.files := by
  obtain ⟨⟨r, s⟩, -, heq⟩ := Option.map_eq_some_iff.mp h
  rw [← (Prod.mk.inj heq).2]

theorem dirHandle_ok {cluster : ℕ} {s s' : σ} {h : FatHandle}
    (hres : dirHandle room cluster s = some (.ok h, s')) : h.fatFile = none := by
  rw [dirHandle] at hres
  split_ifs at hres
  · obtain rfl : _ = h := by simpa using congrArg (Option.map Prod.fst) hres
    rfl
  · simp at hres

theorem driverOpendir_ok {h : FatHandle}
    (hopen : fat32VfsOps.driverOpendir fs path room d = some (.ok h, d')) : h.fatFile = none := by
  obtain ⟨⟨r, s⟩, hres, heq⟩ := Option.map_eq_some_iff.mp hopen
  obtain ⟨rfl, -⟩ := Prod.mk.inj heq
  rw [fat32VfsOpendir] at hres
  split at hres
  · cases hres
  · simp at hres
  · exact dirHandle_ok hres
  · split at hres
    · cases hres
    · simp at hres
    · split at hres
      · simp at hres
      · exact dirHandle_ok hres

end Slots

def Handle.slot (h : Handle FatHandle) : Option (Fin maxOpenFiles) := h.fsHandle.fatFile

structure SlotsExact (w : Session (Fs σ) FatHandle (FatData σ)) : Prop where
  addrs : (w.handles.map Handle.addr).Nodup
  kinds : ∀ h ∈ w.handles, h.slot.isSome = !h.isDir
  slots : (w.handles.filterMap Handle.slot).Nodup
  used : ∀ i, (w.data.files i).used = true ↔ i ∈ w.handles.filterMap Handle.slot

theorem SlotsExact.kept {w w' : Session (Fs σ) FatHandle (FatData σ)} (hw : SlotsExact w)
    (hhandles : w'.handles = w.handles)
    (hfiles : ∀ i, (w'.data.files i).used = (w.data.files i).used) : SlotsExact w' := by
  refine ⟨hhandles ▸ hw.addrs, hhandles ▸ hw.kinds, hhandles ▸ hw.slots, fun i => ?_⟩
  rw [hfiles, hhandles]
  exact hw.used i

theorem SlotsExact.rest {w : Session (Fs σ) FatHandle (FatData σ)} (hw : SlotsExact w)
    {h : Handle FatHandle} (hh : h ∈ w.handles) (i : Fin maxOpenFiles) :
    i ∈ (w.handles.filter (·.addr ≠ h.addr)).filterMap Handle.slot ↔
      (w.data.files i).used = true ∧ h.slot ≠ some i := by
  rw [hw.used, List.mem_filterMap, List.mem_filterMap]
  constructor
  · rintro ⟨x, hx, hslot⟩
    obtain ⟨hx, hne⟩ := List.mem_filter.mp hx
    refine ⟨⟨x, hx, hslot⟩, fun hsame => of_decide_eq_true hne ?_⟩
    rw [Lists.filterMap_unique hw.slots hx hh hslot hsame]
  · rintro ⟨⟨x, hx, hslot⟩, hne⟩
    refine ⟨x, List.mem_filter.mpr ⟨hx, decide_eq_true fun haddr => hne ?_⟩, hslot⟩
    rw [← List.inj_on_of_nodup_map hw.addrs hx hh haddr]
    exact hslot

theorem SlotsExact.removed {w : Session (Fs σ) FatHandle (FatData σ)} (hw : SlotsExact w)
    {h : Handle FatHandle} (hh : h ∈ w.handles) {files : Files} {s : σ}
    (hfiles : ∀ i, (files i).used = true ↔ (w.data.files i).used = true ∧ h.slot ≠ some i) :
    SlotsExact { w with handles := w.handles.filter (·.addr ≠ h.addr), data := ⟨files, s⟩ } where
  addrs := hw.addrs.sublist (List.filter_sublist.map _)
  kinds x hx := hw.kinds x (List.mem_of_mem_filter hx)
  slots := hw.slots.sublist (List.filter_sublist.filterMap _)
  used i := by rw [hfiles, hw.rest hh]

theorem SlotsExact.added {w : Session (Fs σ) FatHandle (FatData σ)} (hw : SlotsExact w)
    {h : Handle FatHandle} {d : FatData σ} (haddr : h.addr ∉ w.handles.map Handle.addr)
    (hkind : h.slot.isSome = !h.isDir) (hnew : ∀ i, h.slot = some i → (w.data.files i).used = false)
    (hfiles : ∀ i, (d.files i).used = true ↔ (w.data.files i).used = true ∨ h.slot = some i) :
    SlotsExact { w with handles := h :: w.handles, data := d } where
  addrs := by
    rw [List.map_cons, List.nodup_cons]
    exact ⟨haddr, hw.addrs⟩
  kinds x hx := by
    rcases List.mem_cons.mp hx with rfl | hx
    · exact hkind
    · exact hw.kinds x hx
  slots := by
    cases hslot : h.slot with
    | none =>
      rw [List.filterMap_cons_none hslot]
      exact hw.slots
    | some i =>
      rw [List.filterMap_cons_some hslot, List.nodup_cons, ← hw.used]
      exact ⟨by simp [hnew i hslot], hw.slots⟩
  used i := by
    rw [hfiles, hw.used]
    cases hslot : h.slot with
    | none => simp [List.filterMap_cons_none hslot]
    | some j =>
      rw [List.filterMap_cons_some hslot, List.mem_cons, Option.some_inj, or_comm, eq_comm]

theorem fat32VfsClose_used (h : FatHandle) (files : Files) (i : Fin maxOpenFiles) :
    (fat32VfsClose h files i).used = true ↔ (files i).used = true ∧ h.fatFile ≠ some i := by
  rw [fat32VfsClose]
  cases h.fatFile with
  | none => simp
  | some j =>
    by_cases hi : i = j
    · simp [hi, fat32Close]
    · simp [hi, Ne.symm hi]

theorem SlotsExact.step {w w' : Session (Fs σ) FatHandle (FatData σ)} (hw : SlotsExact w)
    {c : SessionCall (Fs σ)} (hok : w.Permitted c) (hstep : w.step fat32VfsOps c = some w') :
    SlotsExact w' := by
  obtain ⟨⟨r, w₁⟩, hcall, rfl⟩ := Option.map_eq_some_iff.mp hstep
  cases Session.call_outcome hcall with
  | table => exact hw.kept rfl fun _ => rfl
  | refused => exact hw
  | openFailed hdrive => exact hw.kept rfl fun i => (driverOpen_failed hdrive i).1
  | opened hroute hdrive =>
    obtain ⟨i, f, hslot, hfree, hused, hfiles⟩ := driverOpen_ok hdrive
    refine hw.added (fun hmem => hok _ rfl (List.mem_append_right _ hmem))
      (by simp [Handle.slot, hslot])
      (fun j hj => ?_) (fun j => ?_)
    · obtain rfl : i = j := Option.some_inj.mp (hslot.symm.trans hj)
      exact hfree
    · rw [hfiles]
      by_cases hj : j = i
      · simp [hj, hused, Handle.slot, hslot]
      · simp [hj, Handle.slot, hslot, Ne.symm hj]
  | opendirFailed hdrive => exact hw.kept rfl fun i => by rw [driverOpendir_files hdrive]
  | openedDir hroute hdrive =>
    have hslot := driverOpendir_ok hdrive
    refine hw.added (fun hmem => hok _ rfl (List.mem_append_right _ hmem))
      (by simp [Handle.slot, hslot])
      (fun j hj => ?_) (fun j => ?_)
    · simp [Handle.slot, hslot] at hj
    · simp [driverOpendir_files hdrive, Handle.slot, hslot]
  | closed hh haddr => exact hw.removed hh (fat32VfsClose_used _ _)
  | @closedDir _ h hh haddr hdir =>
    have hslot : h.slot = none := by simpa [hdir] using hw.kinds h hh
    exact hw.removed hh fun i => by simp [hslot]

def usedSlots (files : Files) : ℕ := (Finset.univ.filter fun i => (files i).used = true).card

def fileHandles (w : Session (Fs σ) FatHandle (FatData σ)) : List (Handle FatHandle) :=
  w.handles.filter fun h => !h.isDir

theorem SlotsExact.fileSlots {w : Session (Fs σ) FatHandle (FatData σ)} (hw : SlotsExact w) :
    (fileHandles w).map Handle.slot = (w.handles.filterMap Handle.slot).map some := by
  have hkinds := hw.kinds
  rw [fileHandles]
  generalize w.handles = hs at hkinds
  induction hs with
  | nil => rfl
  | cons h hs ih =>
    have hkind := hkinds h List.mem_cons_self
    have hrest := ih fun x hx => hkinds x (List.mem_cons_of_mem _ hx)
    cases hslot : h.slot with
    | none =>
      rw [hslot] at hkind
      rw [List.filterMap_cons_none hslot, List.filter_cons_of_neg (by simp [← hkind]), hrest]
    | some i =>
      rw [hslot] at hkind
      rw [List.filterMap_cons_some hslot, List.filter_cons_of_pos (by simp [← hkind]),
        List.map_cons, List.map_cons, hrest, hslot]

theorem SlotsExact.count {w : Session (Fs σ) FatHandle (FatData σ)} (hw : SlotsExact w) :
    usedSlots w.data.files = (fileHandles w).length := by
  have hset : (Finset.univ.filter fun i => (w.data.files i).used = true) =
      (w.handles.filterMap Handle.slot).toFinset := by
    ext i
    simp only [Finset.mem_filter, Finset.mem_univ, true_and, List.mem_toFinset, hw.used]
  have hlen := congrArg List.length hw.fileSlots
  rw [List.length_map, List.length_map] at hlen
  rw [usedSlots, hset, List.toFinset_card_of_nodup hw.slots, hlen]

/-- Over every run the used entries of `open_files` are those of the open file handles, one
each, and a call of `vfs_open` that fails leaves them as they are. -/
theorem slots_neither_leaked_nor_shared (st : State (Fs σ)) (files : Files) (s : σ)
    (hfiles : ∀ i, (files i).used = false) (calls : List (SessionCall (Fs σ)))
    (hok : Allowed (Session.step fat32VfsOps) Session.Permitted ⟨st, [], ⟨files, s⟩⟩ calls)
    (w : Session (Fs σ) FatHandle (FatData σ))
    (hrun : run (Session.step fat32VfsOps) ⟨st, [], ⟨files, s⟩⟩ calls = some w) :
    usedSlots w.data.files = (fileHandles w).length ∧
    ((fileHandles w).map Handle.slot).Nodup ∧
    (∀ h ∈ fileHandles w, ∃ i, h.slot = some i ∧ (w.data.files i).used = true) ∧
    ∀ path flags node room e w', w.call fat32VfsOps (.open_ path flags node room) =
      some (.error e, w') → SameUsed w.data.files w'.data.files := by
  have hstart : SlotsExact (⟨st, [], ⟨files, s⟩⟩ : Session (Fs σ) FatHandle (FatData σ)) :=
    ⟨List.nodup_nil, by simp, List.nodup_nil, by simp [hfiles]⟩
  have hw : SlotsExact w :=
    run_invariant (fun w c w' hw hperm hstep => SlotsExact.step hw hperm hstep) hok hstart hrun
  refine ⟨hw.count, ?_, fun h hh => ?_, fun path flags node room e w' hcall => ?_⟩
  · rw [hw.fileSlots]
    exact hw.slots.map (Option.some_injective _)
  · have hmem : h.slot ∈ (w.handles.filterMap Handle.slot).map some :=
      hw.fileSlots ▸ List.mem_map_of_mem hh
    obtain ⟨i, hi, hslot⟩ := List.mem_map.mp hmem
    exact ⟨i, hslot.symm, (hw.used i).mpr hi⟩
  · cases Session.call_outcome hcall with
    | refused => exact .refl _
    | openFailed hdrive => exact driverOpen_failed hdrive

def slotCalls : List (SessionCall (Fs ByteMemory.Mem)) :=
  [.open_ [47, 65] 1 (some 16) true, .open_ [47, 65] 1 (some 24) true, .opendir [47] (some 32) true,
    .open_ [47, 65] 1 (some 40) false, .close 16, .close 32]

theorem slots_slotCalls :
    ∃ w, run (Session.step fat32VfsOps) ⟨mntState, [], ⟨noFiles, helloDisk⟩⟩ slotCalls = some w ∧
      w.handles.map Handle.addr = [24] ∧ usedSlots w.data.files = (fileHandles w).length := by
  have hok : Allowed (Session.step fat32VfsOps) Session.Permitted
      ⟨mntState, [], ⟨noFiles, helloDisk⟩⟩ slotCalls := by decide +kernel
  have hrun : (run (Session.step fat32VfsOps) ⟨mntState, [], ⟨noFiles, helloDisk⟩⟩ slotCalls).map
      (fun w => w.handles.map Handle.addr) = some [24] := by decide +kernel
  obtain ⟨w, hw, haddrs⟩ := Option.map_eq_some_iff.mp hrun
  exact ⟨w, hw, haddrs, (slots_neither_leaked_nor_shared mntState noFiles helloDisk (fun _ => rfl)
    slotCalls hok w hw).1⟩

end XldKernel.Vfs
