import XldKernel.VfsDispatch
import XldKernel.FatSession

/-!
# VFS: files on FAT32 mounts

Source: `kernel/src/vfs.c` (`vfs_open`, `vfs_write`) and `kernel/src/fat32_vfs.c`. The
private data of a mount is its volume. A call of `vfs_open` is given whether `kmalloc`
has room for the two handles. A handle for a file carries the flags it was opened
with; the driver's handle is its index in `open_files`.
-/

namespace XldKernel.Vfs
open ByteMemory BlockDevice Fat32 LinkedPath
variable {σ : Type}

def vfsWriteFlag : UInt32 := 0x02

def charR : UInt8 := 114

/-- The path that the adapter passes on: a slash and at most 254 characters. -/
def fatPath (path : List UInt8) : List UInt8 := Fat32.slash :: path.take 254

def openMode (flags : UInt32) : UInt8 := if flags &&& vfsWriteFlag ≠ 0 then charW else charR

def fat32VfsOpen (fs : Fs σ) (path : List UInt8) (flags : UInt32) (room : Bool) (files : Files)
    (s : σ) : Option (Except VfsErr (Fin maxOpenFiles) × Files × σ) :=
  match fat32Open fs (fatPath path) (openMode flags) files s with
  | none => none
  | some ((none, files), s) => some (.error .notFound, files, s)
  | some ((some i, files), s) =>
    if room then some (.ok i, files, s)
    else some (.error .nomem, Function.update files i (fat32Close (files i)), s)

structure VfsFile where
  mount : ℕ
  handle : Fin maxOpenFiles
  flags : UInt32
  pos : ℤ
  deriving DecidableEq

def vfsOpen (st : State (Fs σ)) (path : List UInt8) (flags : UInt32) (room fatRoom : Bool)
    (files : Files) (s : σ) : Option (Except VfsErr VfsFile × Files × σ) :=
  if path.head? ≠ some slash then some (.error .generic, files, s)
  else
    match translatePath st path with
    | none => some (.error .generic, files, s)
    | some realPath =>
      match findMountForRealPath st realPath with
      | none => some (.error .notFound, files, s)
      | some (m, relPath) =>
        if room = false then some (.error .nomem, files, s)
        else
          (fat32VfsOpen m.fs relPath flags fatRoom files s).map fun (r, files, s) =>
            (r.map fun i => ⟨m.addr, i, flags, 0⟩, files, s)

theorem vfsOpen_dispatch (st : State (Fs σ)) (path : List UInt8) (flags : UInt32)
    (room fatRoom : Bool) (files : Files) (s : σ) :
    vfsOpen st path flags room fatRoom files s =
      match vfsOpenDispatch st path with
      | .error e => some (.error e, files, s)
      | .ok (m, relPath) =>
        if room = false then some (.error .nomem, files, s)
        else
          (fat32VfsOpen m.fs relPath flags fatRoom files s).map fun (r, files, s) =>
            (r.map fun i => ⟨m.addr, i, flags, 0⟩, files, s) := by
  rw [vfsOpen, vfsOpenDispatch, dispatch]
  by_cases hhead : path.head? ≠ some slash
  · rw [if_pos hhead, if_pos hhead]
  rw [if_neg hhead, if_neg hhead]
  cases translatePath st path with
  | none => rfl
  | some realPath =>
    dsimp only
    cases findMountForRealPath st realPath <;> rfl

theorem vfsOpen_cases (st : State (Fs σ)) (path : List UInt8) (flags : UInt32) (room fatRoom : Bool)
    (files : Files) (s : σ) :
    (∃ e, vfsOpen st path flags room fatRoom files s = some (.error e, files, s) ∧
      (route st path = none ∨ room = false)) ∨
    ∃ m relPath, route st path = some (m, relPath) ∧ room = true ∧
      vfsOpen st path flags room fatRoom files s =
        (fat32VfsOpen m.fs relPath flags fatRoom files s).map fun (r, files, s) =>
          (r.map fun i => ⟨m.addr, i, flags, 0⟩, files, s) := by
  rw [vfsOpen_dispatch]
  cases hdisp : vfsOpenDispatch st path with
  | error e =>
    refine Or.inl ⟨e, rfl, Or.inl ?_⟩
    cases hroute : route st path with
    | none => rfl
    | some found => simp [vfsOpenDispatch, dispatch_ok.mpr hroute] at hdisp
  | ok found =>
    obtain ⟨m, relPath⟩ := found
    cases room with
    | false => exact Or.inl ⟨_, rfl, Or.inr rfl⟩
    | true => exact Or.inr ⟨m, relPath, dispatch_ok.mp hdisp, rfl, rfl⟩

theorem fat32VfsOpen_cases {fs : Fs σ} {path : List UInt8} {flags : UInt32} {room : Bool}
    {files files' : Files} {s s' : σ} {r : Except VfsErr (Fin maxOpenFiles)}
    (h : fat32VfsOpen fs path flags room files s = some (r, files', s')) :
    (fat32Open fs (fatPath path) (openMode flags) files s = some ((none, files'), s') ∧
      r = .error .notFound) ∨
    ∃ i files₁, fat32Open fs (fatPath path) (openMode flags) files s = some ((some i, files₁), s') ∧
      ((room = true ∧ r = .ok i ∧ files' = files₁) ∨
        (room = false ∧ r = .error .nomem ∧
          files' = Function.update files₁ i (fat32Close (files₁ i)))) := by
  rw [fat32VfsOpen] at h
  split at h
  · cases h
  · next files₁ s₁ hopen =>
    obtain ⟨rfl, rfl, rfl⟩ : _ ∧ _ ∧ _ := by simpa using h
    exact Or.inl ⟨hopen, rfl⟩
  · next i files₁ s₁ hopen =>
    refine Or.inr ⟨i, files₁, ?_⟩
    cases room with
    | true =>
      obtain ⟨rfl, rfl, rfl⟩ : _ ∧ _ ∧ _ := by simpa using h
      exact ⟨hopen, Or.inl ⟨rfl, rfl, rfl⟩⟩
    | false =>
      obtain ⟨rfl, rfl, rfl⟩ : _ ∧ _ ∧ _ := by simpa using h
      exact ⟨hopen, Or.inr ⟨rfl, rfl, rfl⟩⟩

theorem fat32VfsOpen_returns {fs : Fs σ} {path : List UInt8} {flags : UInt32} {files : Files}
    {s s' : σ} {x : Option (Fin maxOpenFiles) × Files} (room : Bool)
    (h : fat32Open fs (fatPath path) (openMode flags) files s = some (x, s')) :
    ∃ r files', fat32VfsOpen fs path flags room files s = some (r, files', s') := by
  rw [fat32VfsOpen, h]
  match x with
  | (none, _) => exact ⟨_, _, rfl⟩
  | (some _, _) =>
    cases room with
    | true => exact ⟨_, _, rfl⟩
    | false => exact ⟨_, _, rfl⟩

theorem vfsOpen_opened {st : State (Fs σ)} {path : List UInt8} {flags : UInt32}
    {room fatRoom : Bool} {files files' : Files} {s s' : σ} {f : VfsFile}
    (h : vfsOpen st path flags room fatRoom files s = some (.ok f, files', s')) :
    ∃ mnt relPath i, route st path = some (mnt, relPath) ∧ f = ⟨mnt.addr, i, flags, 0⟩ ∧
      fat32Open mnt.fs (fatPath relPath) (openMode flags) files s =
        some ((some i, files'), s') := by
  rcases vfsOpen_cases st path flags room fatRoom files s with
    ⟨e, hres, -⟩ | ⟨mnt, relPath, hroute, -, hres⟩
  · rw [hres] at h
    simp at h
  · rw [hres] at h
    obtain ⟨⟨r, files₁, s₁⟩, hopen, heq⟩ := Option.map_eq_some_iff.mp h
    rcases fat32VfsOpen_cases hopen with ⟨-, rfl⟩ | ⟨i, files₂, hfat, hres⟩
    · simp [Except.map] at heq
    · rcases hres with ⟨-, rfl, rfl⟩ | ⟨-, rfl, -⟩
      · simp only [Except.map, Prod.mk.injEq, Except.ok.injEq] at heq
        obtain ⟨rfl, rfl, rfl⟩ := heq
        exact ⟨mnt, relPath, i, hroute, rfl, hfat⟩
      · simp [Except.map] at heq

def intOfSize (count : ℕ) : ℤ := (count : ℤ).bmod (2 ^ 32)

/-- What the driver gets of a buffer; nothing when the size it is told is negative. -/
def clip (buf : List UInt8) : List UInt8 := buf.take (intOfSize buf.length).toNat

def fat32VfsWrite (fs : Fs σ) (file : File) (buf : List UInt8) (s : σ) : ℤ × WriteState σ :=
  fat32Write fs file (clip buf) s

structure Writing (σ : Type) where
  file : VfsFile
  files : Files
  s : σ
  trace : List (Event σ)

def vfsWrite (fs : Fs σ) (w : Writing σ) (buf : List UInt8) : Except VfsErr ℤ × Writing σ :=
  if w.file.flags &&& vfsWriteFlag = 0 then (.error .perm, w)
  else if buf = [] then (.ok 0, w)
  else
    let r := fat32VfsWrite fs (w.files w.file.handle) buf w.s
    (.ok r.1,
      { file := { w.file with pos := if 0 < r.1 then w.file.pos + r.1 else w.file.pos }
        files := Function.update w.files w.file.handle r.2.file
        s := r.2.s
        trace := w.trace ++ r.2.trace })

def vfsWrites (fs : Fs σ) (w : Writing σ) (bufs : List (List UInt8)) : Writing σ :=
  bufs.foldl (fun w buf => (vfsWrite fs w buf).2) w

theorem vfsWrites_readOnly (fs : Fs σ) {w : Writing σ} (hflags : w.file.flags &&& vfsWriteFlag = 0)
    (bufs : List (List UInt8)) : vfsWrites fs w bufs = w := by
  induction bufs with
  | nil => rfl
  | cons buf bufs ih =>
    rw [vfsWrites, List.foldl_cons, vfsWrite, if_pos hflags]
    exact ih

/-- With the flag set the calls are calls of the driver. -/
theorem vfsWrites_driver (fs : Fs σ) {w : Writing σ} (hflags : w.file.flags &&& vfsWriteFlag ≠ 0)
    (bufs : List (List UInt8)) :
    (vfsWrites fs w bufs).s = (writeAll fs (w.files w.file.handle) w.s (bufs.map clip)).s ∧
    (vfsWrites fs w bufs).trace =
      w.trace ++ (writeAll fs (w.files w.file.handle) w.s (bufs.map clip)).trace := by
  induction bufs generalizing w with
  | nil => simp [vfsWrites, writeAll]
  | cons buf bufs ih =>
    rw [vfsWrites, List.foldl_cons, ← vfsWrites, vfsWrite, if_neg hflags, List.map_cons, writeAll]
    by_cases hbuf : buf = []
    · subst hbuf
      rw [if_pos rfl, show clip [] = [] from rfl, fat32Write_nil, List.nil_append]
      exact ih hflags
    · rw [if_neg hbuf]
      dsimp only
      have hrest := @ih ⟨{ w.file with
          pos := if 0 < (fat32VfsWrite fs (w.files w.file.handle) buf w.s).1
            then w.file.pos + (fat32VfsWrite fs (w.files w.file.handle) buf w.s).1
              else w.file.pos },
        Function.update w.files w.file.handle
          (fat32VfsWrite fs (w.files w.file.handle) buf w.s).2.file,
        (fat32VfsWrite fs (w.files w.file.handle) buf w.s).2.s,
        w.trace ++ (fat32VfsWrite fs (w.files w.file.handle) buf w.s).2.trace⟩ hflags
      simp only [Function.update_self] at hrest
      rw [hrest.1, hrest.2, List.append_assoc]
      exact ⟨rfl, rfl⟩

variable {l : Layout} {m m₁ : Mem} {files files' : Files} {st : State (Fs Mem)}

theorem vfsOpen_ok {path : List UInt8} {flags : UInt32} {room fatRoom : Bool} {f : VfsFile}
    (h : vfsOpen st path flags room fatRoom files m = some (.ok f, files', m₁)) :
    ∃ mnt relPath, route st path = some (mnt, relPath) ∧ f.flags = flags ∧
      fat32Open mnt.fs (fatPath relPath) (openMode flags) files m =
        some ((some f.handle, files'), m₁) := by
  obtain ⟨mnt, relPath, i, hroute, rfl, hfat⟩ := vfsOpen_opened h
  exact ⟨mnt, relPath, hroute, rfl, hfat⟩

def DirsKept (l : Layout) (m m₁ m₂ : Mem) : Prop :=
  ∀ d ds, DirCluster l m d → Chain l m d ds → ∀ c ∈ ds, ∀ i < l.bpb.sectorsPerCluster,
    ∀ k < sectorSize, sector m₂ (l.sectorOf c i) k = sector m₁ (l.sectorOf c i) k

theorem dirsKept_of_ready (hg : l.Geometry) {e : Dirent} {cs : List ℕ} {bufs : List (List UInt8)}
    (hready : Ready l m₁ (openFile e charW) cs 0)
    (hallocs : AllocsIn l (writeAll l.ram (openFile e charW) m₁ bufs).trace)
    (hapart : ∀ d ds, DirCluster l m d → Chain l m d ds → Chain l m₁ d ds ∧ ds.Disjoint cs) :
    DirsKept l m m₁ (writeAll l.ram (openFile e charW) m₁ bufs).s := by
  have hmode : (openFile e charW).mode = .write := by simp [openFile]
  obtain ⟨-, cs', hready', hwrote, -⟩ := writeAll_ram hg rfl hmode hready hallocs
  intro d ds hd hds c hc i hi k hk
  obtain ⟨hds₁, hdisj⟩ := hapart d ds hd hds
  exact hwrote.data_apart hg hready'.range hds₁ hdisj hc
    (sector_inCluster hg (hds.range c hc) hi hk)

/-- File writes leave the directories alone, when the handle is not for writing or the
path does not lead to a directory. -/
theorem writes_keep_directories (l : Layout) (hg : l.Geometry) (m : Mem) (files : Files)
    (hwf : WellFormed l m files) (st : State (Fs Mem)) (hst : ∀ mnt ∈ st.mounts, mnt.fs = l.ram)
    (path : List UInt8) (flags : UInt32) (room fatRoom : Bool) (f : VfsFile) (files' : Files)
    (m₁ : Mem) (hopen : vfsOpen st path flags room fatRoom files m = some (.ok f, files', m₁))
    (hfile : flags &&& vfsWriteFlag = 0 ∨ ∃ mnt relPath p name,
      route st path = some (mnt, relPath) ∧ LeadsToFile l m (fatPath relPath) p name ∧
        (finds l m p name = some none → HasFree l m))
    (bufs : List (List UInt8))
    (hallocs : AllocsIn l (vfsWrites l.ram ⟨f, files', m₁, []⟩ bufs).trace) :
    DirsKept l m m₁ (vfsWrites l.ram ⟨f, files', m₁, []⟩ bufs).s := by
  obtain ⟨mnt, relPath, hroute, rfl, hfat⟩ := vfsOpen_ok hopen
  by_cases hflags : f.flags &&& vfsWriteFlag = 0
  · rw [vfsWrites_readOnly l.ram hflags]
    exact fun _ _ _ _ _ _ _ _ _ _ => rfl
  obtain ⟨mnt', relPath', p, name, hroute', hpath, hroom⟩ := hfile.resolve_left hflags
  obtain ⟨rfl, rfl⟩ := Prod.mk.inj (Option.some_inj.mp (hroute.symm.trans hroute'))
  rw [hst mnt (route_mem hroute), openMode, if_pos hflags] at hfat
  obtain ⟨hs, htrace⟩ := vfsWrites_driver l.ram (w := ⟨f, files', m₁, []⟩) hflags bufs
  rw [htrace, List.nil_append] at hallocs
  rw [hs]
  dsimp only at hallocs ⊢
  obtain ⟨r, hr, hopened⟩ := hpath.open hg hwf hroom
  have hres : ((some f.handle, files'), m₁) = r := Option.some_inj.mp (hfat.symm.trans hr)
  cases hopened with
  | refused => simp at hres
  | existing hds ha hlive _ _ hstart =>
    obtain ⟨htake, rfl⟩ := Prod.mk.inj hres
    rw [takeHandle_some htake.symm, Function.update_self] at hallocs ⊢
    rcases hstart with h0 | ⟨h2, hnodir⟩
    · exact dirsKept_of_ready hg (.empty h0 h0) hallocs
        fun d ds _ hds => ⟨hds, List.disjoint_nil_right ds⟩
    · have hhead : Head l m₁ files _ := Head.entry hlive h2
      obtain ⟨cs, hch⟩ := hwf.linked.chain _ hhead
      refine dirsKept_of_ready hg (hch.ready hg charW) hallocs fun d ds hd hds => ⟨hds, ?_⟩
      exact hwf.linked.disjoint d _ ds cs (hwf.head_of_dir hd) hhead (fun h => hnodir (h ▸ hd)) hds
        hch
  | created hds hc hfree ha hname _ _ =>
    obtain ⟨htake, rfl⟩ := Prod.mk.inj hres
    rw [takeHandle_some htake.symm, Function.update_self] at hallocs ⊢
    have hnew := newFile_put hg hds hc hfree ha hname
    exact dirsKept_of_ready hg (hnew.chain.ready hg charW) hallocs
      fun d ds _ hds => hnew.others d ds hds

def mntState : State (Fs Mem) := ⟨[⟨8, mntPath, tinyLayout.ram⟩], some 8, true⟩

theorem mntState_fs : ∀ mnt ∈ mntState.mounts, mnt.fs = tinyLayout.ram := by
  simp [mntState]

theorem vfsOpen_tiny {path relPath : List UInt8} (flags : UInt32) {e : Dirent}
    (hroute : (route mntState path).map Prod.snd = some relPath)
    (hlook : lookup tinyLayout m (fatPath relPath) = some (some e))
    (hopen : (vfsOpen mntState path flags true true noFiles m).map (fun r => r.1.toOption) =
      some (some ⟨8, 0, flags, 0⟩)) :
    vfsOpen mntState path flags true true noFiles m =
      some (.ok ⟨8, 0, flags, 0⟩, Function.update noFiles 0 (openFile e (openMode flags)), m) := by
  obtain ⟨⟨r, files', m₁⟩, hres, hok⟩ := Option.map_eq_some_iff.mp hopen
  obtain rfl : r = .ok ⟨8, 0, flags, 0⟩ := by
    cases r with
    | error => simp [Except.toOption] at hok
    | ok f => rw [Option.some_inj.mp hok]
  obtain ⟨mnt, relPath', hroute', -, hfat⟩ := vfsOpen_ok hres
  obtain rfl : relPath' = relPath := by simpa [hroute'] using hroute
  rw [mntState_fs mnt (route_mem hroute')] at hfat
  obtain ⟨rfl, rfl⟩ := fat32Open_existing hlook hfat
  exact hres

theorem writes_keep_directories_hello :
    DirsKept tinyLayout helloDisk helloDisk (vfsWrites tinyLayout.ram
      ⟨⟨8, 0, 2, 0⟩, Function.update noFiles 0 (openFile helloEntry charW), helloDisk, []⟩
        [[1]]).s := by
  have hcheck : (⟨[(2, [2])], [(2, [2]), (3, [3])]⟩ : Catalogue).Checks
      tinyLayout helloDisk noFiles := by
    decide +kernel
  have hfinds : finds tinyLayout helloDisk 2 (to83 [65]) = some (some ⟨helloEntry, 2, 0⟩) := by
    decide +kernel
  have hpath : LeadsToFile tinyLayout helloDisk (fatPath [65]) 2 (to83 [65]) :=
    hcheck.leadsToFile tinyLayout_geometry (by decide +kernel) hfinds (by decide)
  have hroute : (route mntState [47, 65]).map Prod.snd = some [65] := by decide +kernel
  obtain ⟨⟨mnt, relPath⟩, hres, rfl⟩ := Option.map_eq_some_iff.mp hroute
  have hopen := vfsOpen_tiny 2 hroute (m := helloDisk) (e := helloEntry) (by decide +kernel)
    (by decide +kernel)
  exact writes_keep_directories tinyLayout tinyLayout_geometry helloDisk noFiles
    (hcheck.wellFormed tinyLayout_geometry) mntState mntState_fs [47, 65] 2 true true _ _ _ hopen
    (Or.inr ⟨mnt, _, 2, _, hres, hpath, by simp [hfinds]⟩) [[1]] (by decide +kernel)

def subdirEntry : Dirent := newDirent (to83 [68]) attrDirectory 3

def subdirDisk : Mem :=
  putDirent (dirImage tinyLayout (tinyLayout.claim tinyDisk 0 3) 2 3) 1024 subdirEntry

/-- A directory can be opened for writing, and its entries are overwritten. -/
theorem directory_overwritten :
    WellFormed tinyLayout subdirDisk noFiles ∧
    ∃ f files' m₁, vfsOpen mntState [47, 68] 2 true true noFiles subdirDisk =
        some (.ok f, files', m₁) ∧
      ¬ DirsKept tinyLayout subdirDisk m₁
        (vfsWrites tinyLayout.ram ⟨f, files', m₁, []⟩ [[1]]).s := by
  have hcheck : (⟨[(2, [2]), (3, [3])], [(2, [2]), (3, [3])]⟩ : Catalogue).Checks
      tinyLayout subdirDisk
      noFiles := by decide +kernel
  have hroute : (route mntState [47, 68]).map Prod.snd = some [68] := by decide +kernel
  have hopen := vfsOpen_tiny 2 (m := subdirDisk) (e := subdirEntry) hroute (by decide +kernel)
    (by decide +kernel)
  refine ⟨hcheck.wellFormed tinyLayout_geometry, _, _, _, hopen, fun hkept => ?_⟩
  have hchain : Chain tinyLayout subdirDisk 2 [2] := by decide +kernel
  have hdir : DirCluster tinyLayout subdirDisk 3 := by
    have hsub := DirCluster.sub (a := 1024) .root hchain (by decide +kernel) (by decide +kernel)
      (by decide +kernel)
    rwa [show (direntAt subdirDisk 1024).cluster = 3 by decide +kernel] at hsub
  have hbyte := hkept 3 [3] hdir (by decide +kernel) 3 (by simp) 0 (by decide) 0 (by decide)
  revert hbyte
  decide +kernel

end XldKernel.Vfs
