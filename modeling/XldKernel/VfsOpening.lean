import XldKernel.VfsFat32
import XldKernel.FatOpenFailure

/-!
# VFS: what opening a file does to the disk

The adapter passes the flag `VFS_WRITE` on as the mode `w` and looks at no other
flag. The driver creates a missing file in this mode, so the disk is left alone
if and only if nothing can be created for the path or the flag is clear; whether
`VFS_CREATE` is set does not matter.
-/

namespace XldKernel.Vfs
open ByteMemory BlockDevice Fat32

def vfsCreateFlag : UInt32 := 0x08

theorem fatPath_printable {path : List UInt8} (h : Printable path) : Printable (fatPath path) := by
  intro c hc
  rcases List.mem_cons.mp hc with rfl | hc
  · decide
  · exact h c (List.mem_of_mem_take hc)

theorem openMode_write (flags : UInt32) :
    openMode flags = charW ∨ openMode flags = charA ↔ flags &&& vfsWriteFlag ≠ 0 := by
  rw [openMode]
  split_ifs with h
  · exact iff_of_true (Or.inl rfl) h
  · exact iff_of_false (by decide) h

/-- A call leaves the disk as it is if and only if it is not for writing, has no memory
for its handle, or its path does not lead to a file that the driver can create. -/
theorem open_keeps_disk_iff (l : Layout) (m : Mem) (files : Files) (st : State (Fs Mem))
    (hst : Consistent st) (hfs : ∀ mnt ∈ st.mounts, mnt.fs = l.ram) (path : List UInt8)
    (flags : UInt32) (room fatRoom : Bool) :
    (∀ r files' m', vfsOpen st path flags room fatRoom files m = some (r, files', m') → m' = m) ↔
      flags &&& vfsWriteFlag = 0 ∨ room = false ∨ ∀ mnt relPath m',
        route st path = some (mnt, relPath) → ¬ Creates l m (fatPath relPath) m' := by
  rcases vfsOpen_cases st path flags room fatRoom files m with
    ⟨e, hres, hno⟩ | ⟨mnt, relPath, hroute, hroom, hres⟩
  · refine iff_of_true (fun r files' m' h => ?_) (Or.inr (hno.symm.imp_right fun hnone => ?_))
    · rw [hres] at h
      cases h
      rfl
    · simp [hnone]
  have hram := hfs mnt (route_mem hroute)
  have hprint := fatPath_printable (hst.route_printable hroute)
  constructor
  · intro hkeeps
    refine or_iff_not_imp_left.mpr fun hflags => Or.inr fun mnt' relPath' m' hroute' hcreate => ?_
    obtain ⟨rfl, rfl⟩ := Prod.mk.inj (Option.some_inj.mp (hroute.symm.trans hroute'))
    obtain ⟨e, hopen⟩ := hcreate.open files ((openMode_write flags).mpr hflags)
    obtain ⟨r, files', hvfs⟩ := fat32VfsOpen_returns fatRoom hopen
    have hreturn : vfsOpen st path flags room fatRoom files m =
        some (r.map fun i => ⟨mnt.addr, i, flags, 0⟩, files', m') := by
      rw [hres, hram, hvfs]
      rfl
    exact hcreate.ne hprint (hkeeps _ files' m' hreturn)
  · intro hcond r files' m' h
    rw [hres] at h
    obtain ⟨⟨r₁, files₁, s₁⟩, hopen, heq⟩ := Option.map_eq_some_iff.mp h
    obtain ⟨-, -, rfl⟩ : _ ∧ files₁ = files' ∧ s₁ = m' := by simpa using heq
    have hdisk : ∃ x, fat32Open l.ram (fatPath relPath) (openMode flags) files m =
        some (x, s₁) := by
      rw [hram] at hopen
      rcases fat32VfsOpen_cases hopen with ⟨hfat, -⟩ | ⟨i, files₂, hfat, -⟩
      · exact ⟨_, hfat⟩
      · exact ⟨_, hfat⟩
    obtain ⟨x, hx⟩ := hdisk
    rcases fat32Open_disk hx with heq | ⟨hmode, hcreate⟩
    · exact heq
    · rcases hcond with hflags | hbad | hno
      · exact absurd hflags ((openMode_write flags).mp hmode)
      · simp [hroom] at hbad
      · exact absurd hcreate (hno mnt relPath s₁ hroute)

theorem mntState_consistent : Consistent mntState := by
  refine ⟨by simp [mntState], ?_, by simp [mntState], ?_, by simp [mntState], by simp [mntState]⟩
  · intro mnt hmnt
    obtain rfl : mnt = ⟨8, mntPath, tinyLayout.ram⟩ := by simpa [mntState] using hmnt
    exact mntPath_normalized
  · intro hno
    exact absurd rfl (hno ⟨8, mntPath, tinyLayout.ram⟩ (by simp [mntState]))

theorem open_keeps_disk_hello :
    ∃ f files', vfsOpen mntState [47, 65] 1 true true noFiles helloDisk =
      some (.ok f, files', helloDisk) := by
  have hopen : (vfsOpen mntState [47, 65] 1 true true noFiles helloDisk).map
      (fun r => r.1.toOption) = some (some ⟨8, 0, 1, 0⟩) := by decide +kernel
  obtain ⟨⟨r, files', m'⟩, hres, hok⟩ := Option.map_eq_some_iff.mp hopen
  have hkeeps := (open_keeps_disk_iff tinyLayout helloDisk noFiles mntState mntState_consistent
    mntState_fs [47, 65] 1 true true).mpr (Or.inl (by decide))
  obtain rfl : m' = helloDisk := hkeeps r files' m' hres
  cases r with
  | error => simp [Except.toOption] at hok
  | ok f => exact ⟨f, files', hres⟩

/-- Opening the missing `/A` with `VFS_WRITE` alone creates it. -/
theorem open_creates :
    WellFormed tinyLayout tinyDisk noFiles ∧ (2 : UInt32) &&& vfsCreateFlag = 0 ∧
    ∃ f files' m', vfsOpen mntState [47, 65] 2 true true noFiles tinyDisk =
      some (.ok f, files', m') ∧
      direntAt m' 1024 = newDirent (to83 [65]) attrArchive 3 ∧ m' ≠ tinyDisk := by
  have hcheck : (⟨[(2, [2])], [(2, [2])]⟩ : Catalogue).Checks tinyLayout tinyDisk noFiles := by
    decide +kernel
  have hopen : (vfsOpen mntState [47, 65] 2 true true noFiles tinyDisk).map
      (fun r => (r.1.toOption, direntAt r.2.2 1024)) =
        some (some ⟨8, 0, 2, 0⟩, newDirent (to83 [65]) attrArchive 3) := by decide +kernel
  obtain ⟨⟨r, files', m'⟩, hres, hvals⟩ := Option.map_eq_some_iff.mp hopen
  obtain ⟨hok, hentry⟩ := Prod.mk.inj hvals
  refine ⟨hcheck.wellFormed tinyLayout_geometry, by decide, ?_⟩
  cases r with
  | error => simp [Except.toOption] at hok
  | ok f =>
    refine ⟨f, files', m', hres, hentry, ?_⟩
    intro heq
    have hempty : direntAt tinyDisk 1024 ≠ newDirent (to83 [65]) attrArchive 3 := by decide +kernel
    exact hempty (heq ▸ hentry)

end XldKernel.Vfs
