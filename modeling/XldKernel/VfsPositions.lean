import XldKernel.VfsFat32
import XldKernel.FatTransfers
import XldKernel.FatOpenFailure

/-!
# VFS: the position of an open file

Source: `kernel/src/vfs.c` (`vfs_read`, `vfs_seek`, `vfs_tell`) and the functions of
`kernel/src/fat32_vfs.c` that they call. The VFS counts the position of a file in `pos`
and the driver counts it in `file_pos`. A seek goes back to the start and reads up to the
wanted offset, which is narrowed to an `int` before.
-/

namespace XldKernel.Vfs
open ByteMemory BlockDevice Fat32 GuardedRun
variable {σ : Type}

def vfsReadFlag : UInt32 := 0x01

def seekSet : ℤ := 0

def fat32VfsRead (fs : Fs σ) (file : File) (count : ℕ) (s : σ) :
    Except VfsErr (List UInt8) × File × σ :=
  match fat32Read fs file (intOfSize count) s with
  | (none, file, s) => (.error .generic, file, s)
  | (some bytes, file, s) => (.ok bytes, file, s)

def vfsRead (fs : Fs σ) (w : Writing σ) (count : ℕ) : Except VfsErr (List UInt8) × Writing σ :=
  if w.file.flags &&& vfsReadFlag = 0 then (.error .perm, w)
  else if count = 0 then (.ok [], w)
  else
    match fat32VfsRead fs (w.files w.file.handle) count w.s with
    | (.error e, file, s) =>
      (.error e, { w with files := Function.update w.files w.file.handle file, s := s })
    | (.ok bytes, file, s) =>
      (.ok bytes,
        { w with
          file := { w.file with pos := w.file.pos + bytes.length }
          files := Function.update w.files w.file.handle file
          s := s })

def seekChunk (remaining : ℤ) : ℤ := if 512 < remaining then 512 else remaining

/-- The loop of the seek; each round that goes on has read at least one byte. -/
def seekLoop (fs : Fs σ) : ℕ → ℤ → File → σ → File × σ
  | 0, _, file, s => (file, s)
  | n + 1, remaining, file, s =>
    if remaining ≤ 0 then (file, s)
    else
      match fat32Read fs file (seekChunk remaining) s with
      | (none, file, s) => (file, s)
      | (some bytes, file, s) =>
        if bytes = [] then (file, s) else seekLoop fs n (remaining - bytes.length) file s

def intOfOffset (offset : ℤ) : ℤ := offset.bmod (2 ^ 32)

def rewind (file : File) : File :=
  { file with currCluster := file.firstCluster, currOffset := 0, filePos := 0 }

def fat32VfsSeek (fs : Fs σ) (file : File) (offset whence : ℤ) (s : σ) :
    Except VfsErr Unit × File × σ :=
  if whence = seekSet then
    if 0 < offset then
      let remaining := intOfOffset offset
      (.ok (), seekLoop fs remaining.toNat remaining (rewind file) s)
    else (.ok (), rewind file, s)
  else (.error .notSupp, file, s)

def fat32VfsTell (file : File) : ℤ := file.filePos

def vfsSeek (fs : Fs σ) (w : Writing σ) (offset whence : ℤ) : Except VfsErr Unit × Writing σ :=
  match fat32VfsSeek fs (w.files w.file.handle) offset whence w.s with
  | (.error e, file, s) =>
    (.error e, { w with files := Function.update w.files w.file.handle file, s := s })
  | (.ok _, file, s) =>
    (.ok (),
      { w with
        file := { w.file with pos := fat32VfsTell file }
        files := Function.update w.files w.file.handle file
        s := s })

def vfsTell (w : Writing σ) : ℤ := fat32VfsTell (w.files w.file.handle)

inductive FileCall where
  | read (buf : Bool) (count : ℕ)
  | write (buf : Option (List UInt8))
  | seek (offset whence : ℤ)

def Writing.call (fs : Fs σ) (w : Writing σ) : FileCall → Writing σ
  | .read false _ => w
  | .read true count => (vfsRead fs w count).2
  | .write none => w
  | .write (some buf) => (vfsWrite fs w buf).2
  | .seek offset whence => (vfsSeek fs w offset whence).2

def Writing.step (fs : Fs σ) (w : Writing σ) (c : FileCall) : Option (Writing σ) :=
  some (w.call fs c)

def Writing.transferred (fs : Fs σ) (w : Writing σ) : FileCall → ℤ
  | .read true count => ((vfsRead fs w count).1.toOption.getD []).length
  | .write (some buf) => (vfsWrite fs w buf).1.toOption.getD 0
  | _ => 0

def Writing.Fits (fs : Fs σ) (w : Writing σ) (c : FileCall) : Prop :=
  ((w.files w.file.handle).filePos : ℤ) + w.transferred fs c ≤ 2 ^ 32 - 1

instance (fs : Fs σ) (w : Writing σ) (c : FileCall) : Decidable (w.Fits fs c) :=
  inferInstanceAs (Decidable (_ ≤ _))

variable {fs : Fs σ} {w : Writing σ}

theorem rewind_same (f : File) : SameFile f (rewind f) := ⟨rfl, rfl, rfl, rfl⟩

theorem seekLoop_readsOn (fs : Fs σ) (n : ℕ) (remaining : ℤ) (f : File) (s : σ) :
    ∃ k, ReadsOn f (seekLoop fs n remaining f s).1 k := by
  induction n generalizing remaining f s with
  | zero => exact ⟨0, .refl f⟩
  | succ n ih =>
    rw [seekLoop]
    by_cases hdone : remaining ≤ 0
    · rw [if_pos hdone]
      exact ⟨0, .refl f⟩
    rw [if_neg hdone]
    rcases fat32Read_cases fs f (seekChunk remaining) s with
      ⟨hres, -⟩ | ⟨bytes, f', s', hres, -, -, hmoved⟩
    · rw [hres]
      exact ⟨0, .refl f⟩
    · rw [hres]
      dsimp only
      split_ifs
      · exact ⟨_, hmoved⟩
      · obtain ⟨k, hk⟩ := ih (remaining - bytes.length) f' s'
        exact ⟨_, hmoved.trans hk⟩

theorem fat32VfsSeek_same (fs : Fs σ) (f : File) (offset whence : ℤ) (s : σ) :
    SameFile f (fat32VfsSeek fs f offset whence s).2.1 ∧
      (f.filePos < 2 ^ 32 → (fat32VfsSeek fs f offset whence s).2.1.filePos < 2 ^ 32) := by
  rw [fat32VfsSeek]
  split_ifs
  · obtain ⟨k, hk⟩ :=
      seekLoop_readsOn fs (intOfOffset offset).toNat (intOfOffset offset) (rewind f) s
    exact ⟨(rewind_same f).trans hk.toSameFile, fun _ => hk.bounded (by norm_num [rewind])⟩
  · exact ⟨rewind_same f, fun _ => by norm_num [rewind]⟩
  · exact ⟨⟨rfl, rfl, rfl, rfl⟩, id⟩

def Writing.put (w : Writing σ) (pos : ℤ) (f : File) (s : σ) : Writing σ :=
  { w with
    file := { w.file with pos := pos }
    files := Function.update w.files w.file.handle f
    s := s }

@[simp] theorem Writing.put_pos (w : Writing σ) (pos : ℤ) (f : File) (s : σ) :
    (w.put pos f s).file.pos = pos := rfl

@[simp] theorem Writing.put_driver (w : Writing σ) (pos : ℤ) (f : File) (s : σ) :
    (w.put pos f s).files (w.put pos f s).file.handle = f := Function.update_self _ _ _

theorem Writing.put_self (w : Writing σ) :
    w.put w.file.pos (w.files w.file.handle) w.s = w := by
  rw [Writing.put, Function.update_eq_self]

theorem vfsRead_cases (fs : Fs σ) (w : Writing σ) (count : ℕ) :
    (vfsRead fs w count).2 = w ∨
    ∃ bytes f s, fat32Read fs (w.files w.file.handle) (intOfSize count) w.s = (some bytes, f, s) ∧
      ReadsOn (w.files w.file.handle) f bytes.length ∧
      vfsRead fs w count = (.ok bytes, w.put (w.file.pos + bytes.length) f s) := by
  rw [vfsRead, fat32VfsRead]
  split_ifs
  · exact Or.inl rfl
  · exact Or.inl rfl
  · rcases fat32Read_cases fs (w.files w.file.handle) (intOfSize count) w.s with
      ⟨hres, -⟩ | ⟨bytes, f, s, hres, -, -, hmoved⟩
    · rw [hres]
      exact Or.inl w.put_self
    · rw [hres]
      exact Or.inr ⟨bytes, f, s, rfl, hmoved, rfl⟩

theorem vfsSeek_eq (fs : Fs σ) (w : Writing σ) (offset : ℤ) :
    vfsSeek fs w offset seekSet =
      let r := fat32VfsSeek fs (w.files w.file.handle) offset seekSet w.s
      (.ok (), w.put (fat32VfsTell r.2.1) r.2.1 r.2.2) := by
  rw [vfsSeek, fat32VfsSeek, if_pos rfl]
  split_ifs <;> rfl

theorem vfsSeek_other (fs : Fs σ) (w : Writing σ) (offset : ℤ) {whence : ℤ} (h : whence ≠ seekSet) :
    vfsSeek fs w offset whence = (.error .notSupp, w) := by
  rw [vfsSeek, fat32VfsSeek, if_neg h]
  exact congrArg (Prod.mk _) w.put_self

structure Writing.Shadows (w : Writing σ) : Prop where
  pos : w.file.pos = (w.files w.file.handle).filePos
  bounded : (w.files w.file.handle).filePos < 2 ^ 32

theorem Writing.Shadows.read (hw : w.Shadows) {count : ℕ} (hfits : w.Fits fs (.read true count)) :
    (vfsRead fs w count).2.Shadows := by
  rcases vfsRead_cases fs w count with hsame | ⟨bytes, f, s, -, hmoved, hres⟩
  · rw [hsame]
    exact hw
  · have hle : ((w.files w.file.handle).filePos : ℤ) + bytes.length ≤ 2 ^ 32 - 1 := by
      simpa [Writing.Fits, Writing.transferred, hres, Except.toOption] using hfits
    have hpos := hmoved.pos
    have hlt := hmoved.bounded hw.bounded
    have hshadow := hw.pos
    rw [hres]
    refine ⟨?_, ?_⟩
    · rw [Writing.put_pos, Writing.put_driver]
      omega
    · rwa [Writing.put_driver]

theorem Writing.Shadows.write (hw : w.Shadows) {buf : List UInt8}
    (hfits : w.Fits fs (.write (some buf))) : (vfsWrite fs w buf).2.Shadows := by
  simp only [Writing.Fits, Writing.transferred] at hfits
  rw [vfsWrite] at hfits ⊢
  split_ifs at hfits ⊢
  · exact hw
  · exact hw
  · have hle : ((w.files w.file.handle).filePos : ℤ) +
        (fat32VfsWrite fs (w.files w.file.handle) buf w.s).1 ≤ 2 ^ 32 - 1 := hfits
    have hshadow := hw.pos
    dsimp only
    rw [fat32VfsWrite] at hle ⊢
    rcases fat32Write_cases fs (w.files w.file.handle) (clip buf) w.s with
      ⟨hfail, hsame⟩ | ⟨hcount, hmoved⟩
    · rw [hfail, hsame, Function.update_eq_self, if_neg (by decide)]
      exact ⟨hw.pos, hw.bounded⟩
    · have hpos := hmoved.pos
      have hlt := hmoved.bounded hw.bounded
      rw [hcount] at hle ⊢
      refine ⟨?_, ?_⟩
      · dsimp only at hpos ⊢
        rw [Function.update_self]
        split_ifs <;> omega
      · dsimp only
        rwa [Function.update_self]

theorem Writing.Shadows.seek (hw : w.Shadows) (offset whence : ℤ) :
    (vfsSeek fs w offset whence).2.Shadows := by
  have hlt := (fat32VfsSeek_same fs (w.files w.file.handle) offset whence w.s).2 hw.bounded
  by_cases hset : whence = seekSet
  · subst hset
    rw [vfsSeek_eq]
    refine ⟨?_, ?_⟩
    · rw [Writing.put_pos, Writing.put_driver]
      rfl
    · rwa [Writing.put_driver]
  · rw [vfsSeek_other fs w offset hset]
    exact hw

theorem Writing.Shadows.call (hw : w.Shadows) {c : FileCall} (hfits : w.Fits fs c) :
    (w.call fs c).Shadows := by
  cases c with
  | read buf count =>
    cases buf with
    | false => exact hw
    | true => exact hw.read hfits
  | write buf =>
    cases buf with
    | none => exact hw
    | some buf => exact hw.write hfits
  | seek offset whence => exact hw.seek offset whence

theorem vfsOpen_driver {st : State (Fs σ)} {path : List UInt8} {flags : UInt32}
    {room fatRoom : Bool} {files files' : Files} {s s' : σ} {f : VfsFile}
    (h : vfsOpen st path flags room fatRoom files s = some (.ok f, files', s')) :
    f.pos = 0 ∧ f.flags = flags ∧ ∃ e, files' f.handle = openFile e (openMode flags) := by
  obtain ⟨mnt, relPath, i, -, rfl, hfat⟩ := vfsOpen_opened h
  rcases fat32Open_handles hfat with hx | ⟨e, hx⟩
  · cases hx
  · refine ⟨rfl, rfl, e, ?_⟩
    rw [takeHandle_some hx.symm]
    exact Function.update_self _ _ _

theorem openMode_cases (flags : UInt32) : openMode flags = charW ∨ openMode flags = charR := by
  rw [openMode]
  split_ifs
  · exact Or.inl rfl
  · exact Or.inr rfl

/-- In every state that calls on a handle reach, on any device, the position that the VFS
keeps is the one that the driver keeps, and `vfs_tell` returns it. -/
theorem position_shadows_driver (σ : Type) (st : State (Fs σ)) (path : List UInt8)
    (flags : UInt32) (room fatRoom : Bool) (files files' : Files) (s s' : σ) (f : VfsFile)
    (hopen : vfsOpen st path flags room fatRoom files s = some (.ok f, files', s'))
    (fs : Fs σ) (calls : List FileCall) (w : Writing σ)
    (hfits : Allowed (Writing.step fs) (Writing.Fits fs) ⟨f, files', s', []⟩ calls)
    (hrun : run (Writing.step fs) ⟨f, files', s', []⟩ calls = some w) :
    w.file.pos = (w.files w.file.handle).filePos ∧
      vfsTell w = (w.files w.file.handle).filePos := by
  obtain ⟨hpos, -, e, hdriver⟩ := vfsOpen_driver hopen
  have hstart : (⟨f, files', s', []⟩ : Writing σ).Shadows := by
    have hzero : (openFile e (openMode flags)).filePos = 0 := by
      rcases openMode_cases flags with h | h
      · rw [h]
        rfl
      · rw [h]
        rfl
    refine ⟨?_, ?_⟩
    · dsimp only
      rw [hpos, hdriver, hzero]
      rfl
    · dsimp only
      rw [hdriver, hzero]
      norm_num
  have hstep : ∀ (v : Writing σ) (c : FileCall) (t : Writing σ), v.Shadows → v.Fits fs c →
      v.step fs c = some t → t.Shadows := by
    intro v c t hv hc ht
    cases ht
    exact hv.call hc
  have hend := run_invariant hstep hfits hstart hrun
  exact ⟨hend.pos, rfl⟩

def helloReading : Writing Mem :=
  ⟨⟨8, 0, 1, 0⟩, Function.update noFiles 0 (openFile helloEntry charR), helloDisk, []⟩

theorem route_hello :
    ∃ mnt, route mntState [47, 65] = some (mnt, [65]) ∧ mnt.fs = tinyLayout.ram := by
  have hroute : (route mntState [47, 65]).map Prod.snd = some [65] := by decide +kernel
  obtain ⟨⟨mnt, relPath⟩, hres, rfl⟩ := Option.map_eq_some_iff.mp hroute
  exact ⟨mnt, hres, mntState_fs mnt (route_mem hres)⟩

theorem vfsOpen_hello : vfsOpen mntState [47, 65] 1 true true noFiles helloDisk =
    some (.ok helloReading.file, helloReading.files, helloReading.s) := by
  have hroute : (route mntState [47, 65]).map Prod.snd = some [65] := by decide +kernel
  exact vfsOpen_tiny 1 hroute (by decide +kernel) (by decide +kernel)

theorem position_shadows_driver_hello : ∃ w,
    run (Writing.step tinyLayout.ram) helloReading
      [.read true 3, .seek 1 0, .read true 100, .seek 2 7] = some w ∧
    w.file.pos = (w.files w.file.handle).filePos ∧
    vfsTell w = (w.files w.file.handle).filePos :=
  ⟨_, rfl, position_shadows_driver Mem mntState [47, 65] 1 true true noFiles helloReading.files
    helloDisk helloReading.s helloReading.file vfsOpen_hello tinyLayout.ram
    [.read true 3, .seek 1 0, .read true 100, .seek 2 7] _ (by decide +kernel) rfl⟩

end XldKernel.Vfs
