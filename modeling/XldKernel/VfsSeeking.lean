import XldKernel.VfsPositions

/-!
# VFS: seeking in a file of a FAT32 volume

On a volume without faults every call of `fat32_read` before the end of the file returns
at least one byte, whatever the chain looks like. So a seek on a handle for reading ends at
the narrowed offset or at the end of the file. On a handle for writing the driver refuses
to read, and the position stays at the start.
-/

namespace XldKernel.Vfs
open ByteMemory BlockDevice Fat32 GuardedRun
variable {σ : Type} {fs : Fs σ} {l : Layout} {m m' : Mem}

structure Writing.Kept (w w' : Writing σ) : Prop where
  handle : w'.file.handle = w.file.handle
  flags : w'.file.flags = w.file.flags
  used : (w'.files w'.file.handle).used = (w.files w.file.handle).used
  mode : (w'.files w'.file.handle).mode = (w.files w.file.handle).mode
  size : (w.files w.file.handle).fileSize < 2 ^ 32 → (w'.files w'.file.handle).fileSize < 2 ^ 32

theorem Writing.Kept.refl (w : Writing σ) : w.Kept w := ⟨rfl, rfl, rfl, rfl, id⟩

theorem Writing.Kept.trans {w₁ w₂ w₃ : Writing σ} (h : w₁.Kept w₂) (h' : w₂.Kept w₃) :
    w₁.Kept w₃ :=
  ⟨h'.handle.trans h.handle, h'.flags.trans h.flags, h'.used.trans h.used, h'.mode.trans h.mode,
    fun hsize => h'.size (h.size hsize)⟩

theorem Writing.kept_put (w : Writing σ) {f : File} (h : SameFile (w.files w.file.handle) f)
    (pos : ℤ) (s : σ) : w.Kept (w.put pos f s) := by
  refine ⟨rfl, rfl, ?_, ?_, ?_⟩
  · rw [Writing.put_driver, h.used]
  · rw [Writing.put_driver, h.mode]
  · rw [Writing.put_driver, h.size]
    exact id

def FileCall.IsReading : FileCall → Prop
  | .read _ _ => True
  | .write _ => False
  | .seek _ _ => True

instance : ∀ c : FileCall, Decidable c.IsReading
  | .read _ _ => isTrue trivial
  | .write _ => isFalse id
  | .seek _ _ => isTrue trivial

/-- A read or a seek does nothing or puts the handle somewhere in its file. -/
theorem Writing.call_moves (fs : Fs σ) (w : Writing σ) {c : FileCall} (hc : c.IsReading) :
    w.call fs c = w ∨ ∃ pos f s, w.call fs c = w.put pos f s ∧
      SameFile (w.files w.file.handle) f ∧
      ((∃ size, s = (fat32Read fs (w.files w.file.handle) size w.s).2.2) ∨
        ∃ offset, s = (fat32VfsSeek fs (w.files w.file.handle) offset seekSet w.s).2.2) := by
  cases c with
  | read buf count =>
    cases buf with
    | false => exact Or.inl rfl
    | true =>
      rw [Writing.call]
      rcases vfsRead_cases fs w count with hsame | ⟨bytes, f, s, hread, hmoved, hres⟩
      · exact Or.inl (by rw [hsame])
      · exact Or.inr ⟨_, f, s, by rw [hres], hmoved.toSameFile, Or.inl ⟨_, by rw [hread]⟩⟩
  | write buf => exact hc.elim
  | seek offset whence =>
    rw [Writing.call]
    by_cases hset : whence = seekSet
    · subst hset
      rw [vfsSeek_eq]
      exact Or.inr ⟨_, _, _, rfl, (fat32VfsSeek_same fs _ offset seekSet w.s).1,
        Or.inr ⟨offset, rfl⟩⟩
    · exact Or.inl (by rw [vfsSeek_other fs w offset hset])

theorem Writing.call_kept (fs : Fs σ) (w : Writing σ) (c : FileCall) : w.Kept (w.call fs c) := by
  by_cases hc : c.IsReading
  · rcases w.call_moves fs hc with hsame | ⟨pos, f, s, hres, hfile, -⟩
    · rw [hsame]
      exact .refl w
    · rw [hres]
      exact w.kept_put hfile pos s
  · cases c with
    | read => exact absurd trivial hc
    | seek => exact absurd trivial hc
    | write buf =>
      cases buf with
      | none => exact .refl w
      | some buf =>
        rw [Writing.call, vfsWrite]
        split_ifs
        · exact .refl w
        · exact .refl w
        · dsimp only
          rw [fat32VfsWrite]
          rcases fat32Write_cases fs (w.files w.file.handle) (clip buf) w.s with
            ⟨-, hsame⟩ | ⟨-, hmoved⟩
          · rw [hsame, Function.update_eq_self]
            exact ⟨rfl, rfl, rfl, rfl, id⟩
          · refine ⟨rfl, rfl, ?_, ?_, ?_⟩ <;> dsimp only <;> rw [Function.update_self]
            · exact hmoved.used
            · exact hmoved.mode
            · exact hmoved.size

theorem run_kept {w w' : Writing σ} {calls : List FileCall}
    (hrun : run (Writing.step fs) w calls = some w') : w.Kept w' := by
  have hstep : ∀ (v : Writing σ) (c : FileCall) (t : Writing σ), w.Kept v → True →
      v.step fs c = some t → w.Kept t := by
    intro v c t hv _ ht
    cases ht
    exact hv.trans (v.call_kept fs c)
  exact run_invariant hstep (allowed_true _ _ _) (.refl w) hrun

theorem fat32Read_mem (f : File) (size : ℤ) : (fat32Read l.ram f size m).2.2 = m := by
  rw [fat32Read]
  split_ifs
  · rfl
  · exact readLoop_mem _ _ _

theorem fat32Read_progress (hl : l.Mounted) {f : File} (hopen : f.used = true ∧ f.mode = .read)
    (hoff : f.currOffset < l.bytesPerCluster) (hlt : f.filePos < f.fileSize)
    (hsize : f.fileSize < 2 ^ 32) {size : ℤ} (hpos : 0 < size)
    (hsum : (f.filePos : ℤ) + size < 2 ^ 32) :
    ∃ bytes f', fat32Read l.ram f size m = (some bytes, f', m) ∧ bytes ≠ [] ∧
      (bytes.length : ℤ) ≤ size ∧ f'.filePos = f.filePos + bytes.length ∧
      f'.filePos ≤ f'.fileSize ∧ f'.currOffset < l.bytesPerCluster ∧ SameFile f f' := by
  have hcut : readSize f size = min size.toNat (f.fileSize - f.filePos) := by
    rw [readSize]
    split_ifs <;> omega
  have hno : ¬ (¬ (f.used = true) ∨ f.mode ≠ .read) := by tauto
  obtain ⟨k, hk, hlen, hmoved⟩ :=
    readLoop_readsOn l.ram (readSize f size) (readSize f size) ⟨f, [], m⟩
  rw [List.length_nil, Nat.zero_add] at hlen
  have hp : (readLoop l.ram (readSize f size) (readSize f size) ⟨f, [], m⟩).file.filePos =
      f.filePos + k := by
    have hmod := hmoved.pos
    have hb := hmoved.bounded (by dsimp only; omega)
    dsimp only at hmod hb
    omega
  have h0 : readSize f size ≠ 0 := by omega
  refine ⟨_, _, ?_, readLoop_ne_nil hl (m := m) hoff le_rfl h0, ?_, ?_, ?_,
    readLoop_offset hl _ _ [] hoff, hmoved.toSameFile⟩
  · rw [fat32Read, if_neg hno]
    dsimp only
    rw [readLoop_mem]
  · rw [hlen]
    omega
  · rw [hp, hlen]
  · rw [hp, hmoved.size]
    dsimp only
    omega

theorem seekChunk_bounds {remaining : ℤ} (h : 0 < remaining) :
    0 < seekChunk remaining ∧ seekChunk remaining ≤ remaining := by
  rw [seekChunk]
  split_ifs <;> omega

theorem seekLoop_reading (hl : l.Mounted) (n : ℕ) {remaining : ℤ} {f : File}
    (hopen : f.used = true ∧ f.mode = .read) (hoff : f.currOffset < l.bytesPerCluster)
    (hle : f.filePos ≤ f.fileSize) (hsize : f.fileSize < 2 ^ 32) (hn : remaining ≤ n)
    (hsum : (f.filePos : ℤ) + remaining < 2 ^ 32) :
    (seekLoop l.ram n remaining f m).1.filePos = min (f.filePos + remaining.toNat) f.fileSize := by
  induction n generalizing remaining f with
  | zero =>
    rw [seekLoop]
    dsimp only
    omega
  | succ n ih =>
    rw [seekLoop]
    by_cases hdone : remaining ≤ 0
    · rw [if_pos hdone]
      dsimp only
      omega
    rw [if_neg hdone]
    have hchunk := seekChunk_bounds (Int.not_le.mp hdone)
    rcases hle.eq_or_lt with heq | hlt
    · -- at the end of the file nothing is read
      have hnil : fat32Read l.ram f (seekChunk remaining) m = (some [], f, m) := by
        have hno : ¬ (¬ (f.used = true) ∨ f.mode ≠ .read) := by tauto
        have hzero : readSize f (seekChunk remaining) = 0 := if_pos (Or.inr heq.ge)
        rw [fat32Read, if_neg hno, hzero]
        rfl
      rw [hnil]
      dsimp only
      rw [if_pos rfl]
      dsimp only
      omega
    · obtain ⟨bytes, f', hres, hne, hlen, hpos, hle', hoff', hsame⟩ :=
        fat32Read_progress hl (m := m) hopen hoff hlt hsize hchunk.1 (by omega)
      have hbytes : 0 < bytes.length := List.length_pos_iff.mpr hne
      rw [hres]
      dsimp only
      rw [if_neg hne, ih ⟨hsame.used.trans hopen.1, hsame.mode.trans hopen.2⟩ hoff' hle'
        (by rw [hsame.size]; exact hsize) (by push_cast at hn; omega) (by omega), hpos, hsame.size]
      omega

theorem seekLoop_refused (n : ℕ) (remaining : ℤ) {f : File} (s : σ) (hmode : f.mode ≠ .read) :
    seekLoop fs n remaining f s = (f, s) := by
  cases n with
  | zero => rfl
  | succ n =>
    rw [seekLoop, fat32Read, if_pos (Or.inr hmode)]
    split_ifs <;> rfl

theorem intOfOffset_eq {offset : ℤ} (h0 : 0 ≤ offset) (h : offset < 2 ^ 31) :
    intOfOffset offset = offset := by
  rw [intOfOffset, Int.bmod_def]
  split_ifs <;> omega

theorem intOfSize_eq {count : ℕ} (h : count < 2 ^ 31) : intOfSize count = count :=
  intOfOffset_eq (Int.natCast_nonneg count) (by exact_mod_cast h)

theorem intOfOffset_lt (offset : ℤ) : intOfOffset offset < 2 ^ 31 :=
  Int.bmod_lt (by decide)

theorem fat32VfsSeek_reading (hl : l.Mounted) {f : File} (hopen : f.used = true ∧ f.mode = .read)
    (hsize : f.fileSize < 2 ^ 32) {offset : ℤ} (h0 : 0 ≤ offset) :
    (fat32VfsSeek l.ram f offset seekSet m).2.1.filePos =
      min (intOfOffset offset).toNat f.fileSize := by
  rw [fat32VfsSeek, if_pos rfl]
  by_cases hpos : 0 < offset
  · have hlt := intOfOffset_lt offset
    have hloop := seekLoop_reading hl (m := m) (intOfOffset offset).toNat (f := rewind f) hopen
      hl.bytes_pos (Nat.zero_le _) hsize (Int.self_le_toNat _)
      (by simp only [rewind]; omega)
    rw [if_pos hpos]
    dsimp only
    rw [hloop]
    exact congrArg (min · f.fileSize) (Nat.zero_add _)
  · obtain rfl : offset = 0 := by omega
    rw [if_neg hpos]
    exact (Nat.zero_min _).symm

theorem fat32VfsSeek_writing {f : File} (hmode : f.mode ≠ .read) (offset : ℤ) (s : σ) :
    (fat32VfsSeek fs f offset seekSet s).2.1.filePos = 0 := by
  rw [fat32VfsSeek, if_pos rfl]
  split_ifs
  · dsimp only
    rw [seekLoop_refused _ _ _ (show (rewind f).mode ≠ .read from hmode)]
    rfl
  · rfl

theorem reached_driver {st : State (Fs Mem)} {path : List UInt8} {flags : UInt32}
    {room fatRoom : Bool} {files files' : Files} {f : VfsFile}
    (hopen : vfsOpen st path flags room fatRoom files m = some (.ok f, files', m'))
    {mnt : Mount (Fs Mem)} {relPath : List UInt8} (hroute : route st path = some (mnt, relPath))
    (hfs : mnt.fs = l.ram) {calls : List FileCall} {w : Writing Mem}
    (hrun : run (Writing.step l.ram) ⟨f, files', m', []⟩ calls = some w) :
    (w.files w.file.handle).used = true ∧
    ((w.files w.file.handle).mode = .read ↔ flags &&& vfsWriteFlag = 0) ∧
    (w.files w.file.handle).fileSize < 2 ^ 32 := by
  have hkept := run_kept hrun
  obtain ⟨-, -, e, hdriver⟩ := vfsOpen_driver hopen
  have hsize : (files' f.handle).fileSize < 2 ^ 32 := by
    by_cases hflags : flags &&& vfsWriteFlag = 0
    · obtain ⟨mnt', relPath', i, hroute', rfl, hfat⟩ := vfsOpen_opened hopen
      obtain ⟨rfl, rfl⟩ := Prod.mk.inj (Option.some_inj.mp (hroute.symm.trans hroute'))
      have hmode : openMode flags = charR := if_neg (not_not_intro hflags)
      rw [hfs, hmode] at hfat
      obtain ⟨-, e', he, hfile⟩ := fat32Open_read (by decide) hfat
      rw [hfile]
      exact he
    · rw [hdriver, openMode, if_pos hflags]
      norm_num [openFile]
  refine ⟨?_, ?_, hkept.size hsize⟩
  · rw [hkept.used]
    dsimp only
    rw [hdriver]
    rfl
  · rw [hkept.mode]
    dsimp only
    rw [hdriver, openFile, openMode]
    by_cases hflags : flags &&& vfsWriteFlag = 0
    · simp [hflags, charR, charW, charA]
    · simp [hflags]

/-- A seek that succeeds has moved the position to the offset or to the end of the file
exactly when, on a handle for reading, the offset fits an `int` or the file is not longer
than the narrowed offset, and on a handle for writing the offset or the file size is 0. -/
theorem seek_moves_iff (l : Layout) (hl : l.Mounted) (st : State (Fs Mem)) (path : List UInt8)
    (flags : UInt32) (room fatRoom : Bool) (files files' : Files) (m m' : Mem) (f : VfsFile)
    (hopen : vfsOpen st path flags room fatRoom files m = some (.ok f, files', m'))
    (mnt : Mount (Fs Mem)) (relPath : List UInt8) (hroute : route st path = some (mnt, relPath))
    (hfs : mnt.fs = l.ram) (calls : List FileCall) (w : Writing Mem)
    (hrun : run (Writing.step l.ram) ⟨f, files', m', []⟩ calls = some w)
    (offset : ℤ) (h0 : 0 ≤ offset) :
    let r := vfsSeek l.ram w offset seekSet
    let fileSize := (w.files w.file.handle).fileSize
    ((r.1 = .ok () → vfsTell r.2 = min offset fileSize) ↔
      (flags &&& vfsWriteFlag = 0 ∧ (offset < 2 ^ 31 ∨ fileSize ≤ (intOfOffset offset).toNat)) ∨
      (flags &&& vfsWriteFlag ≠ 0 ∧ (offset = 0 ∨ fileSize = 0))) := by
  obtain ⟨hused, hmode, hsize⟩ := reached_driver hopen hroute hfs hrun
  dsimp only
  rw [vfsSeek_eq]
  simp only [forall_const, vfsTell, Writing.put_driver, fat32VfsTell]
  by_cases hflags : flags &&& vfsWriteFlag = 0
  · have hsmall : offset < 2 ^ 31 → intOfOffset offset = offset := intOfOffset_eq h0
    have hint := intOfOffset_lt offset
    rw [fat32VfsSeek_reading hl ⟨hused, hmode.mpr hflags⟩ hsize h0]
    simp only [hflags, true_and, ne_eq, not_true_eq_false, false_and, or_false]
    omega
  · rw [fat32VfsSeek_writing (hmode.not.mpr hflags)]
    simp only [hflags, false_and, false_or, ne_eq, not_false_eq_true, true_and]
    omega

theorem seek_moves_iff_hello :
    (vfsSeek tinyLayout.ram helloReading 3 seekSet).1 = .ok () ∧
      vfsTell (vfsSeek tinyLayout.ram helloReading 3 seekSet).2 =
        min 3 (helloReading.files 0).fileSize := by
  obtain ⟨mnt, hroute, hfs⟩ := route_hello
  have hok : (vfsSeek tinyLayout.ram helloReading 3 seekSet).1 = .ok () := by rw [vfsSeek_eq]
  exact ⟨hok, (seek_moves_iff tinyLayout ⟨rfl, by decide, by decide⟩ mntState [47, 65] 1 true true
    noFiles _ helloDisk _ _ vfsOpen_hello mnt [65] hroute hfs [] helloReading rfl 3 (by decide)).mpr
    (Or.inl ⟨by decide, Or.inl (by norm_num)⟩) hok⟩

def helloWriting : Writing Mem :=
  (⟨⟨8, 0, 2, 0⟩, Function.update noFiles 0 (openFile helloEntry charW), helloDisk, []⟩ :
    Writing Mem).call tinyLayout.ram (.write (some [1, 2, 3]))

/-- A seek to `2^32` in a file of five bytes, and one to 1 on a handle for writing, return
`VFS_OK` with the position at 0. -/
theorem seek_stays_at_start :
    (vfsOpen mntState [47, 65] 1 true true noFiles helloDisk =
        some (.ok helloReading.file, helloReading.files, helloReading.s) ∧
      (vfsSeek tinyLayout.ram helloReading (2 ^ 32) seekSet).1.isOk = true ∧
      vfsTell (vfsSeek tinyLayout.ram helloReading (2 ^ 32) seekSet).2 = 0 ∧
      (helloReading.files 0).fileSize = 5) ∧
    (vfsOpen mntState [47, 65] 2 true true noFiles helloDisk =
        some (.ok ⟨8, 0, 2, 0⟩, Function.update noFiles 0 (openFile helloEntry charW), helloDisk) ∧
      (vfsSeek tinyLayout.ram helloWriting 1 seekSet).1.isOk = true ∧
      vfsTell (vfsSeek tinyLayout.ram helloWriting 1 seekSet).2 = 0 ∧
      (helloWriting.files 0).fileSize = 3) := by
  have hroute : (route mntState [47, 65]).map Prod.snd = some [65] := by decide +kernel
  refine ⟨⟨vfsOpen_hello, by decide +kernel, by decide +kernel, by decide +kernel⟩,
    vfsOpen_tiny 2 hroute (by decide +kernel) (by decide +kernel), by decide +kernel,
    by decide +kernel, by decide +kernel⟩

theorem seekLoop_mem (n : ℕ) (remaining : ℤ) (f : File) :
    (seekLoop l.ram n remaining f m).2 = m := by
  induction n generalizing remaining f with
  | zero => rfl
  | succ n ih =>
    have hmem := fat32Read_mem (l := l) (m := m) f (seekChunk remaining)
    rw [seekLoop]
    by_cases hdone : remaining ≤ 0
    · rw [if_pos hdone]
    rw [if_neg hdone]
    rcases hres : fat32Read l.ram f (seekChunk remaining) m with ⟨_ | bytes, f', m₁⟩
    · rw [hres] at hmem
      exact hmem
    · rw [hres] at hmem
      obtain rfl : m₁ = m := hmem
      dsimp only
      split_ifs
      · rfl
      · exact ih _ _

theorem fat32VfsSeek_mem (f : File) (offset whence : ℤ) :
    (fat32VfsSeek l.ram f offset whence m).2.2 = m := by
  rw [fat32VfsSeek]
  split_ifs
  · exact seekLoop_mem _ _ _
  · rfl
  · rfl

structure Writing.Browsed (w w' : Writing Mem) : Prop where
  disk : w'.s = w.s
  flags : w'.file.flags = w.file.flags
  same : SameFile (w.files w.file.handle) (w'.files w'.file.handle)

theorem Writing.browsed_put (w : Writing Mem) {f : File} (h : SameFile (w.files w.file.handle) f)
    (pos : ℤ) : w.Browsed (w.put pos f w.s) :=
  ⟨rfl, rfl, by rwa [Writing.put_driver]⟩

theorem Writing.Browsed.refl (w : Writing Mem) : w.Browsed w := ⟨rfl, rfl, rfl, rfl, rfl, rfl⟩

theorem Writing.Browsed.trans {w₁ w₂ w₃ : Writing Mem} (h : w₁.Browsed w₂) (h' : w₂.Browsed w₃) :
    w₁.Browsed w₃ :=
  ⟨h'.disk.trans h.disk, h'.flags.trans h.flags, h.same.trans h'.same⟩

theorem Writing.call_browsed (l : Layout) (w : Writing Mem) {c : FileCall} (hc : c.IsReading) :
    w.Browsed (w.call l.ram c) := by
  rcases w.call_moves l.ram hc with hsame | ⟨pos, f, s, hres, hfile, hdisk⟩
  · rw [hsame]
    exact .refl w
  · obtain rfl : s = w.s := by
      rcases hdisk with ⟨size, rfl⟩ | ⟨offset, rfl⟩
      · exact fat32Read_mem _ size
      · exact fat32VfsSeek_mem _ offset seekSet
    rw [hres]
    exact w.browsed_put hfile pos

theorem run_browsed {w w' : Writing Mem} {calls : List FileCall}
    (hcalls : ∀ c ∈ calls, c.IsReading) (hrun : run (Writing.step l.ram) w calls = some w') :
    w.Browsed w' := by
  induction calls generalizing w with
  | nil =>
    cases hrun
    exact .refl _
  | cons c calls ih =>
    have hfirst := w.call_browsed l (hcalls c (by simp))
    exact hfirst.trans (ih (fun d hd => hcalls d (by simp [hd])) hrun)

section Slices
variable (hl : l.Mounted) {c : ℕ} {cs : List ℕ} (hch : Heads l m c cs)
include hl hch

theorem seekLoop_readAt (n : ℕ) {remaining : ℤ} {pos : ℕ} {f : File} (hat : ReadAt l f cs pos)
    (hle : pos ≤ f.fileSize) (hwrap : f.fileSize < 2 ^ 32) (hn : remaining ≤ n)
    (hsum : (pos : ℤ) + remaining < 2 ^ 32) :
    ∃ f', seekLoop l.ram n remaining f m = (f', m) ∧
      ReadAt l f' cs (min (pos + remaining.toNat) f.fileSize) ∧ f'.fileSize = f.fileSize := by
  induction n generalizing remaining pos f with
  | zero =>
    have hstay : min (pos + remaining.toNat) f.fileSize = pos := by omega
    rw [hstay]
    exact ⟨f, rfl, hat, rfl⟩
  | succ n ih =>
    rw [seekLoop]
    by_cases hdone : remaining ≤ 0
    · have hstay : min (pos + remaining.toNat) f.fileSize = pos := by omega
      rw [if_pos hdone, hstay]
      exact ⟨f, rfl, hat, rfl⟩
    rw [if_neg hdone]
    have hchunk := seekChunk_bounds (Int.not_le.mp hdone)
    have hsmall : (pos : ℤ) + seekChunk remaining < 2 ^ 32 := by omega
    obtain ⟨f', hres, hat', hfs⟩ := fat32Read_ram hl hch hat hle hwrap hsmall
    have hlen : ((((chainData l m cs).take f.fileSize).drop pos).take
        (seekChunk remaining).toNat).length = min (seekChunk remaining).toNat
          (f.fileSize - pos) := by
      rw [List.length_take, List.length_drop, List.length_take, chainData_length hl,
        Nat.min_eq_left hat.size]
    rw [hres]
    dsimp only
    by_cases hnil : (((chainData l m cs).take f.fileSize).drop pos).take
        (seekChunk remaining).toNat = []
    · -- the file ends here
      rw [if_pos hnil]
      rw [hnil, List.length_nil] at hlen
      have hend : min (pos + (seekChunk remaining).toNat) f.fileSize =
          min (pos + remaining.toNat) f.fileSize := by omega
      rw [hend] at hat'
      exact ⟨f', rfl, hat', hfs⟩
    · have hread := List.length_pos_iff.mpr hnil
      rw [hlen] at hread
      rw [if_neg hnil, hlen]
      have hfewer : remaining - (min (seekChunk remaining).toNat (f.fileSize - pos) : ℕ) ≤ n := by
        push_cast at hn ⊢
        omega
      obtain ⟨f'', hloop, hat'', hfs'⟩ := ih hat' (by omega) (by omega) hfewer (by omega)
      refine ⟨f'', hloop, ?_, hfs'.trans hfs⟩
      have hsame : min (min (pos + (seekChunk remaining).toNat) f.fileSize +
          (remaining - (min (seekChunk remaining).toNat (f.fileSize - pos) : ℕ)).toNat)
            f'.fileSize =
          min (pos + remaining.toNat) f.fileSize := by omega
      rwa [hsame] at hat''

theorem fat32VfsSeek_readAt {f : File} (hopen : f.used = true ∧ f.mode = .read)
    (hfirst : f.firstCluster = c) (hlen : f.fileSize ≤ cs.length * l.bytesPerCluster)
    (hwrap : f.fileSize < 2 ^ 32) {k : ℤ} (h0 : 0 ≤ k) (hk : k < 2 ^ 31) :
    ∃ f', fat32VfsSeek l.ram f k seekSet m = (.ok (), f', m) ∧
      ReadAt l f' cs (min k.toNat f.fileSize) ∧ f'.fileSize = f.fileSize := by
  have hstart : ReadAt l (rewind f) cs 0 := by
    refine ⟨hopen.1, hopen.2, rfl, hlen, (Nat.zero_mod _).symm, fun _ => ?_⟩
    obtain ⟨d, ds, rfl⟩ := List.exists_cons_of_ne_nil hch.nonempty
    rw [Nat.zero_div]
    exact hfirst.trans (LinkedPath.path_cons.mp hch.path).1
  rw [fat32VfsSeek, if_pos rfl]
  by_cases hpos : 0 < k
  · obtain ⟨f', hloop, hat, hfs⟩ := seekLoop_readAt hl hch k.toNat hstart (Nat.zero_le _) hwrap
      (Int.self_le_toNat k) (by push_cast; omega)
    rw [if_pos hpos]
    dsimp only
    rw [intOfOffset_eq h0 hk, hloop]
    rw [Nat.zero_add] at hat
    exact ⟨f', rfl, hat, hfs⟩
  · obtain rfl : k = 0 := by omega
    rw [if_neg hpos]
    exact ⟨rewind f, rfl, by simpa using hstart, rfl⟩

end Slices

theorem vfsRead_ok (fs : Fs σ) {w : Writing σ} {count : ℕ} {bytes : List UInt8}
    (hflags : w.file.flags &&& vfsReadFlag ≠ 0)
    (hres : (fat32Read fs (w.files w.file.handle) (intOfSize count) w.s).1 = some bytes) :
    (vfsRead fs w count).1 = .ok bytes := by
  rcases fat32Read_cases fs (w.files w.file.handle) (intOfSize count) w.s with
    ⟨hread, -⟩ | ⟨out, f, s, hread, -, hle, -⟩
  · rw [hread] at hres
    cases hres
  · rw [hread] at hres
    obtain rfl := Option.some_inj.mp hres
    rw [vfsRead, if_neg hflags]
    by_cases h0 : count = 0
    · -- the driver would have read nothing either
      subst h0
      rw [if_pos rfl, List.eq_nil_of_length_eq_zero (Nat.le_zero.mp hle)]
    · rw [if_neg h0, fat32VfsRead, hread]

theorem readSize_empty {f : File} (h : f.fileSize = 0) (size : ℤ) : readSize f size = 0 := by
  rw [readSize, h]
  exact if_pos (Or.inr (Nat.zero_le _))

theorem fat32Read_sought (hl : l.Mounted) {f : File} {cs : List ℕ}
    (hopen : f.used = true ∧ f.mode = .read)
    (hch : f.fileSize = 0 ∨ Heads l m f.firstCluster cs)
    (hlen : f.fileSize ≤ cs.length * l.bytesPerCluster) (hwrap : f.fileSize < 2 ^ 32)
    {k : ℤ} (h0 : 0 ≤ k) (hk : k < 2 ^ 31) {n : ℕ} (hn : n < 2 ^ 31) :
    (fat32Read l.ram (fat32VfsSeek l.ram f k seekSet m).2.1 n m).1 =
      some ((((chainData l m cs).take f.fileSize).drop k.toNat).take n) := by
  rcases hch with hempty | hch
  · have hsame := (fat32VfsSeek_same l.ram f k seekSet m).1
    have hzero := readSize_empty (hsame.size.trans hempty) n
    rcases fat32Read_cases l.ram (fat32VfsSeek l.ram f k seekSet m).2.1 n m with
      ⟨-, hno⟩ | ⟨bytes, f', s', hres, -, hle, -⟩
    · exact absurd ⟨hsame.used.trans hopen.1, hsame.mode.trans hopen.2⟩ hno
    · rw [hzero] at hle
      rw [hres, List.eq_nil_of_length_eq_zero (Nat.le_zero.mp hle), hempty]
      simp
  · obtain ⟨f', hseek, hat, hfs⟩ := fat32VfsSeek_readAt hl hch hopen rfl hlen hwrap h0 hk
    have hsmall : ((min k.toNat f.fileSize : ℕ) : ℤ) + (n : ℤ) < 2 ^ 32 := by omega
    obtain ⟨f'', hres, -, -⟩ := fat32Read_ram hl hch hat (by omega) (by omega) hsmall
    rw [hseek, hres, hfs]
    have hdrop : ((chainData l m cs).take f.fileSize).drop (min k.toNat f.fileSize) =
        ((chainData l m cs).take f.fileSize).drop k.toNat := by
      rcases Nat.le_total k.toNat f.fileSize with h | h
      · rw [Nat.min_eq_left h]
      · have hshort : ((chainData l m cs).take f.fileSize).length ≤ f.fileSize := by simp
        rw [Nat.min_eq_right h, List.drop_eq_nil_of_le hshort,
          List.drop_eq_nil_of_le (hshort.trans h)]
    rw [hdrop, Int.toNat_natCast]

/-- A read that follows a seek returns the bytes of the file from the place that was
sought, whatever reads and seeks came before. -/
theorem seek_then_read (l : Layout) (hl : l.Mounted) (st : State (Fs Mem)) (path : List UInt8)
    (flags : UInt32) (hread : flags &&& vfsReadFlag ≠ 0) (hwrite : flags &&& vfsWriteFlag = 0)
    (room fatRoom : Bool) (files files' : Files) (m m' : Mem) (f : VfsFile)
    (hopen : vfsOpen st path flags room fatRoom files m = some (.ok f, files', m'))
    (mnt : Mount (Fs Mem)) (relPath : List UInt8) (hroute : route st path = some (mnt, relPath))
    (hfs : mnt.fs = l.ram) (cs : List ℕ)
    (hch : (files' f.handle).fileSize = 0 ∨ Heads l m' (files' f.handle).firstCluster cs)
    (hlen : (files' f.handle).fileSize ≤ cs.length * l.bytesPerCluster)
    (calls : List FileCall) (hcalls : ∀ c ∈ calls, c.IsReading) (w : Writing Mem)
    (hrun : run (Writing.step l.ram) ⟨f, files', m', []⟩ calls = some w)
    (k : ℤ) (h0 : 0 ≤ k) (hk : k < 2 ^ 31) (n : ℕ) (hn : n < 2 ^ 31) :
    (vfsSeek l.ram w k seekSet).1 = .ok () ∧
    (vfsRead l.ram (vfsSeek l.ram w k seekSet).2 n).1 =
      .ok ((((chainData l m' cs).take (files' f.handle).fileSize).drop k.toNat).take n) := by
  obtain ⟨hused, hmode, hsize⟩ := reached_driver hopen hroute hfs hrun
  obtain ⟨hdisk, hflags, hsame⟩ := run_browsed hcalls hrun
  obtain ⟨-, hopened, -⟩ := vfsOpen_driver hopen
  dsimp only at hdisk hflags hsame
  rw [← hsame.size, ← hsame.first, ← hdisk] at hch
  have hslice := fat32Read_sought hl ⟨hused, hmode.mpr hwrite⟩ hch (by rw [hsame.size]; exact hlen)
    hsize h0 hk hn
  rw [hdisk, hsame.size] at hslice
  rw [vfsSeek_eq]
  refine ⟨rfl, ?_⟩
  dsimp only
  rw [hdisk, fat32VfsSeek_mem]
  have hallowed : w.file.flags &&& vfsReadFlag ≠ 0 := by
    rw [hflags, hopened]
    exact hread
  refine vfsRead_ok l.ram hallowed ?_
  rw [Writing.put_driver, intOfSize_eq hn]
  exact hslice

theorem seek_then_read_hello : ∃ w,
    run (Writing.step tinyLayout.ram) helloReading [.read true 100, .seek 4 0] = some w ∧
    (vfsRead tinyLayout.ram (vfsSeek tinyLayout.ram w 1 seekSet).2 3).1 = .ok [69, 76, 76] := by
  obtain ⟨mnt, hroute, hfs⟩ := route_hello
  have hch : Heads tinyLayout helloDisk 3 [3] :=
    ⟨Chain.mk' tinyLayout_geometry (by decide +kernel) (by simp) (by decide) (by decide +kernel),
      by decide⟩
  have hslice : (((chainData tinyLayout helloDisk [3]).take 5).drop 1).take 3 = [69, 76, 76] := by
    decide +kernel
  refine ⟨_, rfl, ?_⟩
  have hread :=
    (seek_then_read tinyLayout ⟨rfl, by decide, by decide⟩ mntState [47, 65] 1 (by decide)
    (by decide) true true noFiles helloReading.files helloDisk helloDisk _ vfsOpen_hello mnt [65]
    hroute hfs [3] (Or.inr hch) (by decide) [.read true 100, .seek 4 0] (by decide) _ rfl
      1 (by decide)
    (by norm_num) 3 (by norm_num)).2
  exact hread.trans (congrArg Except.ok hslice)

end XldKernel.Vfs
