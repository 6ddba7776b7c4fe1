import XldKernel.FatReadBounds
import XldKernel.FatWriting

/-!
# FAT32: how far a transfer moves its handle

The loops of `fat32_read` and `fat32_write` in `kernel/src/fat32.c` add what they copied
to `file_pos` and to their result, at every exit and on any device. What a read is asked
for is cut at the end of the file, in `uint32_t`.
-/

namespace XldKernel.Fat32
open ByteMemory BlockDevice
variable {σ : Type}

structure SameFile (f f' : File) : Prop where
  used : f'.used = f.used
  mode : f'.mode = f.mode
  first : f'.firstCluster = f.firstCluster
  size : f'.fileSize = f.fileSize

theorem SameFile.trans {f g h : File} (hfg : SameFile f g) (hgh : SameFile g h) : SameFile f h :=
  ⟨hgh.used.trans hfg.used, hgh.mode.trans hfg.mode, hgh.first.trans hfg.first,
    hgh.size.trans hfg.size⟩

structure ReadsOn (f f' : File) (n : ℕ) : Prop extends SameFile f f' where
  pos : f'.filePos % 2 ^ 32 = (f.filePos + n) % 2 ^ 32
  bounded : f.filePos < 2 ^ 32 → f'.filePos < 2 ^ 32

theorem ReadsOn.refl (f : File) : ReadsOn f f 0 := ⟨⟨rfl, rfl, rfl, rfl⟩, rfl, id⟩

theorem ReadsOn.trans {f g h : File} {a b : ℕ} (hfg : ReadsOn f g a) (hgh : ReadsOn g h b) :
    ReadsOn f h (a + b) := by
  refine ⟨hfg.toSameFile.trans hgh.toSameFile, ?_, fun hlt => hgh.bounded (hfg.bounded hlt)⟩
  rw [hgh.pos, Nat.add_mod, hfg.pos, ← Nat.add_mod, Nat.add_assoc]

def File.placed (f : File) (n off cluster : ℕ) : File :=
  { f.readOn n with currOffset := off, currCluster := cluster }

theorem ReadsOn.placed (f : File) (n off cluster : ℕ) : ReadsOn f (f.placed n off cluster) n :=
  ⟨⟨rfl, rfl, rfl, rfl⟩, Nat.mod_mod _ _, fun _ => Nat.mod_lt _ (by decide)⟩

theorem length_read (m : Mem) (a n : ℕ) : (ByteMemory.read m a n).length = n := by
  simp [ByteMemory.read]

theorem readLoop_readsOn (fs : Fs σ) (n size : ℕ) (r : ReadState σ) :
    ∃ k ≤ size, (readLoop fs n size r).bytes.length = r.bytes.length + k ∧
      ReadsOn r.file (readLoop fs n size r).file k := by
  induction n generalizing size r with
  | zero => exact ⟨0, Nat.zero_le _, rfl, .refl _⟩
  | succ n ih =>
    rw [readLoop]
    by_cases h0 : size = 0
    · rw [if_pos h0]
      exact ⟨0, Nat.zero_le _, rfl, .refl _⟩
    rw [if_neg h0]
    dsimp only
    rcases skipClusters fs (r.file.currOffset / fs.bytesPerCluster) r.file.currCluster r.s with
      ⟨_ | target, s⟩
    · exact ⟨0, Nat.zero_le _, rfl, .refl _⟩
    dsimp only
    rcases fs.dev.read (fs.sectorOf target (r.file.currOffset % fs.bytesPerCluster / sectorSize)) s
      with ⟨_ | buf, s⟩
    · exact ⟨0, Nat.zero_le _, rfl, .refl _⟩
    dsimp only
    generalize hcopy : min size (sectorSize - r.file.currOffset % sectorSize) = toCopy
    have hle : toCopy ≤ size := by omega
    -- the copy of this round, then what the rest of the loop adds
    have hrest : ∀ (off cluster : ℕ) (s : σ), ∃ k ≤ size,
        (readLoop fs n (size - toCopy) ⟨r.file.placed toCopy off cluster,
          r.bytes ++ ByteMemory.read buf (r.file.currOffset % sectorSize) toCopy, s⟩).bytes.length =
            r.bytes.length + k ∧
        ReadsOn r.file (readLoop fs n (size - toCopy) ⟨r.file.placed toCopy off cluster,
          r.bytes ++ ByteMemory.read buf (r.file.currOffset % sectorSize) toCopy, s⟩).file k := by
      intro off cluster s
      obtain ⟨k, hk, hlen, hmoved⟩ := ih (size - toCopy) ⟨r.file.placed toCopy off cluster,
        r.bytes ++ ByteMemory.read buf (r.file.currOffset % sectorSize) toCopy, s⟩
      refine ⟨toCopy + k, by omega, ?_, (ReadsOn.placed _ _ _ _).trans hmoved⟩
      rw [hlen, List.length_append, length_read, Nat.add_assoc]
    split_ifs
    · refine ⟨toCopy, hle, ?_, .placed _ _ _ _⟩
      rw [List.length_append, length_read]
    · exact hrest _ _ _
    · exact hrest _ _ _

theorem fat32Read_cases (fs : Fs σ) (f : File) (size : ℤ) (s : σ) :
    (fat32Read fs f size s = (none, f, s) ∧ ¬ (f.used = true ∧ f.mode = .read)) ∨
    ∃ bytes f' s', fat32Read fs f size s = (some bytes, f', s') ∧ (f.used = true ∧ f.mode = .read) ∧
      bytes.length ≤ readSize f size ∧ ReadsOn f f' bytes.length := by
  rw [fat32Read]
  by_cases hopen : ¬ (f.used = true) ∨ f.mode ≠ .read
  · rw [if_pos hopen]
    exact Or.inl ⟨rfl, by tauto⟩
  · rw [if_neg hopen]
    obtain ⟨k, hk, hlen, hmoved⟩ :=
      readLoop_readsOn fs (readSize f size) (readSize f size) ⟨f, [], s⟩
    rw [List.length_nil, Nat.zero_add] at hlen
    exact Or.inr ⟨_, _, _, rfl, by tauto, hlen.trans_le hk, hlen ▸ hmoved⟩

structure WritesOn (w w' : WriteState σ) : Prop where
  used : w'.file.used = w.file.used
  mode : w'.file.mode = w.file.mode
  pos : (w'.file.filePos + w.written) % 2 ^ 32 = (w.file.filePos + w'.written) % 2 ^ 32
  bounded : w.file.filePos < 2 ^ 32 → w'.file.filePos < 2 ^ 32
  size : w.file.fileSize < 2 ^ 32 → w'.file.fileSize < 2 ^ 32

theorem WritesOn.refl (w : WriteState σ) : WritesOn w w := ⟨rfl, rfl, rfl, id, id⟩

theorem WritesOn.trans {w w₁ w₂ : WriteState σ} (h₁ : WritesOn w w₁) (h₂ : WritesOn w₁ w₂) :
    WritesOn w w₂ := by
  refine ⟨h₂.used.trans h₁.used, h₂.mode.trans h₁.mode, ?_, fun h => h₂.bounded (h₁.bounded h),
    fun h => h₂.size (h₁.size h)⟩
  have hp₁ := h₁.pos
  have hp₂ := h₂.pos
  omega

theorem ensureCluster_writesOn (fs : Fs σ) (w : WriteState σ) :
    WritesOn w (ensureCluster fs w).2 := by
  simp only [ensureCluster]
  split_ifs
  · exact .refl w
  · exact ⟨rfl, rfl, rfl, id, id⟩
  · exact ⟨rfl, rfl, rfl, id, id⟩

theorem writeChunk_writesOn (fs : Fs σ) (w : WriteState σ) : WritesOn w (writeChunk fs w).2 := by
  rw [writeChunk]
  dsimp only
  split
  · exact ⟨rfl, rfl, rfl, id, id⟩
  · have hlt : (w.file.filePos + w.toCopy) % 2 ^ 32 < 2 ^ 32 := Nat.mod_lt _ (by decide)
    refine ⟨rfl, rfl, ?_, fun _ => hlt, fun hsize => max_lt hsize hlt⟩
    dsimp only
    omega

theorem advance_writesOn (fs : Fs σ) (w : WriteState σ) : WritesOn w (advance fs w).2 := by
  rw [advance]
  dsimp only
  split_ifs
  · exact .refl w
  · exact ⟨rfl, rfl, rfl, id, id⟩
  · exact ⟨rfl, rfl, rfl, id, id⟩
  · exact ⟨rfl, rfl, rfl, id, id⟩

theorem writeLoop_writesOn (fs : Fs σ) (n : ℕ) (w : WriteState σ) : WritesOn w (writeLoop fs n w) :=
  writeLoop_rel WritesOn (fun _ _ _ => .trans) (ensureCluster_writesOn fs) (writeChunk_writesOn fs)
    (advance_writesOn fs) WritesOn.refl n w

theorem fat32Write_cases (fs : Fs σ) (f : File) (data : List UInt8) (s : σ) :
    ((fat32Write fs f data s).1 = -1 ∧ (fat32Write fs f data s).2.file = f) ∨
    ((fat32Write fs f data s).1 = (fat32Write fs f data s).2.written ∧
      WritesOn ⟨f, data, 0, s, []⟩ (fat32Write fs f data s).2) := by
  rw [fat32Write]
  split_ifs
  · exact Or.inl ⟨rfl, rfl⟩
  · exact Or.inr ⟨rfl, writeLoop_writesOn fs _ _⟩

variable {l : Layout} {m : Mem}

theorem readLoop_length_le (fs : Fs σ) (n size : ℕ) (r : ReadState σ) :
    r.bytes.length ≤ (readLoop fs n size r).bytes.length := by
  obtain ⟨k, -, hlen, -⟩ := readLoop_readsOn fs n size r
  omega

/-- More than `k` bytes are copied exactly when more were asked for and the chain reaches
the cluster of the next one. -/
theorem lt_readLoop_length (hl : l.Mounted) (n k : ℕ) {size : ℕ} {f : File} (bytes : List UInt8)
    (hlt : f.currOffset < l.bytesPerCluster) (hn : size ≤ n) :
    bytes.length + k < (readLoop l.ram n size ⟨f, bytes, m⟩).bytes.length ↔
      k < size ∧ l.after m ((f.currOffset + k) / l.bytesPerCluster) f.currCluster ≠ none := by
  induction n generalizing size k f bytes with
  | zero =>
    obtain rfl : size = 0 := by omega
    simp [readLoop]
  | succ n ih =>
    by_cases h0 : size = 0
    · simp [readLoop, h0]
    have hfits := File.chunk_fits hl hlt size
    have hchunk := f.chunk_pos h0
    have hle := f.chunk_le size
    have hread : ∀ b : List UInt8, (b ++ ByteMemory.read (sector m (f.dataRead l size).sector)
        (f.dataRead l size).offset (f.dataRead l size).count).length = b.length + f.chunk size := by
      intro b
      rw [List.length_append, length_read]
      rfl
    rw [readLoop_round hl n bytes h0 hlt]
    dsimp only
    rcases Nat.lt_or_ge k (f.chunk size) with hk | hk
    · -- the byte is copied in this round
      have hhere : (f.currOffset + k) / l.bytesPerCluster = 0 := Nat.div_eq_of_lt (by omega)
      refine iff_of_true ?_ ⟨by omega, by simp [hhere]⟩
      split_ifs
      · rw [hread]
        omega
      · refine Nat.lt_of_lt_of_le ?_ (readLoop_length_le _ _ _ _)
        rw [hread]
        omega
    · obtain ⟨j, rfl⟩ := Nat.exists_eq_add_of_le hk
      have hsize : f.chunk size + j < size ↔ j < size - f.chunk size := by omega
      have hnext := File.readRound_offset (m := m) hl hlt size
      by_cases hout : f.RunsOut l m (f.chunk size)
      · rw [if_pos hout]
        refine iff_of_false (by rw [hread]; omega) ?_
        rintro ⟨-, hafter⟩
        apply hafter
        have hend : f.currOffset + f.chunk size = l.bytesPerCluster := le_antisymm hfits hout.1
        rw [← Nat.add_assoc, hend, Nat.add_div_left _ hl.bytes_pos, Layout.after_succ,
          if_pos hout.2]
      · rw [if_neg hout, hsize, ← Nat.add_assoc, ← hread, ih _ _ hnext (by omega)]
        refine and_congr_right fun _ => ?_
        rcases File.readRound_cases (m := m) hl hlt size with ⟨-, heq, -⟩ | ⟨hend, heq⟩
        · rw [heq, File.readOn_offset hl hlt, Nat.add_assoc]
          rfl
        · have hgoes : l.next m f.currCluster ≠ endOfChain := fun h => hout ⟨hend.ge, h⟩
          rw [heq, ← Nat.add_assoc, hend, Nat.add_div_left _ hl.bytes_pos, Layout.after_succ,
            if_neg hgoes, Nat.zero_add]

theorem readSize_eq {f : File} (hpos : f.filePos ≤ f.fileSize) (hsize : f.fileSize < 2 ^ 32)
    {size : ℤ} (hint : size < 2 ^ 31) :
    readSize f size =
      if (f.filePos : ℤ) + size < 2 ^ 32 then min size.toNat (f.fileSize - f.filePos)
      else if f.filePos = f.fileSize then 0 else size.toNat := by
  rw [readSize]
  split_ifs <;> omega

def ReadsWithin (fs : Fs σ) (f : File) (size : ℤ) (s : σ) : Prop :=
  ∃ bytes f' s', fat32Read fs f size s = (some bytes, f', s') ∧
    bytes.length ≤ f.fileSize - f.filePos ∧ f'.filePos ≤ f'.fileSize

theorem readsWithin_iff (fs : Fs σ) {f : File} (hopen : f.used = true ∧ f.mode = .read)
    (hpos : f.filePos ≤ f.fileSize) (hsize : f.fileSize < 2 ^ 32) (size : ℤ) (s : σ) :
    ReadsWithin fs f size s ↔
      (readLoop fs (readSize f size) (readSize f size) ⟨f, [], s⟩).bytes.length ≤
        f.fileSize - f.filePos := by
  obtain ⟨k, -, hlen, hmoved⟩ := readLoop_readsOn fs (readSize f size) (readSize f size) ⟨f, [], s⟩
  have hno : ¬ (¬ (f.used = true) ∨ f.mode ≠ .read) := by tauto
  rw [ReadsWithin, fat32Read, if_neg hno]
  constructor
  · rintro ⟨bytes, f', s', heq, hle, -⟩
    obtain ⟨hbytes, -⟩ := Prod.mk.inj heq
    rwa [← Option.some_inj.mp hbytes] at hle
  · intro hle
    refine ⟨_, _, _, rfl, hle, ?_⟩
    have hp := hmoved.pos
    have hb := hmoved.bounded (by dsimp only; omega)
    rw [List.length_nil, Nat.zero_add] at hlen
    rw [hmoved.size]
    dsimp only at hp hb ⊢
    omega

/-- On any device a call stays within the file when the position and the request do not
add up to `2^32`, or nothing is left. On a disk without faults it does so in one more
case: the chain has no cluster for the first byte behind the end of the file. -/
theorem read_within_iff (f : File) (hused : f.used = true) (hmode : f.mode = .read)
    (hpos : f.filePos ≤ f.fileSize) (hsize : f.fileSize < 2 ^ 32) (size : ℤ)
    (hint : size < 2 ^ 31) :
    (∀ (σ : Type) (fs : Fs σ) (s : σ),
      (f.filePos : ℤ) + size < 2 ^ 32 ∨ f.filePos = f.fileSize → ReadsWithin fs f size s) ∧
    ∀ (l : Layout) (m : Mem), l.Mounted → f.currOffset < l.bytesPerCluster →
      (ReadsWithin l.ram f size m ↔
        (f.filePos : ℤ) + size < 2 ^ 32 ∨ f.filePos = f.fileSize ∨
          (skipClusters l.ram ((f.currOffset + (f.fileSize - f.filePos)) / l.bytesPerCluster)
            f.currCluster m).1 = none) := by
  have hcut := readSize_eq hpos hsize hint
  refine ⟨fun σ fs s hfits => ?_, fun l m hl hoff => ?_⟩
  · rw [readsWithin_iff fs ⟨hused, hmode⟩ hpos hsize]
    obtain ⟨k, hk, hlen, -⟩ := readLoop_readsOn fs (readSize f size) (readSize f size) ⟨f, [], s⟩
    rw [List.length_nil, Nat.zero_add] at hlen
    rw [hlen]
    refine hk.trans ?_
    rw [hcut]
    split_ifs <;> omega
  · have hgt := lt_readLoop_length hl (m := m) (readSize f size) (f.fileSize - f.filePos) [] hoff
      le_rfl
    rw [List.length_nil, Nat.zero_add] at hgt
    rw [readsWithin_iff l.ram ⟨hused, hmode⟩ hpos hsize, ← not_lt, hgt, hcut]
    change ¬ (_ ∧ (skipClusters l.ram _ f.currCluster m).1 ≠ none) ↔ _
    rw [not_and_or, not_ne_iff, ← or_assoc]
    refine or_congr_left ?_
    split_ifs <;> omega

theorem read_within_iff_hello :
    ReadsWithin tinyLayout.ram (openFile helloEntry 114) 100 helloDisk :=
  ((read_within_iff (openFile helloEntry 114) rfl rfl (by decide) (by decide) 100 (by decide)).2
    tinyLayout helloDisk ⟨rfl, by decide, by decide⟩ (by decide)).mpr (Or.inl (by decide))

def roundDisk : Mem := tinyLayout.setEntry helloDisk 3 3

def hugeFile : File := ⟨true, .read, 3, 3, 496, 0xFFFFFFFF, 0xFFFFFFF0⟩

/-- The position and the request add up to `2^32 + 240`, so 256 bytes are read. -/
theorem read_past_end :
    ((fat32Read tinyLayout.ram hugeFile 256 roundDisk).1.map List.length = some 256 ∧
      hugeFile.fileSize - hugeFile.filePos = 15) ∧
    ¬ ReadsWithin tinyLayout.ram hugeFile 256 roundDisk := by
  have hcount : (fat32Read tinyLayout.ram hugeFile 256 roundDisk).1.map List.length = some 256 := by
    decide +kernel
  refine ⟨⟨hcount, rfl⟩, ?_⟩
  rintro ⟨bytes, f', m', heq, hle, -⟩
  rw [heq, Option.map_some, Option.some_inj] at hcount
  rw [hcount] at hle
  exact absurd hle (by decide)

end XldKernel.Fat32
