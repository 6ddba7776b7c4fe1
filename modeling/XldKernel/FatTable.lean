import XldKernel.BlockDevice

/-!
# FAT32: the file allocation table

Source: `kernel/src/fat32.c` (`read_fat_entry` to `allocate_cluster`) and
`fat32.h`. Sector numbers are computed in `uint32_t`. The driver works on any
block device; on a `ramDisk` every access of the table is a four-byte access of
the disk at `fatAddr`.
-/

namespace XldKernel.Fat32
open ByteMemory BlockDevice

def fat32EocMin : ℕ := 0x0FFFFFF8
def fat32BadCluster : ℕ := 0x0FFFFFF7
def fat32FreeCluster : ℕ := 0
def endOfChain : ℕ := 0xFFFFFFFF

structure Bpb where
  bytesPerSector : ℕ
  sectorsPerCluster : ℕ
  reservedSectors : ℕ
  numFats : ℕ
  sectorsPerFat : ℕ
  rootCluster : ℕ

structure Layout where
  bpb : Bpb
  fatStart : ℕ
  dataStart : ℕ
  bytesPerCluster : ℕ

structure Fs (σ : Type) extends Layout where
  dev : BlockDev σ

def Layout.ram (l : Layout) : Fs Mem := ⟨l, ramDisk⟩

@[simp] theorem Layout.ram_toLayout (l : Layout) : l.ram.toLayout = l := rfl
@[simp] theorem Layout.ram_dev (l : Layout) : l.ram.dev = ramDisk := rfl

variable {σ : Type}

def readFatEntry (fs : Fs σ) (cluster : ℕ) (s : σ) : ℕ × σ :=
  let fatOffset := cluster * 4 % 2 ^ 32
  let fatSector := (fs.fatStart + fatOffset / sectorSize) % 2 ^ 32
  match fs.dev.read fatSector s with
  | (none, s) => (fat32BadCluster, s)
  | (some buf, s) => (load buf (fatOffset % sectorSize) 4 % 2 ^ 28, s)

/-- `(value & 0x0FFFFFFF) | (old & 0xF0000000)`. -/
def mergeEntry (value old : ℕ) : ℕ := value % 2 ^ 28 + old / 2 ^ 28 * 2 ^ 28

def writeFatEntry (fs : Fs σ) (cluster value : ℕ) (s : σ) : Bool × σ :=
  let fatOffset := cluster * 4 % 2 ^ 32
  let fatSector := (fs.fatStart + fatOffset / sectorSize) % 2 ^ 32
  let entryOffset := fatOffset % sectorSize
  match fs.dev.read fatSector s with
  | (none, s) => (false, s)
  | (some buf, s) =>
    fs.dev.write fatSector (store buf entryOffset 4 (mergeEntry value (load buf entryOffset 4))) s

def linkOf (entry : ℕ) : ℕ :=
  if fat32EocMin ≤ entry then endOfChain
  else if entry = fat32BadCluster then endOfChain
  else entry

def nextCluster (fs : Fs σ) (cluster : ℕ) (s : σ) : ℕ × σ :=
  match readFatEntry fs cluster s with
  | (entry, s) => (linkOf entry, s)

/-- Marking the free cluster and linking it behind `prev`, with the roll back. -/
def claimCluster (fs : Fs σ) (prev cluster : ℕ) (s : σ) : ℕ × σ :=
  match writeFatEntry fs cluster 0x0FFFFFFF s with
  | (false, s) => (0, s)
  | (true, s) =>
    if prev ≠ 0 then
      match writeFatEntry fs prev cluster s with
      | (false, s) => (0, (writeFatEntry fs cluster fat32FreeCluster s).2)
      | (true, s) => (cluster, s)
    else (cluster, s)

def allocateScan (fs : Fs σ) (prev : ℕ) : ℕ → ℕ → σ → ℕ × σ
  | 0, _, s => (0, s)
  | n + 1, cluster, s =>
    match readFatEntry fs cluster s with
    | (entry, s) =>
      if entry = fat32FreeCluster then claimCluster fs prev cluster s
      else allocateScan fs prev n (cluster + 1) s

/-- The bound of the scan, whatever the size of the table is. -/
def scanEnd : ℕ := 0x0FFFFFF0

def allocateCluster (fs : Fs σ) (prev : ℕ) (s : σ) : ℕ × σ :=
  allocateScan fs prev (scanEnd - 2) 2 s

namespace Layout
variable (l : Layout) (m : Mem)

def fatAddr (c : ℕ) : ℕ :=
  sectorSize * ((l.fatStart + c * 4 % 2 ^ 32 / sectorSize) % 2 ^ 32) + c * 4 % 2 ^ 32 % sectorSize

def entry (c : ℕ) : ℕ := load m (l.fatAddr c) 4 % 2 ^ 28

def next (c : ℕ) : ℕ := linkOf (l.entry m c)

def setEntry (c v : ℕ) : Mem :=
  store m (l.fatAddr c) 4 (mergeEntry v (load m (l.fatAddr c) 4))

def claim (prev c : ℕ) : Mem :=
  if prev ≠ 0 then l.setEntry (l.setEntry m c 0x0FFFFFFF) prev c else l.setEntry m c 0x0FFFFFFF

end Layout

theorem entryOffset_le (c : ℕ) : c * 4 % 2 ^ 32 % sectorSize + 4 ≤ sectorSize := by
  simp only [sectorSize]
  omega

@[simp] theorem readFatEntry_ram (l : Layout) (c : ℕ) (m : Mem) :
    readFatEntry l.ram c m = (l.entry m c, m) := by
  simp only [readFatEntry, Layout.ram, ramDisk, load_sector, Layout.entry, Layout.fatAddr]

@[simp] theorem writeFatEntry_ram (l : Layout) (c v : ℕ) (m : Mem) :
    writeFatEntry l.ram c v m = (true, l.setEntry m c v) := by
  simp only [writeFatEntry, Layout.ram, ramDisk, load_sector, Layout.setEntry, Layout.fatAddr,
    putSector_store m (entryOffset_le c)]

@[simp] theorem nextCluster_ram (l : Layout) (c : ℕ) (m : Mem) :
    nextCluster l.ram c m = (l.next m c, m) := by
  simp only [nextCluster, readFatEntry_ram, Layout.next]

@[simp] theorem claimCluster_ram (l : Layout) (prev c : ℕ) (m : Mem) :
    claimCluster l.ram prev c m = (c, l.claim m prev c) := by
  simp only [claimCluster, writeFatEntry_ram, Layout.claim]
  split_ifs <;> rfl

theorem setEntry_free (l : Layout) (m : Mem) {c : ℕ} (v : ℕ) (hfree : l.entry m c = 0) :
    l.setEntry (l.setEntry m c v) c 0 = m := by
  have hlt := load_lt m (l.fatAddr c) 4
  have hmerge : mergeEntry 0 (mergeEntry v (load m (l.fatAddr c) 4) % 256 ^ 4) =
      load m (l.fatAddr c) 4 := by
    simp only [Layout.entry, mergeEntry] at *
    omega
  rw [Layout.setEntry, Layout.setEntry, load_store_self, store_store, hmerge, store_load]

theorem allocateScan_ram (l : Layout) (prev n c : ℕ) (m : Mem) :
    (allocateScan l.ram prev n c m = (0, m) ∧ ∀ d, c ≤ d → d < c + n → l.entry m d ≠ 0) ∨
    ∃ d, c ≤ d ∧ d < c + n ∧ l.entry m d = 0 ∧ (∀ b, c ≤ b → b < d → l.entry m b ≠ 0) ∧
      allocateScan l.ram prev n c m = (d, l.claim m prev d) := by
  induction n generalizing c with
  | zero => exact Or.inl ⟨rfl, fun d h1 h2 => by omega⟩
  | succ n ih =>
    simp only [allocateScan, readFatEntry_ram, fat32FreeCluster]
    by_cases hfree : l.entry m c = 0
    · right
      rw [if_pos hfree]
      exact ⟨c, le_rfl, by omega, hfree, fun b h1 h2 => by omega, claimCluster_ram l prev c m⟩
    · rw [if_neg hfree]
      rcases ih (c + 1) with ⟨hres, hall⟩ | ⟨d, h1, h2, h0, hmin, hres⟩
      · left
        refine ⟨hres, ?_⟩
        intro d hcd hd
        rcases Nat.eq_or_lt_of_le hcd with rfl | hlt
        · exact hfree
        · exact hall d hlt (by omega)
      · right
        refine ⟨d, by omega, by omega, h0, ?_, hres⟩
        intro b hcb hb
        rcases Nat.eq_or_lt_of_le hcb with rfl | hlt
        · exact hfree
        · exact hmin b hlt hb

theorem allocateCluster_ram (l : Layout) (prev : ℕ) (m : Mem) :
    (allocateCluster l.ram prev m = (0, m) ∧ ∀ d, 2 ≤ d → d < scanEnd → l.entry m d ≠ 0) ∨
    ∃ d, 2 ≤ d ∧ d < scanEnd ∧ l.entry m d = 0 ∧ (∀ b, 2 ≤ b → b < d → l.entry m b ≠ 0) ∧
      allocateCluster l.ram prev m = (d, l.claim m prev d) := by
  have hend : 2 + (scanEnd - 2) = scanEnd := by decide
  have h := allocateScan_ram l prev (scanEnd - 2) 2 m
  rwa [hend] at h

end XldKernel.Fat32
