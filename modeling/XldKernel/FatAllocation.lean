import XldKernel.FatReadBounds

/-!
# Where a cluster allocation writes

`allocate_cluster` of `kernel/src/fat32.c` scans the clusters from 2 to `0x0FFFFFF0`, a
bound of the format. Behind the last entry of the first table it reads what comes next on
the disk, a copy of the table or the data area, as if these were entries. The sectors
that are written are those of a `loggedDisk`.
-/

namespace XldKernel.Fat32
open ByteMemory BlockDevice

def Layout.logged (l : Layout) : Fs (Mem × List ℕ) := ⟨l, loggedDisk⟩

def Layout.fatSector (l : Layout) (c : ℕ) : ℕ :=
  (l.fatStart + c * 4 % 2 ^ 32 / sectorSize) % 2 ^ 32

def Layout.claimSectors (l : Layout) (prev c : ℕ) : List ℕ :=
  if prev ≠ 0 then [l.fatSector c, l.fatSector prev] else [l.fatSector c]

variable {l : Layout} {m m₀ : Mem} {prev c : ℕ}

theorem readFatEntry_logged (l : Layout) (c : ℕ) (m : Mem) (log : List ℕ) :
    readFatEntry l.logged c (m, log) = (l.entry m c, m, log) := by
  simp only [readFatEntry, Layout.logged, loggedDisk, load_sector, Layout.entry, Layout.fatAddr]

theorem writeFatEntry_logged (l : Layout) (c v : ℕ) (m : Mem) (log : List ℕ) :
    writeFatEntry l.logged c v (m, log) = (true, l.setEntry m c v, log ++ [l.fatSector c]) := by
  simp only [writeFatEntry, Layout.logged, loggedDisk, load_sector, Layout.setEntry, Layout.fatAddr,
    Layout.fatSector, putSector_store m (entryOffset_le c)]

theorem claimCluster_logged (l : Layout) (prev c : ℕ) (m : Mem) (log : List ℕ) :
    claimCluster l.logged prev c (m, log) =
      (c, l.claim m prev c, log ++ l.claimSectors prev c) := by
  simp only [claimCluster, writeFatEntry_logged, Layout.claim, Layout.claimSectors]
  split_ifs <;> simp

theorem allocateScan_logged (l : Layout) (prev n c : ℕ) (m : Mem) (hc : c ≠ 0) :
    allocateScan l.logged prev n c (m, []) =
      ((allocateScan l.ram prev n c m).1, (allocateScan l.ram prev n c m).2,
        if (allocateScan l.ram prev n c m).1 = 0 then []
        else l.claimSectors prev (allocateScan l.ram prev n c m).1) := by
  induction n generalizing c with
  | zero => rfl
  | succ n ih =>
    simp only [allocateScan, readFatEntry_logged, readFatEntry_ram]
    by_cases hfree : l.entry m c = fat32FreeCluster
    · simp only [if_pos hfree, claimCluster_logged, claimCluster_ram, if_neg hc, List.nil_append]
    · simp only [if_neg hfree]
      exact ih (c + 1) (by omega)

theorem allocateCluster_logged (l : Layout) (prev : ℕ) (m : Mem) :
    (allocateCluster l.logged prev (m, []) = (0, m, []) ∧
      ∀ d, 2 ≤ d → d < scanEnd → l.entry m d ≠ 0) ∨
    ∃ d, 2 ≤ d ∧ d < scanEnd ∧ l.entry m d = 0 ∧ (∀ b, 2 ≤ b → b < d → l.entry m b ≠ 0) ∧
      allocateCluster l.logged prev (m, []) = (d, l.claim m prev d, l.claimSectors prev d) := by
  have hlog : allocateCluster l.logged prev (m, []) =
      ((allocateCluster l.ram prev m).1, (allocateCluster l.ram prev m).2,
        if (allocateCluster l.ram prev m).1 = 0 then []
        else l.claimSectors prev (allocateCluster l.ram prev m).1) :=
    allocateScan_logged l prev (scanEnd - 2) 2 m (by decide)
  rcases allocateCluster_ram l prev m with ⟨hres, hall⟩ | ⟨d, h2, hend, hfree, hmin, hres⟩
  · rw [hres, if_pos rfl] at hlog
    exact Or.inl ⟨hlog, hall⟩
  · rw [hres, if_neg (by omega)] at hlog
    exact Or.inr ⟨d, h2, hend, hfree, hmin, hlog⟩

/-- The reserved sectors are counted in 16 bits, so no sector number of the table wraps. -/
theorem fatSector_inside (hmount : fat32Mount ramDisk true m₀ = (some l.ram, m₀))
    (hc : c < l.clusters) :
    l.fatStart ≤ l.fatSector c ∧ l.fatSector c < l.fatStart + l.bpb.sectorsPerFat := by
  obtain ⟨boot, -, rfl⟩ := fat32Mount_boot hmount
  have hstart : (bootLayout boot).fatStart < 2 ^ 16 := load_lt boot 14 2
  rw [Layout.fatSector]
  rw [Layout.clusters] at hc
  rw [sectorSize]
  omega

/-- What an allocation is expected to do: a cluster of the volume or none, no write outside
the first table, and no change when there is none. -/
structure AllocatesInside (l : Layout) (prev : ℕ) (m : Mem) : Prop where
  cluster : (allocateCluster l.logged prev (m, [])).1 = 0 ∨
    l.InVolume (allocateCluster l.logged prev (m, [])).1
  sectors : ∀ s ∈ (allocateCluster l.logged prev (m, [])).2.2,
    l.fatStart ≤ s ∧ s < l.fatStart + l.bpb.sectorsPerFat
  failed : (allocateCluster l.logged prev (m, [])).1 = 0 →
    (allocateCluster l.logged prev (m, [])).2.1 = m

/-- An allocation stays inside the volume exactly when the first table has a free entry or
nothing in the whole range of the scan reads as one. -/
theorem allocation_inside_iff (m₀ : Mem) (l : Layout)
    (hmount : fat32Mount ramDisk true m₀ = (some l.ram, m₀)) (m : Mem) (prev : ℕ)
    (hprev : prev = 0 ∨ l.InVolume prev) :
    AllocatesInside l prev m ↔
      (∃ c, l.InVolume c ∧ c < scanEnd ∧ l.entry m c = 0) ∨
        ∀ c, 2 ≤ c → c < scanEnd → l.entry m c ≠ 0 := by
  rcases allocateCluster_logged l prev m with ⟨hres, hall⟩ | ⟨d, h2, hend, hfree, hmin, hres⟩
  · refine ⟨fun _ => Or.inr hall, fun _ => ⟨?_, ?_, ?_⟩⟩
    · exact Or.inl (by rw [hres])
    · simp [hres]
    · exact fun _ => by rw [hres]
  · constructor
    · intro hinside
      have hcluster := hinside.cluster
      rw [hres] at hcluster
      rcases hcluster with h0 | hvol
      · exact absurd h0 (by dsimp only; omega)
      · exact Or.inl ⟨d, hvol, hend, hfree⟩
    · intro hcond
      have hvol : l.InVolume d := by
        rcases hcond with ⟨c, hc, -, hzero⟩ | hall
        · refine ⟨h2, ?_⟩
          by_contra hout
          exact hmin c hc.1 (hc.2.trans_le (not_lt.mp hout)) hzero
        · exact absurd hfree (hall d h2 hend)
      refine ⟨Or.inr (by rwa [hres]), ?_, fun h0 => ?_⟩
      · rw [hres]
        dsimp only [Layout.claimSectors]
        intro s hs
        split_ifs at hs with hnone
        · rcases List.mem_pair.mp hs with rfl | rfl
          · exact fatSector_inside hmount hvol.2
          · exact fatSector_inside hmount (hprev.resolve_left hnone).2
        · rw [List.mem_singleton.mp hs]
          exact fatSector_inside hmount hvol.2
      · rw [hres] at h0
        exact absurd h0 (by dsimp only; omega)

theorem allocation_inside_iff_short : AllocatesInside tinyLayout 3 shortDisk :=
  (allocation_inside_iff shortDisk tinyLayout shortDisk_mount shortDisk 3
    (Or.inr (by decide))).mpr (Or.inl ⟨4, by decide, by decide, by decide +kernel⟩)

def filledDisk : Mem := tinyBoot (fill tinyDisk 512 512 0xFF)

theorem filledDisk_mount :
    fat32Mount ramDisk true filledDisk = (some tinyLayout.ram, filledDisk) := by
  refine tinyLayout_mount (by decide +kernel) ?_
  simp only [bpbAt, Bpb.mk.injEq]
  decide +kernel

/-- The 128 entries of the table are taken. The first four bytes of the root directory are
read as the entry of cluster 128 and overwritten. -/
theorem allocation_outside :
    fat32Mount ramDisk true filledDisk = (some tinyLayout.ram, filledDisk) ∧
    (allocateCluster tinyLayout.logged 0 (filledDisk, [])).1 = 128 ∧ tinyLayout.clusters = 128 ∧
    (allocateCluster tinyLayout.logged 0 (filledDisk, [])).2.2 = [2] ∧ tinyLayout.dataStart = 2 ∧
    load filledDisk 1024 4 = 0 ∧
    load (allocateCluster tinyLayout.logged 0 (filledDisk, [])).2.1 1024 4 = 0x0FFFFFFF ∧
    ¬ AllocatesInside tinyLayout 0 filledDisk := by
  have hcluster : (allocateCluster tinyLayout.logged 0 (filledDisk, [])).1 = 128 := by
    decide +kernel
  refine ⟨filledDisk_mount, hcluster, by decide, by decide +kernel, rfl, by decide +kernel,
    by decide +kernel, fun hinside => ?_⟩
  have hvol := hinside.cluster
  rw [hcluster] at hvol
  exact absurd hvol (by decide)

end XldKernel.Fat32
