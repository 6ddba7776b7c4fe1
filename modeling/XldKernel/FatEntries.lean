import XldKernel.FatCheck

/-!
# FAT32: the table as an array

Source: `read_fat_entry` and `write_fat_entry` of `kernel/src/fat32.c`. A word of the table
is addressed by its sector and its offset there. Where these do not wrap, writing one
entry changes the lower 28 bits of one word and nothing else on the disk.
-/

namespace XldKernel.Fat32
open ByteMemory BlockDevice
variable {l : Layout} {m : Mem} {c d : ℕ}

def Layout.storedWord (l : Layout) (m : Mem) (d : ℕ) : ℕ :=
  load (sector m (l.fatStart + d / 128)) (d % 128 * 4) 4

section Array
variable (hfat : l.fatStart + 2 ^ 21 < 2 ^ 32)
include hfat

theorem fatAddr_linear (hd : d < 2 ^ 28) : l.fatAddr d = 512 * l.fatStart + 4 * d := by
  simp only [Layout.fatAddr, sectorSize]
  omega

theorem storedWord_eq (hd : d < 2 ^ 28) (m : Mem) : l.storedWord m d = load m (l.fatAddr d) 4 := by
  have haddr : sectorSize * (l.fatStart + d / 128) + d % 128 * 4 = l.fatAddr d := by
    rw [fatAddr_linear hfat hd, sectorSize]
    omega
  rw [Layout.storedWord, load_sector, haddr]

theorem storedWord_setEntry (hc : c < 2 ^ 28) (hd : d < 2 ^ 28) (v : ℕ) :
    l.storedWord (l.setEntry m c v) d =
      if d = c then mergeEntry v (l.storedWord m c) else l.storedWord m d := by
  rw [storedWord_eq hfat hd, storedWord_eq hfat hc, storedWord_eq hfat hd, Layout.setEntry]
  split_ifs with heq
  · have hold := load_lt m (l.fatAddr c) 4
    rw [heq, load_store_self, Nat.mod_eq_of_lt]
    rw [mergeEntry]
    omega
  · refine load_store_apart m ?_
    rw [fatAddr_linear hfat hc, fatAddr_linear hfat hd]
    omega

theorem sector_setEntry (hc : c < 2 ^ 28) (v : ℕ) {s i : ℕ} (hs : s ≠ l.fatStart + c / 128)
    (hi : i < sectorSize) : sector (l.setEntry m c v) s i = sector m s i := by
  refine store_apart m ?_
  rw [sectorSize] at hi
  rw [fatAddr_linear hfat hc, sectorSize]
  omega

end Array

/-- Reading after writing, the four bits above an entry, and the other sectors. -/
theorem fat_entries_array (l : Layout) (m : Mem) (hfat : l.fatStart + 2 ^ 21 < 2 ^ 32) (c d v : ℕ)
    (hc : c < 2 ^ 28) (hd : d < 2 ^ 28) :
    ∃ m', writeFatEntry l.ram c v m = (true, m') ∧
      readFatEntry l.ram d m' = (if d = c then v % 2 ^ 28 else (readFatEntry l.ram d m).1, m') ∧
      l.storedWord m' d / 2 ^ 28 = l.storedWord m d / 2 ^ 28 ∧
      ∀ s ≠ l.fatStart + c / 128, ∀ i < sectorSize, sector m' s i = sector m s i := by
  have hword := storedWord_setEntry (m := m) hfat hc hd v
  refine ⟨_, writeFatEntry_ram l c v m, ?_, ?_, fun s hs i hi => sector_setEntry hfat hc v hs hi⟩
  · rw [readFatEntry_ram, readFatEntry_ram, Layout.entry, ← storedWord_eq hfat hd, hword,
      Layout.entry, ← storedWord_eq hfat hd]
    split_ifs
    · rw [mergeEntry, Nat.add_mul_mod_self_right, Nat.mod_mod]
    · rfl
  · rw [hword]
    split_ifs with heq
    · rw [heq, mergeEntry]
      omega
    · rfl

theorem fat_entries_array_neighbours :
    ∃ m', writeFatEntry tinyLayout.ram 2 0x0FFFFFF7 (fun _ => 0xFF) = (true, m') ∧
      readFatEntry tinyLayout.ram 3 m' = (0x0FFFFFFF, m') ∧
        tinyLayout.storedWord m' 3 / 2 ^ 28 = 15 := by
  obtain ⟨m', hwrite, hread, hupper, -⟩ :=
    fat_entries_array tinyLayout (fun _ => 0xFF) (by decide) 2 3
    0x0FFFFFF7 (by decide) (by decide)
  exact ⟨m', hwrite, hread, hupper⟩

end XldKernel.Fat32
