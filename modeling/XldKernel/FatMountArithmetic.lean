import XldKernel.FatReadBounds

/-!
# FAT32: the sector arithmetic of a mounted volume

Source: `kernel/src/fat32.c` (`fat32_mount` and the sector numbers of `fat32_find`,
`fat32_read` and `fat32_write`). The mount checks the sector size and that two of the
factors are not zero; how large the table may be it does not ask, and the sums and
products are taken modulo `2^32`.
-/

namespace XldKernel.Fat32
open ByteMemory BlockDevice
variable {σ : Type} {l : Layout}

structure Layout.Addressed (l : Layout) (c i : ℕ) : Prop where
  two_le : 2 ≤ c
  lt : c < 128 * l.bpb.sectorsPerFat
  sector : i < l.bpb.sectorsPerCluster

structure NoWrap (l : Layout) : Prop where
  data : l.dataStart = l.bpb.reservedSectors + l.bpb.numFats * l.bpb.sectorsPerFat
  sectors : ∀ c i, l.Addressed c i →
    l.sectorOf c i = l.dataStart + (c - 2) * l.bpb.sectorsPerCluster + i
  distinct : ∀ c i c' i', l.Addressed c i → l.Addressed c' i' →
    l.sectorOf c i = l.sectorOf c' i' → c = c' ∧ i = i'
  above : ∀ c i, l.Addressed c i → l.dataStart ≤ l.sectorOf c i

/-- The reserved sectors, the tables and the clusters fit into `2^32` sectors. -/
def FitsWord (bpb : Bpb) : Prop :=
  bpb.reservedSectors + bpb.numFats * bpb.sectorsPerFat +
    (128 * bpb.sectorsPerFat - 2) * bpb.sectorsPerCluster ≤ 2 ^ 32

instance (bpb : Bpb) : Decidable (FitsWord bpb) := inferInstanceAs (Decidable (_ ≤ _))

theorem sectorOf_mod (l : Layout) {c : ℕ} (hc : 2 ≤ c) (i : ℕ) :
    l.sectorOf c i = (l.dataStart + (c - 2) * l.bpb.sectorsPerCluster + i) % 2 ^ 32 := by
  have hprod : (c + (2 ^ 32 - 2)) * l.bpb.sectorsPerCluster =
      (c - 2) * l.bpb.sectorsPerCluster + 2 ^ 32 * l.bpb.sectorsPerCluster := by
    rw [← Nat.add_mul]
    congr 1
    omega
  rw [Layout.sectorOf, Layout.firstSector, hprod]
  generalize (c - 2) * l.bpb.sectorsPerCluster = x
  omega

theorem addressed_lt {c i : ℕ} (h : l.Addressed c i) :
    (c - 2) * l.bpb.sectorsPerCluster + i <
      (128 * l.bpb.sectorsPerFat - 2) * l.bpb.sectorsPerCluster := by
  obtain ⟨h2, hlt, hi⟩ := h
  calc (c - 2) * l.bpb.sectorsPerCluster + i
      < (c - 2) * l.bpb.sectorsPerCluster + l.bpb.sectorsPerCluster := by omega
    _ = (c - 2 + 1) * l.bpb.sectorsPerCluster := by rw [Nat.add_mul, Nat.one_mul]
    _ ≤ (128 * l.bpb.sectorsPerFat - 2) * l.bpb.sectorsPerCluster :=
      Nat.mul_le_mul_right _ (by omega)

theorem addressed_inj {c i c' i' : ℕ} (h : l.Addressed c i) (h' : l.Addressed c' i')
    (heq : (c - 2) * l.bpb.sectorsPerCluster + i = (c' - 2) * l.bpb.sectorsPerCluster + i') :
    c = c' ∧ i = i' := by
  obtain ⟨h2, -, hi⟩ := h
  obtain ⟨h2', -, hi'⟩ := h'
  have hpos : 0 < l.bpb.sectorsPerCluster := Nat.zero_lt_of_lt hi
  have hdiv : ∀ a j, j < l.bpb.sectorsPerCluster →
      (a * l.bpb.sectorsPerCluster + j) / l.bpb.sectorsPerCluster = a ∧
        (a * l.bpb.sectorsPerCluster + j) % l.bpb.sectorsPerCluster = j := by
    intro a j hj
    rw [Nat.add_comm, Nat.add_mul_div_right _ _ hpos, Nat.add_mul_mod_self_right,
      Nat.mod_eq_of_lt hj, Nat.div_eq_of_lt hj, Nat.zero_add]
    exact ⟨rfl, rfl⟩
  obtain ⟨hc, hj⟩ := hdiv (c - 2) i hi
  obtain ⟨hc', hj'⟩ := hdiv (c' - 2) i' hi'
  rw [heq] at hc hj
  omega

section Boot
variable {boot : Mem} (hgood : GoodBoot boot)
include hgood

theorem FitsWord.dataStart (h : FitsWord (bpbAt boot)) :
    (bootLayout boot).dataStart =
      (bpbAt boot).reservedSectors + (bpbAt boot).numFats * (bpbAt boot).sectorsPerFat := by
  refine Nat.mod_eq_of_lt ?_
  have hreserved : (bpbAt boot).reservedSectors < 2 ^ 16 := load_lt boot 14 2
  rcases Nat.eq_zero_or_pos (bpbAt boot).sectorsPerFat with h0 | hpos
  · rw [h0]
    omega
  · have hclusters : 0 < (128 * (bpbAt boot).sectorsPerFat - 2) * (bpbAt boot).sectorsPerCluster :=
      Nat.mul_pos (by omega) (Nat.pos_of_ne_zero hgood.2.1)
    rw [FitsWord] at h
    omega

theorem FitsWord.noWrap (h : FitsWord (bpbAt boot)) : NoWrap (bootLayout boot) := by
  have hdata := h.dataStart hgood
  have hsector : ∀ c i, (bootLayout boot).Addressed c i → (bootLayout boot).sectorOf c i =
      (bootLayout boot).dataStart + (c - 2) * (bootLayout boot).bpb.sectorsPerCluster + i := by
    intro c i hci
    have hlt := addressed_lt hci
    rw [sectorOf_mod _ hci.two_le, Nat.mod_eq_of_lt]
    have hfits : (bootLayout boot).dataStart + (128 * (bootLayout boot).bpb.sectorsPerFat - 2) *
        (bootLayout boot).bpb.sectorsPerCluster ≤ 2 ^ 32 := by
      rw [hdata]
      exact h
    omega
  refine ⟨hdata, hsector, fun c i c' i' hci hci' heq => ?_, fun c i hci => ?_⟩
  · rw [hsector c i hci, hsector c' i' hci', Nat.add_assoc, Nat.add_assoc] at heq
    exact addressed_inj hci hci' (Nat.add_left_cancel heq)
  · rw [hsector c i hci, Nat.add_assoc]
    exact Nat.le_add_right _ _

theorem NoWrap.fitsWord (h : NoWrap (bootLayout boot)) : FitsWord (bpbAt boot) := by
  have hdata : (bpbAt boot).reservedSectors + (bpbAt boot).numFats * (bpbAt boot).sectorsPerFat <
      2 ^ 32 := by
    have hword : (bootLayout boot).dataStart < 2 ^ 32 := Nat.mod_lt _ (by decide)
    rwa [h.data] at hword
  rw [FitsWord]
  rcases Nat.eq_zero_or_pos (bpbAt boot).sectorsPerFat with h0 | hpos
  · rw [h0] at hdata ⊢
    omega
  · have hspc := Nat.pos_of_ne_zero hgood.2.1
    have hlast : (bootLayout boot).Addressed (128 * (bpbAt boot).sectorsPerFat - 1)
        ((bpbAt boot).sectorsPerCluster - 1) :=
      ⟨by omega, Nat.sub_lt (Nat.mul_pos (by decide) hpos) one_pos, Nat.sub_lt hspc one_pos⟩
    have hword : (bootLayout boot).sectorOf (128 * (bpbAt boot).sectorsPerFat - 1)
        ((bpbAt boot).sectorsPerCluster - 1) < 2 ^ 32 := Nat.mod_lt _ (by decide)
    rw [h.sectors _ _ hlast, h.data] at hword
    have hsplit : (128 * (bpbAt boot).sectorsPerFat - 2) * (bpbAt boot).sectorsPerCluster =
        (128 * (bpbAt boot).sectorsPerFat - 1 - 2) * (bpbAt boot).sectorsPerCluster +
          (bpbAt boot).sectorsPerCluster := by
      rw [← Nat.succ_mul]
      congr 1
      omega
    rw [hsplit]
    change (bpbAt boot).reservedSectors + (bpbAt boot).numFats * (bpbAt boot).sectorsPerFat +
      (128 * (bpbAt boot).sectorsPerFat - 1 - 2) * (bpbAt boot).sectorsPerCluster +
        ((bpbAt boot).sectorsPerCluster - 1) < 2 ^ 32 at hword
    omega

end Boot

/-- No sector number of a mounted volume wraps around exactly when the volume fits. -/
theorem mount_arithmetic_iff (dev : BlockDev σ) (kmallocs : Bool) (s s' : σ) (fs : Fs σ)
    (hmount : fat32Mount dev kmallocs s = (some fs, s')) :
    NoWrap fs.toLayout ↔ FitsWord fs.bpb := by
  obtain ⟨boot, hgood, hlayout⟩ := fat32Mount_layout hmount
  rw [hlayout]
  exact ⟨fun h => h.fitsWord hgood, fun h => h.noWrap hgood⟩

theorem mount_arithmetic_tiny : NoWrap tinyLayout :=
  (mount_arithmetic_iff ramDisk true shortDisk shortDisk tinyLayout.ram shortDisk_mount).mpr
    (by decide)

def bootWith (sectorsPerCluster numFats sectorsPerFat : ℕ) : Mem :=
  write
    (store (store (store (store (store (store (fun _ => 0) 11 2 512) 13 1 sectorsPerCluster) 14 2 1)
      16 1 numFats) 36 4 sectorsPerFat) 44 4 2)
    82 [70, 65, 84, 51, 50]

/-- Two tables of `2^31` sectors, after which the data would start at sector `2^32 + 1`; and
one table of `2^20` sectors with clusters of 128, two of which share a sector. -/
theorem mount_wraps :
    (∃ l : Layout, fat32Mount ramDisk true (bootWith 1 2 (2 ^ 31)) =
      (some l.ram, bootWith 1 2 (2 ^ 31)) ∧
      l.dataStart = 1 ∧
      l.bpb.reservedSectors + l.bpb.numFats * l.bpb.sectorsPerFat = 2 ^ 32 + 1) ∧
    ∃ l : Layout, fat32Mount ramDisk true (bootWith 128 1 (2 ^ 20)) =
      (some l.ram, bootWith 128 1 (2 ^ 20)) ∧
      2 + 2 ^ 25 < 128 * l.bpb.sectorsPerFat ∧ l.sectorOf (2 + 2 ^ 25) 0 = l.sectorOf 2 0 := by
  refine ⟨⟨_, fat32Mount_direct (by decide +kernel) (by decide +kernel), ?_, ?_⟩,
    ⟨_, fat32Mount_direct (by decide +kernel) (by decide +kernel), ?_, ?_⟩⟩ <;>
  decide +kernel

end XldKernel.Fat32
