import XldKernel.AtaInit
import XldKernel.FatLocality

/-!
# FAT32 on an ATA disk

The block device that `kernel/src/kernel.c` mounts: `ata_drive`, with
`ata_pio_read` and `ata_pio_write` as its operations. A session that asks for no
sector number of more than 28 bits goes on it as on the medium of the drive, a disk
in memory that fails where the drive fails.
-/

namespace XldKernel.AtaPio
open ByteMemory BlockDevice Fat32

/-- `dev->read(lba, 1, buf)` and `dev->write(lba, 1, buf)` on a buffer of its own. -/
def ataDevice (drive : AtaDrive) : BlockDev Controller where
  read lba s :=
    let r := ataPioRead ataBus drive (UInt32.ofNat lba) 1 0 s fun _ => 0
    (if r.1 < 0 then none else some r.2.2, r.2.1)
  write lba buf s :=
    let r := ataPioWrite ataBus drive (UInt32.ofNat lba) 1 0 s buf
    (decide (0 ≤ r.1), r.2)

def watched {σ : Type} (dev : BlockDev σ) (limit : ℕ) : BlockDev (σ × Bool) where
  read s x := ((dev.read s x.1).1, (dev.read s x.1).2, x.2 || decide (limit ≤ s))
  write s b x := ((dev.write s b x.1).1, (dev.write s b x.1).2, x.2 || decide (limit ≤ s))

/-- What the driver makes of the medium: 28 bits of a sector number reach the drive. -/
def lba28Disk : BlockDev Medium where
  read s d := mediumDisk.read (s % 2 ^ 28) d
  write s b d := mediumDisk.write (s % 2 ^ 28) b d

theorem lba28_agrees :
    AgreeUntil (watched mediumDisk (2 ^ 28)) (watched lba28Disk (2 ^ 28)) fun x => x.2 = true where
  read s x := by
    by_cases hs : 2 ^ 28 ≤ s
    · exact .inr (by simp only [watched, decide_eq_true hs, Bool.or_true, and_self])
    · exact .inl (by simp only [watched, lba28Disk, Nat.mod_eq_of_lt (Nat.not_le.mp hs)])
  write s b x := by
    by_cases hs : 2 ^ 28 ≤ s
    · exact .inr (by simp only [watched, decide_eq_true hs, Bool.or_true, and_self])
    · exact .inl (by simp only [watched, lba28Disk, Nat.mod_eq_of_lt (Nat.not_le.mp hs)])
  keepRead s x hx := by simp only [watched, hx, Bool.true_or, and_self]
  keepWrite s b x hx := by simp only [watched, hx, Bool.true_or, and_self]

structure HoldsDisk (s₀ : Controller) (c slave : Bool) (s : Controller) (d : Medium) : Prop where
  elsewhere : s₀.Elsewhere s c slave
  drive : ∃ e, (s c).drives slave = some e ∧ e.Ready ∧ e.medium = d

theorem Controller.Elsewhere.trans {s t u : Controller} {c slave : Bool} (h : s.Elsewhere t c slave)
    (k : t.Elsewhere u c slave) : s.Elsewhere u c slave :=
  ⟨fun c' slave' hne => (k.drives c' slave' hne).trans (h.drives c' slave' hne)⟩

theorem toNat_lba (lba : ℕ) : (UInt32.ofNat lba).toNat % 2 ^ 28 = lba % 2 ^ 28 := by
  rw [UInt32.toNat_ofNat']
  omega

theorem HoldsDisk.put {s₀ s : Controller} {c slave : Bool} {d e : Drive} (f : TaskFile)
    (helse : s₀.Elsewhere s c slave) (hready : d.Ready) (hlike : d.Like e) (hfree : e.busy = 0) :
    HoldsDisk s₀ c slave (Controller.put (s.load c f) c slave e) e.medium :=
  ⟨helse.trans (elsewhere_put s c slave f e), e, put_drive .., hready.of_like hlike hfree, rfl⟩

section Device
variable {drive : AtaDrive} {c slave : Bool} (hat : drive.At c slave)
  (hpresent : drive.present = true) {s₀ s : Controller} {d : Medium}
  (h : HoldsDisk s₀ c slave s d)
include hat hpresent h

theorem ataDevice_read (lba : ℕ) :
    ∃ t d', HoldsDisk s₀ c slave t d' ∧
      ((mediumDisk.read (lba % 2 ^ 28) d = (none, d') ∧ (ataDevice drive).read lba s = (none, t)) ∨
        ∃ b b', Agree b b' ∧ mediumDisk.read (lba % 2 ^ 28) d = (some b', d') ∧
          (ataDevice drive).read lba s = (some b, t)) := by
  have haccepts : Accepts drive 1 := ⟨hpresent, by decide, by decide⟩
  obtain ⟨helse, e, he, hready, rfl⟩ := h
  obtain ⟨e', hrun, hmedium, hlike, hfree⟩ := ataPioRead_drive hat he hready haccepts
    (by decide : 0 + sectorSize * (1 : UInt16).toNat ≤ 2 ^ 64) (UInt32.ofNat lba) fun _ => 0
  have hone : (1 : UInt16).toNat = 0 + 1 := rfl
  rw [toNat_lba, hone] at hrun hmedium
  refine ⟨_, e'.medium, .put (programmed drive (UInt32.ofNat lba) 1) helse hready hlike hfree, ?_⟩
  rcases hread : mediumDisk.read (lba % 2 ^ 28) e.medium with ⟨_ | b, d'⟩
  · simp only [readMany, hread] at hrun hmedium
    refine Or.inl ⟨by rw [hmedium], ?_⟩
    simp only [ataDevice, hrun]
    rfl
  · simp only [readMany, hread] at hrun hmedium
    refine Or.inr ⟨write (fun _ => 0) 0 (read b 0 sectorSize), b, ?_, by rw [hmedium], ?_⟩
    · simpa using agree_write_read (fun _ => 0) b 0
    · simp only [ataDevice, hrun]
      rfl

theorem ataDevice_write (lba : ℕ) (b : Mem) :
    ∃ t d' done, HoldsDisk s₀ c slave t d' ∧
      mediumDisk.write (lba % 2 ^ 28) b d = (done, d') ∧
      (ataDevice drive).write lba b s = (done, t) := by
  have haccepts : Accepts drive 1 := ⟨hpresent, by decide, by decide⟩
  obtain ⟨helse, e, he, hready, rfl⟩ := h
  obtain ⟨e', hrun, hmedium, hlike, hfree⟩ := ataPioWrite_drive hat he hready haccepts
    (by decide : 0 + sectorSize * (1 : UInt16).toNat ≤ 2 ^ 64) (UInt32.ofNat lba) b
  have hone : (1 : UInt16).toNat = 0 + 1 := rfl
  have hbuf : (fun i => b (0 + i)) = b := by
    funext i
    rw [Nat.zero_add]
  rw [toNat_lba, hone] at hrun hmedium
  rcases hwrite : mediumDisk.write (lba % 2 ^ 28) b e.medium with ⟨done, d'⟩
  refine ⟨_, e'.medium, done, .put (programmed drive (UInt32.ofNat lba) 1) helse hready hlike hfree,
    ?_, ?_⟩
  · cases done <;> simp only [writeMany, hbuf, hwrite] at hmedium <;> rw [hmedium]
  · cases done <;> simp only [writeMany, hbuf, hwrite] at hrun <;> simp only [ataDevice, hrun] <;>
      rfl

end Device

theorem write_agree {b b' : Mem} (h : Agree b b') (s : ℕ) (d : Medium) :
    mediumDisk.write s b d = mediumDisk.write s b' d := by
  simp only [mediumDisk, Medium.stored_congr _ h]

theorem ataDevice_simulates {drive : AtaDrive} {c slave : Bool} (hat : drive.At c slave)
    (hpresent : drive.present = true) (s₀ : Controller) :
    Simulates (ataDevice drive) (watched lba28Disk (2 ^ 28)) fun s x =>
      HoldsDisk s₀ c slave s x.1 := by
  constructor
  · intro s x h lba
    obtain ⟨t, d, h', ⟨hread, hata⟩ | ⟨b, b', hb, hread, hata⟩⟩ := ataDevice_read hat hpresent h lba
    · exact Or.inl ⟨t, (d, _), hata, by simp only [watched, lba28Disk, hread]; rfl, h'⟩
    · exact Or.inr ⟨b, b', t, (d, _), hata, by simp only [watched, lba28Disk, hread]; rfl, hb, h'⟩
  · intro s x b b' h hb lba
    obtain ⟨t, d, done, h', hwrite, hata⟩ := ataDevice_write hat hpresent h lba b
    rw [write_agree hb] at hwrite
    exact ⟨done, t, (d, _), hata, by simp only [watched, lba28Disk, hwrite]; rfl, h'⟩

theorem describe_at (info : DriveInfo) (c slave : Bool) (identity : ℕ → UInt16) :
    (describe info c slave identity).drive.At c slave := by
  have hbit : decide (slaveByte slave &&& 1 ≠ 0) = slave := by cases slave <;> decide
  exact ⟨rfl, hbit⟩

def volumeDisk : Drive := { lonelyDisk with medium := ⟨tinyVolume, 64, fun _ => none⟩ }

def withVolume : Controller := fun c =>
  ⟨⟨0, 0, 0, 0, 0⟩, fun slave => if c || slave then none else some volumeDisk⟩

end XldKernel.AtaPio
