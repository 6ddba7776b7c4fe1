import XldKernel.FatCheck

/-!
# FAT32: mounting a bare volume and a partition

Source: `kernel/src/fat32.c` (`fat32_mount`). The variable `fat32_lba` that holds
the start of the partition is declared twice; the inner one, in the branch for
the partition table, hides the outer one, which stays zero and is the one that
the offsets are computed from.
-/

namespace XldKernel.Fat32
open ByteMemory BlockDevice
variable {σ : Type}

def bpbAt (buf : Mem) : Bpb :=
  ⟨load buf 11 2, load buf 13 1, load buf 14 2, load buf 16 1, load buf 36 4, load buf 44 4⟩

def fsTypes : List (List UInt8) := [[70, 65, 84, 51, 50], [70, 65, 84], [77, 83, 68, 79, 83]]

def hasFsType (buf : Mem) : Bool := fsTypes.any fun t => read buf 82 t.length = t

def hasBootJump (buf : Mem) : Bool :=
  (buf 0 = 0xEB && buf 2 = 0x90) || buf 0 = 0xE9 || buf 0 = 0xE8

def isFat32Direct (buf : Mem) : Bool :=
  (bpbAt buf).bytesPerSector = 512 &&
    (hasFsType buf ||
      (hasBootJump buf && [1, 2, 4, 8, 16, 32, 64, 128].contains (bpbAt buf).sectorsPerCluster))

def partitionTypes : List UInt8 := [0x0B, 0x0C, 0x1B, 0x1C, 0x0E, 0x1E]

def findPartition (buf : Mem) : Option ℕ :=
  ((List.range 4).find? fun i => partitionTypes.contains (buf (0x1BE + i * 16 + 4))).map
    fun i => load buf (0x1BE + i * 16 + 8) 4

def hasMbrSignature (buf : Mem) : Bool := buf 510 = 0x55 && buf 511 = 0xAA

def partitionBoot (dev : BlockDev σ) (buf : Mem) (s : σ) : Option Mem × σ :=
  if hasMbrSignature buf then
    match findPartition buf with
    | none => (none, s)
    | some fat32Lba =>
      match dev.read fat32Lba s with
      | (none, s) => (none, s)
      | (some boot, s) => (if fat32Lba = 0 then none else some boot, s)
  else (none, s)

/-- `kmallocs` says whether the descriptor can be allocated. -/
def fat32Mount (dev : BlockDev σ) (kmallocs : Bool) (s : σ) : Option (Fs σ) × σ :=
  let fat32Lba := 0
  match dev.read 0 s with
  | (none, s) => (none, s)
  | (some buf, s) =>
    match (if isFat32Direct buf then (some buf, s) else partitionBoot dev buf s) with
    | (none, s) => (none, s)
    | (some boot, s) =>
      let bpb := bpbAt boot
      if bpb.bytesPerSector ≠ 512 ∨ bpb.sectorsPerCluster = 0 ∨ bpb.numFats = 0 ∨ ¬ kmallocs then
        (none, s)
      else
        let fatStart :=
          if isFat32Direct buf ∧ 0 < fat32Lba then (bpb.reservedSectors + fat32Lba) % 2 ^ 32
          else bpb.reservedSectors
        let dataStart := (fatStart + bpb.numFats * bpb.sectorsPerFat) % 2 ^ 32
        (some ⟨⟨bpb, fatStart, dataStart, bpb.bytesPerSector * bpb.sectorsPerCluster⟩, dev⟩, s)

def bootLayout (boot : Mem) : Layout :=
  let bpb := bpbAt boot
  ⟨bpb, bpb.reservedSectors, (bpb.reservedSectors + bpb.numFats * bpb.sectorsPerFat) % 2 ^ 32,
    bpb.bytesPerSector * bpb.sectorsPerCluster⟩

def GoodBoot (boot : Mem) : Prop :=
  (bpbAt boot).bytesPerSector = 512 ∧ (bpbAt boot).sectorsPerCluster ≠ 0 ∧ (bpbAt boot).numFats ≠ 0

instance (boot : Mem) : Decidable (GoodBoot boot) := inferInstanceAs (Decidable (_ ∧ _))

theorem fat32Mount_layout {dev : BlockDev σ} {kmallocs : Bool} {s s' : σ} {fs : Fs σ}
    (h : fat32Mount dev kmallocs s = (some fs, s')) :
    ∃ boot, GoodBoot boot ∧ fs.toLayout = bootLayout boot := by
  rw [fat32Mount] at h
  dsimp only at h
  split at h
  · cases h
  · split at h
    · cases h
    · next boot _ _ =>
      by_cases hbad : (bpbAt boot).bytesPerSector ≠ 512 ∨ (bpbAt boot).sectorsPerCluster = 0 ∨
          (bpbAt boot).numFats = 0 ∨ ¬ kmallocs
      · rw [if_pos hbad] at h
        cases h
      · rw [if_neg hbad] at h
        refine ⟨boot, ⟨by tauto, by tauto, by tauto⟩, ?_⟩
        rw [← Option.some_inj.mp (Prod.mk.inj h).1]
        simp [bootLayout]

theorem fat32Mount_direct {m : Mem} (hdirect : isFat32Direct (sector m 0) = true)
    (hgood : GoodBoot (sector m 0)) :
    fat32Mount ramDisk true m = (some (bootLayout (sector m 0)).ram, m) := by
  obtain ⟨h1, h2, h3⟩ := hgood
  simp [fat32Mount, ramDisk, hdirect, h1, h2, h3, bootLayout, Layout.ram]

theorem goodBoot_of_mount {m : Mem} (hdirect : isFat32Direct (sector m 0) = true)
    (hmount : (fat32Mount ramDisk true m).1.isSome) : GoodBoot (sector m 0) := by
  by_contra hbad
  have hor : (bpbAt (sector m 0)).bytesPerSector ≠ 512 ∨
      (bpbAt (sector m 0)).sectorsPerCluster = 0 ∨ (bpbAt (sector m 0)).numFats = 0 := by
    simp only [GoodBoot] at hbad
    tauto
  simp [fat32Mount, ramDisk, hdirect, hor] at hmount

/-- The volume `v` of `n` sectors stored on the disk `d` as its first FAT partition. -/
structure Partitioned (v d : Mem) (n p : ℕ) : Prop where
  table : isFat32Direct (sector d 0) = false
  signature : hasMbrSignature (sector d 0) = true
  entry : findPartition (sector d 0) = some p
  start : p ≠ 0
  size : 0 < n
  stored : ∀ s < n, ∀ i < sectorSize, sector d (p + s) i = sector v s i

theorem Partitioned.start_lt {v d : Mem} {n p : ℕ} (h : Partitioned v d n p) : p < 2 ^ 32 := by
  obtain ⟨i, -, hp⟩ := Option.map_eq_some_iff.mp h.entry
  rw [← hp]
  exact load_lt _ _ 4

theorem bpbAt_congr {b b' : Mem} (h : ∀ i < sectorSize, b i = b' i) : bpbAt b = bpbAt b' := by
  have hload : ∀ a n, a + n ≤ sectorSize → load b a n = load b' a n := fun a n hle =>
    load_congr fun i hi => h (a + i) (by omega)
  simp only [bpbAt, hload 11 2 (by decide), hload 13 1 (by decide), hload 14 2 (by decide),
    hload 16 1 (by decide), hload 36 4 (by decide), hload 44 4 (by decide)]

theorem Partitioned.mount {v d : Mem} {n p : ℕ} (h : Partitioned v d n p)
    (hgood : GoodBoot (sector v 0)) :
    fat32Mount ramDisk true d = (some (bootLayout (sector v 0)).ram, d) := by
  have hbpb : bpbAt (sector d p) = bpbAt (sector v 0) := bpbAt_congr (h.stored 0 h.size)
  obtain ⟨h1, h2, h3⟩ := hgood
  simp [fat32Mount, partitionBoot, ramDisk, h.table, h.signature, h.entry, h.start,
    hbpb, h1, h2, h3, bootLayout, Layout.ram]

def Layout.metered (l : Layout) : Fs Metered := ⟨l, meteredDisk⟩

def noted {α : Type} (r : Option (α × Metered)) : Option (List ℕ) := r.map fun x => x.2.log

structure SectorsShifted (p : ℕ) (v d : Mem) (lv ld : Layout) : Prop where
  resolve : ∀ k path, noted (fat32Resolve ld.metered path ⟨d, k, []⟩) =
    (noted (fat32Resolve lv.metered path ⟨v, k, []⟩)).map (List.map fun s => (p + s) % 2 ^ 32)
  find : ∀ k dir name, noted (fat32Find ld.metered dir name ⟨d, k, []⟩) =
    (noted (fat32Find lv.metered dir name ⟨v, k, []⟩)).map (List.map fun s => (p + s) % 2 ^ 32)
  read : ∀ k file size, (fat32Read ld.metered file size ⟨d, k, []⟩).2.2.log =
    (fat32Read lv.metered file size ⟨v, k, []⟩).2.2.log.map fun s => (p + s) % 2 ^ 32

def MountsAlike (p : ℕ) (v d : Mem) : Prop :=
  ∃ lv ld : Layout, (fat32Mount ramDisk true v).1 = some lv.ram ∧
    (fat32Mount ramDisk true d).1 = some ld.ram ∧ SectorsShifted p v d lv ld

theorem readFatEntry_spent (l : Layout) (c : ℕ) (m : Mem) (log : List ℕ) :
    readFatEntry l.metered c ⟨m, 0, log⟩ = (fat32BadCluster, ⟨m, 0, log⟩) := rfl

theorem nextCluster_spent (l : Layout) (c : ℕ) (m : Mem) (log : List ℕ) :
    nextCluster l.metered c ⟨m, 0, log⟩ = (endOfChain, ⟨m, 0, log⟩) := by
  have hlink : linkOf fat32BadCluster = endOfChain := by decide
  rw [nextCluster, readFatEntry_spent, ← hlink]

theorem walkSectors_spent (l : Layout) (test : Mem → ℕ → Verdict) (first n sec : ℕ) (m : Mem)
    (log : List ℕ) :
    walkSectors l.metered test first n sec ⟨m, 0, log⟩ =
      (if n = 0 then .next else .stop, ⟨m, 0, log⟩) := by
  cases n with
  | zero => rfl
  | succ n => rfl

theorem fat32Find_first (l : Layout) (hspc : l.bpb.sectorsPerCluster ≠ 0) (m : Mem) {dir : ℕ}
    (hdir : dir ≠ endOfChain) (name : List UInt8) :
    noted (fat32Find l.metered dir name ⟨m, 1, []⟩) = some [l.sectorOf dir 0] := by
  obtain ⟨n, hn⟩ := Nat.exists_eq_succ_of_ne_zero hspc
  obtain ⟨fuel, hfuel⟩ : ∃ fuel, chainFuel = fuel + 2 := ⟨2 ^ 32 - 2, by decide⟩
  have hread : l.metered.dev.read (l.sectorOf dir 0) ⟨m, 1, []⟩ =
      (some (sector m (l.sectorOf dir 0)), ⟨m, 0, [l.sectorOf dir 0]⟩) := rfl
  have hlayout : l.metered.toLayout = l := rfl
  have hsec : (l.firstSector dir + 0) % 2 ^ 32 = l.sectorOf dir 0 := by rw [Layout.sectorOf]
  rw [fat32Find, hfuel, walkDir, if_neg hdir, hlayout, hn, walkSectors, hsec, hread]
  dsimp only
  cases walkEntries (findTest name) (sector m (l.sectorOf dir 0)) dirEntriesPerSec 0 with
  | stop => rfl
  | hit e => rfl
  | next =>
    rw [walkSectors_spent]
    by_cases h0 : n = 0
    · rw [if_pos h0]
      dsimp only
      rw [nextCluster_spent]
      dsimp only
      rw [walkDir, if_pos rfl]
      rfl
    · rw [if_neg h0]
      rfl

/-- The start of the partition is lost: on no disk are the accesses those of the bare
volume, moved. -/
theorem partition_never_shifted (v d : Mem) (n p : ℕ) (hdirect : isFat32Direct (sector v 0) = true)
    (hmount : (fat32Mount ramDisk true v).1.isSome) (hpart : Partitioned v d n p) :
    ¬ MountsAlike p v d := by
  have hgood := goodBoot_of_mount hdirect hmount
  have hlt := hpart.start_lt
  intro halike
  obtain ⟨lv, ld, hlv, hld, hshift⟩ := halike
  rw [fat32Mount_direct hdirect hgood, Option.some_inj] at hlv
  rw [hpart.mount hgood, Option.some_inj] at hld
  have hl : ld = lv := congrArg Fs.toLayout (hld.symm.trans hlv)
  have hspc : lv.bpb.sectorsPerCluster ≠ 0 := by
    have hlayout : bootLayout (sector v 0) = lv := congrArg Fs.toLayout hlv
    rw [← hlayout]
    exact hgood.2.1
  have hfind := hshift.find 1 2 []
  rw [hl, fat32Find_first lv hspc v (by decide), fat32Find_first lv hspc d (by decide)] at hfind
  simp only [Option.map_some, List.map_cons, List.map_nil, Option.some_inj, List.cons.injEq,
    and_true] at hfind
  have hs : lv.sectorOf 2 0 < 2 ^ 32 := Nat.mod_lt _ (by decide)
  have h0 := hpart.start
  omega

def tinyBoot (m : Mem) : Mem :=
  write
    (store (store (store (store (store (store m 11 2 512) 13 1 1) 14 2 1) 16 1 1) 36 4 1) 44 4 2)
    82 [70, 65, 84, 51, 50]

def tinyVolume : Mem := tinyBoot (putDirent tinyDisk 1024 (newDirent (to83 [65]) attrArchive 3))

def tinyPartitioned : Mem := fun x =>
  if x < 512 * 200 then
    write (store (write (fun _ => 0) (0x1BE + 4) [0x0C]) (0x1BE + 8) 4 200) 510 [0x55, 0xAA] x
  else tinyVolume (x - 512 * 200)

theorem tinyPartitioned_stores : Partitioned tinyVolume tinyPartitioned 200 200 := by
  refine ⟨by decide +kernel, by decide +kernel, by decide +kernel, by decide, by decide, ?_⟩
  intro s _ i _
  have hge : ¬ (sectorSize * (200 + s) + i < 512 * 200) := by
    simp only [sectorSize]
    omega
  have hsub : sectorSize * (200 + s) + i - 512 * 200 = sectorSize * s + i := by
    simp only [sectorSize]
    omega
  simp only [sector, tinyPartitioned, if_neg hge, hsub]

theorem partition_never_shifted_tiny : ¬ MountsAlike 200 tinyVolume tinyPartitioned :=
  partition_never_shifted tinyVolume tinyPartitioned 200 200 (by decide +kernel)
    (by decide +kernel) tinyPartitioned_stores

/-- The file `A` is found on the bare volume and not on the partition. -/
theorem partition_file_lost :
    isFat32Direct (sector tinyVolume 0) = true ∧
      Partitioned tinyVolume tinyPartitioned 200 200 ∧
      ∃ lv ld : Layout, (fat32Mount ramDisk true tinyVolume).1 = some lv.ram ∧
        (fat32Mount ramDisk true tinyPartitioned).1 = some ld.ram ∧
        (fat32Find lv.ram lv.bpb.rootCluster (to83 [65]) tinyVolume).map
            (fun r => r.1.map Found.dirent) = some (some (newDirent (to83 [65]) attrArchive 3)) ∧
        (fat32Find ld.ram ld.bpb.rootCluster (to83 [65]) tinyPartitioned).map
            (fun r => r.1.map Found.dirent) = some none := by
  have hdirect : isFat32Direct (sector tinyVolume 0) = true := by decide +kernel
  have hgood : GoodBoot (sector tinyVolume 0) := by decide +kernel
  refine ⟨hdirect, tinyPartitioned_stores, bootLayout (sector tinyVolume 0),
    bootLayout (sector tinyVolume 0), ?_, ?_, by decide +kernel, by decide +kernel⟩
  · rw [fat32Mount_direct hdirect hgood]
  · rw [tinyPartitioned_stores.mount hgood]

end XldKernel.Fat32
