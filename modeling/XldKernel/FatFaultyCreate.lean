import XldKernel.FatReadCosts

/-!
# FAT32: creating entries on a device that fails

Every step between the claim of a cluster and its directory entry, with what it
leaves on the disk and where the schedules of the device stand afterwards. A step
that fails has met a failed access, except that the directory may be full.
-/

namespace XldKernel.Fat32
open ByteMemory BlockDevice LinkedPath
variable {l : Layout} {m : Mem} {c p : ℕ} {cs : List ℕ} {d : Faulty} {e : Dirent}

def lookupReads (l : Layout) (m : Mem) (path : List UInt8) (p : ℕ) (name : List UInt8) : ℕ :=
  resolveReads l m path + findReads l m p name

/-- What the lookups of a call come to: a read that fails ends the resolution of the path,
or loses the entry that was looked for. -/
inductive FaultyTarget (l : Layout) (d : Faulty) (path : List UInt8) : Prop
  | unresolved (r : Option Resolved) (n : ℕ)
      (hres : fat32Resolve l.faulty path d = some (r, d.skip n))
      (hr : ∀ p name, r ≠ some ⟨p, some name⟩)
      (hwhy : (∃ j < resolveReads l d.mem path, d.readFails j = true) ∨
        fat32Resolve l.ram path d.mem = some (r, d.mem))
  | found (p : ℕ) (name : List UInt8) (found : Found)
      (hram : fat32Resolve l.ram path d.mem = some (some ⟨p, some name⟩, d.mem))
      (hfound : fat32Find l.ram p name d.mem = some (some found, d.mem))
      (hres : fat32Resolve l.faulty path d =
        some (some ⟨p, some name⟩, d.skip (resolveReads l d.mem path)))
      (hfind : fat32Find l.faulty p name (d.skip (resolveReads l d.mem path)) =
        some (some found, d.skip (lookupReads l d.mem path p name)))
  | missing (p : ℕ) (name : List UInt8) (h : Missing l d.mem path p name)
      (htarget : DirCluster l d.mem p ∧
        ∃ comp ∈ path.splitOn slash, comp ⊆ path ∧ comp ≠ [] ∧ name = to83 comp)
      (hres : fat32Resolve l.faulty path d =
        some (some ⟨p, some name⟩, d.skip (resolveReads l d.mem path)))
      (hfind : fat32Find l.faulty p name (d.skip (resolveReads l d.mem path)) =
        some (none, d.skip (lookupReads l d.mem path p name)))
  | lost (p : ℕ) (name : List UInt8) (j : ℕ)
      (hram : fat32Resolve l.ram path d.mem = some (some ⟨p, some name⟩, d.mem))
      (htarget : DirCluster l d.mem p ∧
        ∃ comp ∈ path.splitOn slash, comp ⊆ path ∧ comp ≠ [] ∧ name = to83 comp)
      (hj : j < findReads l d.mem p name)
      (hbad : d.readFails (resolveReads l d.mem path + j) = true)
      (hres : fat32Resolve l.faulty path d =
        some (some ⟨p, some name⟩, d.skip (resolveReads l d.mem path)))
      (hfind : fat32Find l.faulty p name (d.skip (resolveReads l d.mem path)) =
        some (none, d.skip (resolveReads l d.mem path + (j + 1))))

theorem resolved_unique {path name name' : List UInt8} {p' : ℕ}
    (h : fat32Resolve l.ram path m = some (some ⟨p, some name⟩, m))
    (h' : fat32Resolve l.ram path m = some (some ⟨p', some name'⟩, m)) : p' = p ∧ name' = name := by
  have heq := congrArg Prod.fst (Option.some_inj.mp (h'.symm.trans h))
  simpa using heq

theorem faultyTarget (hg : l.Geometry)
    (hdirs : ∀ c, DirCluster l d.mem c → ∃ cs, Chain l d.mem c cs) {path : List UInt8}
    (hpath : DotFree path) : FaultyTarget l d path := by
  obtain ⟨r, hram, htarget⟩ := fat32Resolve_dirs hg hdirs hpath
  rcases (resolveReads_costs hram).faulty d rfl with ⟨-, hres⟩ | ⟨j, hj, hbad, hres⟩
  swap
  · exact .unresolved none _ hres (by simp) (Or.inl ⟨j, hj, hbad⟩)
  by_cases hname : ∀ p name, r ≠ some ⟨p, some name⟩
  · exact .unresolved r _ hres hname (Or.inr hram)
  simp only [not_forall, not_not] at hname
  obtain ⟨p, name, rfl⟩ := hname
  obtain ⟨hp, hcomp⟩ := htarget p name rfl
  obtain ⟨cs, hch⟩ := hdirs p hp
  have hfind := find_ram hg hch name
  rcases (findReads_costs hfind).faulty (d.skip (resolveReads l d.mem path)) rfl with
    ⟨-, hrun⟩ | ⟨j, hj, hbad, hrun⟩
  · rw [Faulty.skip_skip] at hrun
    cases hlook : (liveSlots d.mem (l.dirSlots cs)).find? (nameIs d.mem name) with
    | none =>
      rw [hlook] at hrun hfind
      exact .missing p name ⟨hram, hfind⟩ ⟨hp, hcomp⟩ hres hrun
    | some a =>
      rw [hlook] at hrun hfind
      exact .found p name _ hram hfind hres hrun
  · rw [Faulty.skip_skip] at hrun
    rw [Faulty.skip_readFails, Nat.add_comm] at hbad
    exact .lost p name j hram ⟨hp, hcomp⟩ hj hbad hres hrun

theorem write_good (h : d.writeFails 0 = false) (s : ℕ) (buf : Mem) :
    ∃ d', faultyDisk.write s buf d = (true, d') ∧ d'.mem = putSector d.mem s buf ∧
      d.Later d' 0 1 := by
  simp only [faultyDisk, h, Bool.false_eq_true, if_false]
  exact ⟨_, rfl, rfl, fun _ => rfl, fun _ => rfl⟩

theorem write_bad (h : d.writeFails 0 = true) (s : ℕ) (buf : Mem) :
    ∃ d', faultyDisk.write s buf d = (false, d') ∧ d'.mem = d.mem ∧ d.Later d' 0 1 := by
  simp only [faultyDisk, h, if_true]
  exact ⟨_, rfl, rfl, fun _ => rfl, fun _ => rfl⟩

theorem writeFatEntry_good (l : Layout) (c v : ℕ) (hr : d.readFails 0 = false)
    (hw : d.writeFails 0 = false) : ∃ d', writeFatEntry l.faulty c v d = (true, d') ∧
      d'.mem = l.setEntry d.mem c v ∧ d.Later d' 1 1 := by
  simp only [writeFatEntry, Layout.faulty_toLayout, Layout.faulty_dev, read_good hr, load_sector]
  obtain ⟨d', hwrite, hmem, hlater⟩ := write_good (d := d.skip 1) hw
    ((l.fatStart + c * 4 % 2 ^ 32 / sectorSize) % 2 ^ 32)
    (store (sector d.mem ((l.fatStart + c * 4 % 2 ^ 32 / sectorSize) % 2 ^ 32))
      (c * 4 % 2 ^ 32 % sectorSize) 4 (mergeEntry v (load d.mem (l.fatAddr c) 4)))
  refine ⟨d', hwrite, ?_, (d.later_skip 1).trans hlater⟩
  rw [hmem, Faulty.skip_mem, putSector_store _ (entryOffset_le c), Layout.setEntry, Layout.fatAddr]

theorem writeFatEntry_bad (l : Layout) (c v : ℕ) (h : d.FailsAt 0 0) :
    ∃ d', writeFatEntry l.faulty c v d = (false, d') ∧ d'.mem = d.mem := by
  obtain ⟨d', ⟨hres, hmem⟩ | ⟨hres, -⟩⟩ := writeFatEntry_faulty l c v d
  · exact ⟨d', hres, hmem⟩
  · exfalso
    rcases h with hbad | hbad
    · simp only [writeFatEntry, Layout.faulty_toLayout, Layout.faulty_dev, read_bad hbad] at hres
      simp at hres
    · simp only [writeFatEntry, Layout.faulty_toLayout, Layout.faulty_dev] at hres
      cases hread : d.readFails 0 with
      | true => simp [read_bad hread] at hres
      | false =>
        rw [read_good hread] at hres
        obtain ⟨d₂, hwrite, -⟩ := write_bad (d := d.skip 1) hbad
          ((l.fatStart + c * 4 % 2 ^ 32 / sectorSize) % 2 ^ 32)
          (store (sector d.mem ((l.fatStart + c * 4 % 2 ^ 32 / sectorSize) % 2 ^ 32))
            (c * 4 % 2 ^ 32 % sectorSize) 4
            (mergeEntry v (load (sector d.mem ((l.fatStart + c * 4 % 2 ^ 32 / sectorSize) % 2 ^ 32))
              (c * 4 % 2 ^ 32 % sectorSize) 4)))
        dsimp only at hres
        rw [hwrite] at hres
        simp at hres

theorem not_failsAt : ¬ d.FailsAt 0 0 ↔ d.readFails 0 = false ∧ d.writeFails 0 = false := by
  simp only [Faulty.FailsAt, not_or, Bool.not_eq_true]

theorem failsIn_one : d.FailsIn 1 1 ↔ d.FailsAt 0 0 := by
  simp only [Faulty.FailsIn, Faulty.FailsAt, Nat.lt_one_iff, exists_eq_left]

/-- What an allocation without a predecessor comes to: it claims a cluster, passing over
free ones only where their entries could not be read, or changes nothing. -/
inductive FreshOutcome (l : Layout) (d : Faulty) (start : ℕ) : ℕ → Faulty → Prop
  | none {d' : Faulty} (hmem : d'.mem = d.mem)
      (hwhy : ∀ y, start ≤ y → y < scanEnd → l.entry d.mem y = 0 → d.FailsIn (y - start + 2) 1) :
      FreshOutcome l d start 0 d'
  | claimed {y : ℕ} {d' : Faulty} (hy : start ≤ y) (hend : y < scanEnd)
    (hfree : l.entry d.mem y = 0)
      (hmem : d'.mem = l.claim d.mem 0 y) (hlater : d.Later d' (y - start + 2) 1)
      (hpassed : ∀ b, start ≤ b → b < y → l.entry d.mem b = 0 → d.readFails (b - start) = true) :
      FreshOutcome l d start y d'

theorem FreshOutcome.pass {y : ℕ} {d' : Faulty} (h : FreshOutcome l (d.skip 1) (c + 1) y d')
    (hc : l.entry d.mem c = 0 → d.readFails 0 = true) : FreshOutcome l d c y d' := by
  cases h with
  | none hmem hwhy =>
    refine .none hmem fun y hy hend hfree => ?_
    rcases Nat.eq_or_lt_of_le hy with rfl | hlt
    · exact Or.inl ⟨0, by omega, hc hfree⟩
    · exact ((d.later_skip 1).failsIn (hwhy y hlt hend hfree)).mono (by omega) (by omega)
  | claimed hy hend hfree hmem hlater hpassed =>
    have hsum : 1 + (y - (c + 1) + 2) = y - c + 2 := by omega
    have hall := (d.later_skip 1).trans hlater
    rw [hsum] at hall
    refine .claimed (by omega) hend hfree hmem hall fun b hb hby h0 => ?_
    rcases Nat.eq_or_lt_of_le hb with rfl | hlt
    · rw [Nat.sub_self]
      exact hc h0
    · have hbad := hpassed b hlt hby h0
      rwa [Faulty.skip_readFails, show b - (c + 1) + 1 = b - c by omega] at hbad

theorem claimCluster_fresh (hend : c < scanEnd) (hfree : l.entry d.mem c = 0) :
    ∃ y d', claimCluster l.faulty 0 c (d.skip 1) = (y, d') ∧ FreshOutcome l d c y d' := by
  have hself : c - c + 2 = 1 + 1 := by omega
  by_cases hbad : (d.skip 1).FailsAt 0 0
  · obtain ⟨d', hres, hmem⟩ := writeFatEntry_bad l c 0x0FFFFFFF hbad
    refine ⟨0, d', by rw [claimCluster, hres], .none hmem fun y _ _ _ => ?_⟩
    exact ((d.later_skip 1).failsIn (failsIn_one.mpr hbad)).mono (by omega) (by omega)
  · obtain ⟨hr, hw⟩ := not_failsAt.mp hbad
    obtain ⟨d', hres, hmem, hlater⟩ := writeFatEntry_good l c 0x0FFFFFFF hr hw
    have hall := (d.later_skip 1).trans hlater
    rw [← hself] at hall
    refine ⟨c, d', by simp [claimCluster, hres], .claimed le_rfl hend hfree ?_ hall ?_⟩
    · rw [hmem, Layout.claim, if_neg (by simp), Faulty.skip_mem]
    · intro b hb hbc
      omega

theorem allocateScan_fresh (l : Layout) (n c : ℕ) (d : Faulty) (hend : c + n = scanEnd) :
    ∃ y d', allocateScan l.faulty 0 n c d = (y, d') ∧ FreshOutcome l d c y d' := by
  induction n generalizing c d with
  | zero => exact ⟨0, d, rfl, .none rfl fun y hy hlt => by omega⟩
  | succ n ih =>
    obtain ⟨y, d', hrest, hout⟩ := ih (c + 1) (d.skip 1) (by omega)
    cases hread : d.readFails 0 with
    | true =>
      refine ⟨y, d', ?_, hout.pass fun _ => hread⟩
      simp only [allocateScan, readFatEntry, Layout.faulty_dev, read_bad hread]
      rw [if_neg (by decide), hrest]
    | false =>
      simp only [allocateScan, readFatEntry, Layout.faulty_dev, Layout.faulty_toLayout,
        read_good hread, load_sector]
      rw [← Layout.fatAddr, ← Layout.entry]
      by_cases hfree : l.entry d.mem c = fat32FreeCluster
      · rw [if_pos hfree]
        exact claimCluster_fresh (by omega) hfree
      · rw [if_neg hfree]
        exact ⟨y, d', hrest, hout.pass fun h0 => absurd h0 hfree⟩

theorem allocateCluster_fresh (l : Layout) (d : Faulty) :
    ∃ y d', allocateCluster l.faulty 0 d = (y, d') ∧ FreshOutcome l d 2 y d' :=
  allocateScan_fresh l (scanEnd - 2) 2 d (by decide)

section Places
variable (hg : l.Geometry) (hc : l.InVolume c)
include hg hc

theorem putSector_outside {i x : ℕ} (hi : i < l.bpb.sectorsPerCluster) (hx : ¬ l.InCluster c x)
    (m buf : Mem) : putSector m (l.sectorOf c i) buf x = m x := by
  apply putSector_apart
  by_contra hin
  have hmem :=
    sector_inCluster hg hc hi (show x - sectorSize * l.sectorOf c i < sectorSize by omega)
  rw [Nat.add_sub_cancel' (by omega)] at hmem
  exact hx hmem

omit hg hc in
theorem zeroSectors_succ {σ : Type} (dev : BlockDev σ) (n i : ℕ) (s : σ) :
    zeroSectors ⟨l, dev⟩ (l.firstSector c) (n + 1) i s =
      match dev.write (l.sectorOf c i) (fun _ => 0) s with
      | (false, s) => (false, s)
      | (true, s) => zeroSectors ⟨l, dev⟩ (l.firstSector c) n (i + 1) s := rfl

theorem zeroSectors_faulty (n i : ℕ) (hn : i + n ≤ l.bpb.sectorsPerCluster) (d : Faulty) :
    ∃ ok d', zeroSectors l.faulty (l.firstSector c) n i d = (ok, d') ∧
      (∀ x, ¬ l.InCluster c x → d'.mem x = d.mem x) ∧
      (ok = true → zeroSectors l.ram (l.firstSector c) n i d.mem = (true, d'.mem) ∧
        d.Later d' 0 n) ∧
      (ok = false → ∃ w ≤ n, d.Later d' 0 w ∧ d.FailsIn 0 w) := by
  induction n generalizing i d with
  | zero => exact ⟨true, d, rfl, fun _ _ => rfl, fun _ => ⟨rfl, d.later_refl⟩, by simp⟩
  | succ n ih =>
    cases hw : d.writeFails 0 with
    | true =>
      obtain ⟨d', hres, hmem, hlater⟩ := write_bad hw (l.sectorOf c i) fun _ => 0
      refine ⟨false, d', ?_, fun x _ => by rw [hmem], by simp,
        fun _ => ⟨1, by omega, hlater, Or.inr ⟨0, one_pos, hw⟩⟩⟩
      rw [Layout.faulty, zeroSectors_succ, hres]
    | false =>
      obtain ⟨d₁, hres, hmem, hlater⟩ := write_good hw (l.sectorOf c i) fun _ => 0
      obtain ⟨ok, d', hrest, hframe, hok, hbad⟩ := ih (i + 1) (by omega) d₁
      refine ⟨ok, d', ?_, ?_, ?_, ?_⟩
      · rw [Layout.faulty, zeroSectors_succ, hres]
        exact hrest
      · intro x hx
        rw [hframe x hx, hmem, putSector_outside hg hc (by omega) hx]
      · intro h
        obtain ⟨hram, hl⟩ := hok h
        rw [hmem] at hram
        refine ⟨by rw [Layout.ram, zeroSectors_succ]; exact hram, ?_⟩
        have hall := hlater.trans hl
        rwa [Nat.add_comm 1] at hall
      · intro h
        obtain ⟨w, hwn, hl, hf⟩ := hbad h
        exact ⟨1 + w, by omega, hlater.trans hl, hlater.failsIn hf⟩

theorem initDirectory_faulty (p : ℕ) (d : Faulty) :
    ∃ ok d', initDirectory l.faulty p c d = (ok, d') ∧
      (∀ x, ¬ l.InCluster c x → d'.mem x = d.mem x) ∧
      (ok = true → d'.mem = dirImage l d.mem p c ∧ d.Later d' 1 (l.bpb.sectorsPerCluster + 1)) ∧
      (ok = false → ∃ r w, r ≤ 1 ∧ w ≤ l.bpb.sectorsPerCluster + 1 ∧ d.Later d' r w ∧
        d.FailsIn r w) := by
  obtain ⟨ok₁, d₁, hzero, hframe₁, hok₁, hbad₁⟩ :=
    zeroSectors_faulty hg hc l.bpb.sectorsPerCluster 0 (by omega) d
  simp only [initDirectory, Layout.faulty_toLayout, Layout.faulty_dev, hzero]
  cases ok₁ with
  | false =>
    obtain ⟨w, hw, hl, hf⟩ := hbad₁ rfl
    exact ⟨false, d₁, rfl, hframe₁, by simp, fun _ => ⟨0, w, by omega, by omega, hl, hf⟩⟩
  | true =>
    obtain ⟨hram, hl₁⟩ := hok₁ rfl
    have himage := initDirectory_ram (m := d.mem) hg hc p
    cases hread : d₁.readFails 0 with
    | true =>
      refine ⟨false, d₁.skip 1, by simp only [read_bad hread], hframe₁, by simp, fun _ => ?_⟩
      exact ⟨_, _, le_rfl, Nat.le_succ _, hl₁.trans (d₁.later_skip 1),
        hl₁.failsIn (show d₁.FailsIn 1 0 from Or.inl ⟨0, one_pos, hread⟩)⟩
    | false =>
      simp only [read_good hread]
      have hl₂ := hl₁.trans (d₁.later_skip 1)
      rw [Nat.zero_add, Nat.add_zero] at hl₂
      generalize hbuf : putDirent
        (putDirent (sector d₁.mem (l.firstSector c)) 0 (newDirent dotName attrDirectory c))
        dirEntrySize (newDirent dotdotName attrDirectory p) = buf
      have hmem : putSector d₁.mem (l.firstSector c) buf = dirImage l d.mem p c := by
        simp only [initDirectory, Layout.ram_toLayout, hram, Layout.ram_dev, ramDisk,
          hbuf] at himage
        exact (Prod.mk.inj himage).2
      cases hw : (d₁.skip 1).writeFails 0 with
      | true =>
        obtain ⟨d', hres, hmem', hl⟩ := write_bad hw (l.firstSector c) buf
        refine ⟨false, d', hres, fun x hx => by rw [hmem']; exact hframe₁ x hx, by simp,
          fun _ => ?_⟩
        exact ⟨_, _, le_rfl, le_rfl, hl₂.trans hl,
          hl₂.failsIn (show (d₁.skip 1).FailsIn 0 1 from Or.inr ⟨0, one_pos, hw⟩)⟩
      | false =>
        obtain ⟨d', hres, hmem', hl⟩ := write_good hw (l.firstSector c) buf
        rw [Faulty.skip_mem, hmem] at hmem'
        refine ⟨true, d', hres, fun x hx => ?_, fun _ => ⟨hmem', hl₂.trans hl⟩, by simp⟩
        rw [hmem', dirImage_apart hg hx]

end Places

def FullDir (l : Layout) (m : Mem) (cs : List ℕ) : Prop :=
  ∀ a ∈ l.dirSlots cs, m a ≠ 0 ∧ m a ≠ 0xE5

theorem insertEntry_noSlot {d₁ : Faulty} (h : findFreeDirentSlot l.faulty p d = some (none, d₁))
    (e : Dirent) (c : ℕ) : insertEntry l.faulty p e c d =
      some (false, (writeFatEntry l.faulty c fat32FreeCluster d₁).2) := by
  rw [insertEntry, h]

def Layout.walkReads (l : Layout) (cs : List ℕ) : ℕ := cs.length * (l.bpb.sectorsPerCluster + 1)

section Insert
variable (hg : l.Geometry)
include hg

theorem costs_fullDir (hch : Chain l m p cs) (hfull : FullDir l m cs) :
    Costs (fun _ dev s => findFreeDirentSlot ⟨l, dev⟩ p s) m (l.walkReads cs) none none := by
  have hskip : ∀ a ∈ l.dirSlots cs, freeTest m a = .skip := by
    intro a ha
    rw [freeTest, if_neg (not_or.mpr (hfull a ha))]
  have hwalk := (costs_walkDir_skip freeTest_local hch.path (end_notMem hg hch.range)
    (show cs.length < chainFuel from hch.length_lt hg) hskip).map
      (Option.map fun h : Hit => (h.sector, h.entry))
  exact hwalk.congr fun σ dev s => by rw [findFreeDirentSlot]

theorem costs_slots (hch : Chain l m p cs) :
    ∃ k, Costs (fun _ dev s => findFreeDirentSlot ⟨l, dev⟩ p s) m k
      ((scan freeTest m (l.dirSlots cs)).result.map
        fun a => (a / sectorSize, a % sectorSize / dirEntrySize)) none := by
  obtain ⟨k, hk⟩ := costs_walkDir (walkDir_ram freeTest_local l hch.path (end_notMem hg hch.range)
    (show cs.length < chainFuel from hch.length_lt hg))
  have hmap := hk.map (Option.map fun h => (h.sector, h.entry))
  simp only [Option.map_map, Function.comp_def, hitAt, Option.map_none] at hmap
  exact ⟨k, hmap.congr fun σ dev s => by rw [findFreeDirentSlot]⟩

theorem insertEntry_faulty (hch : Chain l d.mem p cs) (hname : e.name.length = 11) (c : ℕ) :
    (∃ d₁ r w, insertEntry l.faulty p e c d =
        some (false, (writeFatEntry l.faulty c fat32FreeCluster d₁).2) ∧ d₁.mem = d.mem ∧
      d.Later d₁ r w ∧ (FullDir l d.mem cs → r ≤ l.walkReads cs ∧ w = 0) ∧
      (d.FailsIn r w ∨ (FullDir l d.mem cs ∧ r = l.walkReads cs))) ∨
    ∃ pre a post d', l.dirSlots cs = pre ++ a :: post ∧
      (∀ b ∈ pre, d.mem b ≠ 0 ∧ d.mem b ≠ 0xE5) ∧ (d.mem a = 0 ∨ d.mem a = 0xE5) ∧
      insertEntry l.faulty p e c d = some (true, d') ∧ d'.mem = putDirent d.mem a e := by
  rcases scan_freeTest d.mem (l.dirSlots cs) with ⟨a, hscan⟩ | hfull
  swap
  · left
    rcases (costs_fullDir hg hch hfull).faulty d rfl with ⟨-, hrun⟩ | ⟨j, hj, hbad, hrun⟩
    · exact ⟨_, _, 0, insertEntry_noSlot hrun e c, rfl, d.later_skip _, fun _ => ⟨le_rfl, rfl⟩,
        Or.inr ⟨hfull, rfl⟩⟩
    · exact ⟨_, _, 0, insertEntry_noSlot hrun e c, rfl, d.later_skip _, fun _ => ⟨hj, rfl⟩,
        Or.inl (Or.inl ⟨j, by omega, hbad⟩)⟩
  obtain ⟨pre, post, hsplit, hhit, hpre⟩ := scan_hit hscan
  have ha : a ∈ l.dirSlots cs := by simp [hsplit]
  have hroom : ¬ FullDir l d.mem cs := fun hfull =>
    (freeTest_hit hhit).elim (hfull a ha).1 (hfull a ha).2
  obtain ⟨k, hk⟩ := costs_slots hg hch
  rw [hscan] at hk
  rcases hk.faulty d rfl with ⟨-, hrun⟩ | ⟨j, -, hbad, hrun⟩
  swap
  · left
    exact ⟨_, _, 0, insertEntry_noSlot hrun e c, rfl, d.later_skip _, fun h => absurd h hroom,
      Or.inl (Or.inl ⟨j, by omega, hbad⟩)⟩
  have hslot : findFreeDirentSlot l.faulty p d =
      some (some (a / sectorSize, a % sectorSize / dirEntrySize), d.skip k) := hrun
  cases hread : (d.skip k).readFails 0 with
  | true =>
    left
    have hl := (d.later_skip k).trans ((d.skip k).later_skip 1)
    refine ⟨(d.skip k).skip 1, _, _, ?_, rfl, hl, fun h => absurd h hroom, Or.inl ?_⟩
    · simp only [insertEntry, hslot, Layout.faulty_dev, read_bad hread]
    · exact (d.later_skip k).failsIn (show (d.skip k).FailsIn 1 0 from Or.inl ⟨0, one_pos, hread⟩)
  | false =>
    have hl := (d.later_skip k).trans ((d.skip k).later_skip 1)
    generalize hbuf : putDirent (sector (d.skip k).mem (a / sectorSize))
      (a % sectorSize / dirEntrySize * dirEntrySize) e = buf
    cases hw : ((d.skip k).skip 1).writeFails 0 with
    | true =>
      left
      obtain ⟨d', hres, hmem, hl'⟩ := write_bad hw (a / sectorSize) buf
      refine ⟨d', _, _, ?_, hmem, hl.trans hl', fun h => absurd h hroom, Or.inl ?_⟩
      · simp only [insertEntry, hslot, Layout.faulty_dev, read_good hread, hbuf, hres]
      · exact hl.failsIn (show ((d.skip k).skip 1).FailsIn 0 1 from Or.inr ⟨0, one_pos, hw⟩)
    | false =>
      right
      obtain ⟨d', hres, hmem, -⟩ := write_good hw (a / sectorSize) buf
      have hput := putSector_putDirent d.mem (s := a / sectorSize)
        (i := a % sectorSize / dirEntrySize * dirEntrySize) hname
        (by simp only [sectorSize, dirEntrySize]; omega)
      rw [slot_split (slot_aligned ha)] at hput
      refine ⟨pre, a, post, d', hsplit, fun b hb => freeTest_skip (hpre b hb), freeTest_hit hhit,
        ?_, ?_⟩
      · simp only [insertEntry, hslot, Layout.faulty_dev, read_good hread, hbuf, hres]
      · rw [hmem, ← hbuf]
        exact hput

end Insert

end XldKernel.Fat32
