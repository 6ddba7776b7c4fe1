import XldKernel.FatTable
import XldKernel.LinkedPath

/-!
# Cluster chains of a volume whose sector arithmetic does not wrap

`Geometry` fixes what a mount of a real volume provides: the first table, its
copies and the data area lie one after the other below `2^32` sectors. A chain is
a path of FAT links through clusters of the volume that ends in an end mark.
-/

namespace XldKernel.Fat32
open ByteMemory BlockDevice LinkedPath

namespace Layout
variable (l : Layout)

def clusters : ℕ := 128 * l.bpb.sectorsPerFat

def InVolume (c : ℕ) : Prop := 2 ≤ c ∧ c < l.clusters

instance (c : ℕ) : Decidable (l.InVolume c) := inferInstanceAs (Decidable (_ ∧ _))

def clusterAddr (c : ℕ) : ℕ := sectorSize * (l.dataStart + (c - 2) * l.bpb.sectorsPerCluster)

def InTable (x : ℕ) : Prop :=
  sectorSize * l.fatStart ≤ x ∧ x < sectorSize * (l.fatStart + l.bpb.sectorsPerFat)

def InCluster (c x : ℕ) : Prop := l.clusterAddr c ≤ x ∧ x < l.clusterAddr c + l.bytesPerCluster

structure Geometry : Prop where
  bytes : l.bytesPerCluster = sectorSize * l.bpb.sectorsPerCluster
  spc_pos : 0 < l.bpb.sectorsPerCluster
  spc_lt : l.bpb.sectorsPerCluster < 2 ^ 8
  fats_pos : 0 < l.bpb.numFats
  data : l.dataStart = l.fatStart + l.bpb.numFats * l.bpb.sectorsPerFat
  table : sectorSize * l.bpb.sectorsPerFat ≤ 2 ^ 32
  last : l.dataStart + (l.clusters - 2) * l.bpb.sectorsPerCluster ≤ 2 ^ 32

end Layout

variable {l : Layout} {m m' : Mem} {c d : ℕ} {cs : List ℕ}

section Places
variable (hg : l.Geometry)
include hg

theorem Layout.Geometry.bytes_pos : 0 < l.bytesPerCluster := by
  rw [hg.bytes]
  exact Nat.mul_pos (by decide) hg.spc_pos

theorem Layout.Geometry.bytes_lt : l.bytesPerCluster < 2 ^ 17 := by
  have hlt := hg.spc_lt
  rw [hg.bytes, sectorSize]
  omega

theorem Layout.Geometry.table_le : l.fatStart + l.bpb.sectorsPerFat ≤ l.dataStart := by
  rw [hg.data]
  exact Nat.add_le_add_left (Nat.le_mul_of_pos_left _ hg.fats_pos) _

theorem fatAddr_eq (hc : c < l.clusters) : l.fatAddr c = sectorSize * l.fatStart + 4 * c := by
  have htab := hg.table
  have hle := hg.table_le
  have hlast := hg.last
  have hdata : l.dataStart ≤ 2 ^ 32 := (Nat.le_add_right _ _).trans hlast
  simp only [Layout.clusters, Layout.fatAddr, sectorSize] at *
  omega

theorem fatAddr_inTable (hc : c < l.clusters) {i : ℕ} (hi : i < 4) :
    l.InTable (l.fatAddr c + i) := by
  rw [fatAddr_eq hg hc]
  simp only [Layout.InTable, Layout.clusters, sectorSize] at *
  omega

theorem clusterAddr_add (c : ℕ) :
    l.clusterAddr c + l.bytesPerCluster =
      sectorSize * (l.dataStart + (c - 2 + 1) * l.bpb.sectorsPerCluster) := by
  rw [hg.bytes, Layout.clusterAddr, ← Nat.mul_add, Nat.add_mul, Nat.one_mul, Nat.add_assoc]

theorem not_inTable_of_inCluster {x : ℕ} (hx : l.InCluster c x) : ¬ l.InTable x := by
  intro ht
  have hle := Nat.mul_le_mul_left sectorSize (hg.table_le.trans (Nat.le_add_right l.dataStart
    ((c - 2) * l.bpb.sectorsPerCluster)))
  have h1 := hx.1
  have h2 := ht.2
  rw [Layout.clusterAddr] at h1
  omega

theorem cluster_apart (hc : l.InVolume c) (hd : l.InVolume d) (hne : c ≠ d) :
    l.clusterAddr c + l.bytesPerCluster ≤ l.clusterAddr d ∨
      l.clusterAddr d + l.bytesPerCluster ≤ l.clusterAddr c := by
  rw [clusterAddr_add hg, clusterAddr_add hg, Layout.clusterAddr, Layout.clusterAddr]
  have h1 := hc.1
  have h2 := hd.1
  rcases Nat.lt_or_gt_of_ne hne with hlt | hlt
  · left
    exact Nat.mul_le_mul_left _ (Nat.add_le_add_left (Nat.mul_le_mul_right _ (by omega)) _)
  · right
    exact Nat.mul_le_mul_left _ (Nat.add_le_add_left (Nat.mul_le_mul_right _ (by omega)) _)

theorem inCluster_inj {x : ℕ} (hc : l.InVolume c) (hd : l.InVolume d) (hx : l.InCluster c x)
    (hx' : l.InCluster d x) : c = d := by
  by_contra hne
  have hap := cluster_apart hg hc hd hne
  simp only [Layout.InCluster] at *
  omega

theorem entry_setEntry_ne (hc : c < l.clusters) (hd : d < l.clusters) (hne : d ≠ c) (v : ℕ) :
    l.entry (l.setEntry m c v) d = l.entry m d := by
  rw [Layout.entry, Layout.setEntry, load_store_apart, Layout.entry]
  rw [fatAddr_eq hg hc, fatAddr_eq hg hd]
  omega

/-- The scan may leave the table, but what it writes there is no entry of the table. -/
theorem entry_setEntry_scan {y : ℕ} (hy : y < scanEnd) (hd : d < l.clusters) (hne : d ≠ y) (v : ℕ) :
    l.entry (l.setEntry m y v) d = l.entry m d := by
  rw [Layout.entry, Layout.setEntry, load_store_apart, Layout.entry]
  have hle := hg.table_le
  have hlast := hg.last
  have hdata : l.dataStart ≤ 2 ^ 32 := (Nat.le_add_right _ _).trans hlast
  rw [fatAddr_eq hg hd]
  simp only [Layout.clusters, Layout.fatAddr, sectorSize, scanEnd] at *
  omega

theorem entry_congr (hc : c < l.clusters) (h : ∀ x, l.InTable x → m' x = m x) :
    l.entry m' c = l.entry m c := by
  rw [Layout.entry, Layout.entry, load_congr]
  intro i hi
  exact h _ (fatAddr_inTable hg hc hi)

theorem setEntry_apart (hc : c < l.clusters) {x : ℕ} (hx : ¬ l.InTable x) (v : ℕ) :
    l.setEntry m c v x = m x := by
  apply store_apart
  by_contra hin
  have hi : l.InTable (l.fatAddr c + (x - l.fatAddr c)) :=
    fatAddr_inTable hg hc (by omega)
  rw [Nat.add_sub_cancel' (by omega)] at hi
  exact hx hi

end Places

theorem entry_setEntry_self (l : Layout) (m : Mem) (c v : ℕ) :
    l.entry (l.setEntry m c v) c = v % 2 ^ 28 := by
  have hold := load_lt m (l.fatAddr c) 4
  rw [Layout.entry, Layout.setEntry, load_store_self, mergeEntry]
  omega

theorem entry_lt (l : Layout) (m : Mem) (c : ℕ) : l.entry m c < 2 ^ 28 := Nat.mod_lt _ (by decide)

structure Chain (l : Layout) (m : Mem) (c : ℕ) (cs : List ℕ) : Prop where
  path : Path (l.next m) c cs endOfChain
  nonempty : cs ≠ []
  range : ∀ x ∈ cs, l.InVolume x
  good : ∀ x ∈ cs, l.entry m x ≠ fat32BadCluster
  nodup : cs.Nodup

theorem Chain.start_mem (hch : Chain l m c cs) : c ∈ cs := by
  cases cs with
  | nil => exact absurd rfl hch.nonempty
  | cons x xs =>
    rw [hch.path.1]
    exact List.mem_cons_self

theorem Chain.start (hch : Chain l m c cs) : l.InVolume c := hch.range c hch.start_mem

theorem Chain.not_free (hch : Chain l m c cs) {x : ℕ} (hx : x ∈ cs) : l.entry m x ≠ 0 := by
  intro h0
  have hnext : l.next m x = 0 := by rw [Layout.next, h0]; rfl
  rcases hch.path.next_mem hx with hmem | hend
  · rw [hnext] at hmem
    exact absurd (hch.range 0 hmem).1 (by decide)
  · rw [hnext] at hend
    exact absurd hend (by decide)

theorem Chain.congr (hch : Chain l m c cs) (h : ∀ x ∈ cs, l.entry m' x = l.entry m x) :
    Chain l m' c cs where
  path := hch.path.congr fun x hx => by rw [Layout.next, h x hx, Layout.next]
  nonempty := hch.nonempty
  range := hch.range
  good x hx := by rw [h x hx]; exact hch.good x hx
  nodup := hch.nodup

theorem Chain.eoc {ini : List ℕ} {x : ℕ} (hch : Chain l m c (ini ++ [x])) :
    fat32EocMin ≤ l.entry m x := by
  have hnext : linkOf (l.entry m x) = endOfChain := (path_snoc.mp hch.path).2
  have hgood := hch.good x (by simp)
  have hlt := entry_lt l m x
  by_contra hno
  simp only [linkOf, if_neg hno, if_neg hgood, endOfChain] at hnext
  omega

theorem entry_claim_prev {prev y : ℕ} (hprev : prev ≠ 0) (hend : y < 2 ^ 28) :
    l.entry (l.claim m prev y) prev = y := by
  rw [Layout.claim, if_pos hprev, entry_setEntry_self, Nat.mod_eq_of_lt hend]

section Chains
variable (hg : l.Geometry)
include hg

theorem end_notMem (hrange : ∀ x ∈ cs, l.InVolume x) : endOfChain ∉ cs := by
  intro hmem
  have hlt := (hrange _ hmem).2
  have htab := hg.table
  simp only [Layout.clusters, endOfChain, sectorSize] at *
  omega

theorem Chain.mk' (hpath : Path (l.next m) c cs endOfChain) (hne : cs ≠ [])
    (hrange : ∀ x ∈ cs, l.InVolume x) (hgood : ∀ x ∈ cs, l.entry m x ≠ fat32BadCluster) :
    Chain l m c cs :=
  ⟨hpath, hne, hrange, hgood, hpath.nodup (end_notMem hg hrange)⟩

theorem Chain.unique {ds : List ℕ} (h : Chain l m c cs) (h' : Chain l m c ds) : cs = ds :=
  h.path.unique h'.path (end_notMem hg h.range) (end_notMem hg h'.range)

theorem Chain.length_lt (h : Chain l m c cs) : cs.length < 2 ^ 32 := by
  have hsub : cs ⊆ List.range l.clusters := fun x hx => List.mem_range.mpr (h.range x hx).2
  have hlen := (h.nodup.subperm hsub).length_le
  have htab := hg.table
  simp only [Layout.clusters, List.length_range, sectorSize] at *
  omega

theorem claim_apart {prev y x : ℕ} (hy : l.InVolume y) (hprev : prev < l.clusters)
    (hx : ¬ l.InTable x) : l.claim m prev y x = m x := by
  simp only [Layout.claim]
  split_ifs
  · rw [setEntry_apart hg hprev hx, setEntry_apart hg hy.2 hx]
  · exact setEntry_apart hg hy.2 hx _

theorem entry_claim_new {prev y : ℕ} (hy : l.InVolume y) (hprev : prev < l.clusters)
    (hne : prev ≠ y) : l.entry (l.claim m prev y) y = 0x0FFFFFFF := by
  have hmark : 0x0FFFFFFF % 2 ^ 28 = 0x0FFFFFFF := by norm_num
  simp only [Layout.claim]
  split_ifs
  · rw [entry_setEntry_ne hg hprev hy.2 hne.symm, entry_setEntry_self, hmark]
  · rw [entry_setEntry_self, hmark]

theorem entry_claim_other {prev y d : ℕ} (hy : l.InVolume y) (hprev : prev < l.clusters)
    (hd : d < l.clusters) (hdy : d ≠ y) (hdp : d ≠ prev) :
    l.entry (l.claim m prev y) d = l.entry m d := by
  simp only [Layout.claim]
  split_ifs
  · rw [entry_setEntry_ne hg hprev hd hdp, entry_setEntry_ne hg hy.2 hd hdy]
  · exact entry_setEntry_ne hg hy.2 hd hdy _

theorem Chain.fresh {y : ℕ} (hy : l.InVolume y) : Chain l (l.claim m 0 y) y [y] := by
  have hpos : 0 < l.clusters := by
    have h1 := hy.1
    have h2 := hy.2
    omega
  have hne : 0 ≠ y := by
    have h1 := hy.1
    omega
  have hentry := entry_claim_new (m := m) hg hy hpos hne
  refine Chain.mk' hg ⟨rfl, ?_⟩ (by simp) ?_ ?_
  · rw [Layout.next, hentry]
    rfl
  · intro x hx
    rw [List.mem_singleton.mp hx]
    exact hy
  · intro x hx
    rw [List.mem_singleton.mp hx, hentry]
    decide

/-- A free cluster claimed behind one of the chain ends the chain right after it. -/
theorem Chain.relink {ini post : List ℕ} {x y : ℕ} (hch : Chain l m c (ini ++ x :: post))
    (hy : l.InVolume y) (hend : y < scanEnd) (hfree : l.entry m y = 0) :
    Chain l (l.claim m x y) c (ini ++ [x, y]) := by
  have hnotin : y ∉ ini ++ x :: post := fun hmem => hch.not_free hmem hfree
  have hxv := hch.range x (by simp)
  have hx0 : x ≠ 0 := by
    have h1 := hxv.1
    omega
  have hxy : x ≠ y := by
    intro h
    exact hnotin (by simp [h])
  have hini : ∀ z ∈ ini, l.entry (l.claim m x y) z = l.entry m z := by
    intro z hz
    have hzx : z ≠ x := by
      intro h
      have hdup := List.nodup_append.mp hch.nodup
      exact hdup.2.2 z hz x (by simp) h
    refine entry_claim_other hg hy hxv.2 (hch.range z (by simp [hz])).2 ?_ hzx
    intro h
    exact hnotin (by simp [← h, hz])
  have hnew := entry_claim_new (m := m) hg hy hxv.2 hxy
  have hlink : l.entry (l.claim m x y) x = y :=
    entry_claim_prev hx0 (hend.trans (by decide))
  have hnextx : l.next (l.claim m x y) x = y := by
    rw [Layout.next, hlink, linkOf, if_neg, if_neg]
    · simp only [scanEnd, fat32BadCluster] at *
      omega
    · simp only [scanEnd, fat32EocMin] at *
      omega
  have hnexty : l.next (l.claim m x y) y = endOfChain := by
    rw [Layout.next, hnew]
    rfl
  have hfront : Path (l.next (l.claim m x y)) c ini x := by
    refine hch.path.split.1.congr ?_
    intro z hz
    rw [Layout.next, hini z hz, Layout.next]
  refine Chain.mk' hg ?_ (by simp) ?_ ?_
  · refine hfront.join ?_
    exact ⟨hnextx, hnexty⟩
  · intro z hz
    simp only [List.mem_append, List.mem_cons, List.not_mem_nil, or_false] at hz
    rcases hz with hz | rfl | rfl
    · exact hch.range z (by simp [hz])
    · exact hxv
    · exact hy
  · intro z hz
    simp only [List.mem_append, List.mem_cons, List.not_mem_nil, or_false] at hz
    rcases hz with hz | rfl | rfl
    · rw [hini z hz]
      exact hch.good z (by simp [hz])
    · rw [hlink]
      simp only [scanEnd, fat32BadCluster] at *
      omega
    · rw [hnew]
      decide

end Chains

end XldKernel.Fat32
