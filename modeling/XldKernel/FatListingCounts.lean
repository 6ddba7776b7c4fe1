import XldKernel.FatListedNames
import XldKernel.FatMountArithmetic
import XldKernel.TreeLevels

/-!
# FAT32: the totals of the recursive listing

Source: `fat32_ls_recursive` of `kernel/src/fat32_ls.c`. The directories of a volume are
the levels of a tree below the root directory. The listing goes down to depth 10 and
counts every entry that it prints once, in two variables of type `int`.
-/

namespace XldKernel.Fat32
open ByteMemory BlockDevice LinkedPath TreeLevels
variable {σ : Type} {l : Layout} {m : Mem} {chain : ℕ → List ℕ}

def intCount (n : ℕ) : ℤ := (n : ℤ).bmod (2 ^ 32)

theorem intCount_succ (n : ℕ) : intCount (n + 1) = (intCount n + 1).bmod (2 ^ 32) := by
  have hstep : ((n : ℤ).bmod (2 ^ 32) + 1).bmod (2 ^ 32) = ((n : ℤ) + 1).bmod (2 ^ 32) :=
    Int.bmod_add_bmod
  exact hstep.symm

theorem bmod_eq_self_iff {x : ℤ} (hx : 0 ≤ x) : x.bmod (2 ^ 32) = x ↔ x < 2 ^ 31 := by
  rw [Int.bmod_def]
  split_ifs <;> omega

theorem intCount_eq_iff (n : ℕ) : intCount n = n ↔ n < 2 ^ 31 :=
  (bmod_eq_self_iff (Int.natCast_nonneg n)).trans (by norm_cast)

structure Report where
  lines : List Line
  fileCount : ℤ
  dirCount : ℤ

def fat32LsRecursive (fs : Fs σ) (s : σ) : Option (Report × σ) :=
  match fat32ListDirRecursive fs fs.bpb.rootCluster [] 0 ⟨[], 0, 0⟩ s with
  | none => none
  | some (out, s) => some (⟨out.lines, intCount out.fileCount, intCount out.dirCount⟩, s)

namespace Layout
variable (l m chain)

def visible (cs : List ℕ) : List Dirent :=
  ((liveSlots m (l.dirSlots cs)).filter fun a => ¬ Label m a ∧ m a ≠ 46).map (direntAt m)

def subdirs (cs : List ℕ) : List ℕ :=
  ((l.visible m cs).filter fun de => de.IsDir).map Dirent.cluster

def dirsAtDepth (k : ℕ) : List ℕ := level (fun d => l.subdirs m (chain d)) k [l.bpb.rootCluster]

def dirsWithin (depth : ℕ) : Finset ℕ :=
  (Finset.range (depth + 1)).biUnion fun k => (l.dirsAtDepth m chain k).toFinset

def fileTotal (depth : ℕ) : ℕ :=
  ∑ d ∈ l.dirsWithin m chain depth, (l.visible m (chain d)).countP fun de => ¬ de.IsDir

def dirTotal (depth : ℕ) : ℕ :=
  ∑ d ∈ l.dirsWithin m chain depth, (l.visible m (chain d)).countP fun de => de.IsDir

end Layout

/-- Down to this depth every directory has a chain of clusters, and no cluster is in two
of the chains. -/
structure DirTree (l : Layout) (m : Mem) (chain : ℕ → List ℕ) (depth : ℕ) : Prop where
  path : ∀ k ≤ depth, ∀ d ∈ l.dirsAtDepth m chain k, Path (l.next m) d (chain d) endOfChain
  clusters : ∀ k ≤ depth, ∀ d ∈ l.dirsAtDepth m chain k, ∀ c ∈ chain d, c ≠ endOfChain ∧ 2 ≤ c
  disjoint : (((List.range (depth + 1)).flatMap (l.dirsAtDepth m chain)).flatMap chain).Nodup

theorem listed_eq_visible (l : Layout) (m : Mem) (cs : List ℕ) :
    l.listed m cs = l.visible m cs := by
  rw [Layout.listed, listedSlots_eq, Layout.visible]

theorem cluster_mem_dirsAtDepth {k d : ℕ} (hd : d ∈ l.dirsAtDepth m chain k) {de : Dirent}
    (hde : de ∈ l.visible m (chain d)) (hdir : de.IsDir) :
    de.cluster ∈ l.dirsAtDepth m chain (k + 1) := by
  rw [Layout.dirsAtDepth, level_succ]
  refine List.mem_flatMap.mpr ⟨d, hd, List.mem_map_of_mem ?_⟩
  exact List.mem_filter.mpr ⟨hde, decide_eq_true hdir⟩

def treeEntry (below : ℕ → List UInt8 → Listing → Listing) (indent path : List UInt8) (de : Dirent)
    (out : Listing) : Listing :=
  let name := nameToString de
  if de.IsDir then
    below de.cluster (subPath path name)
      ⟨out.lines ++ [.subdir indent name], out.fileCount, out.dirCount + 1⟩
  else ⟨out.lines ++ [.file indent name (sizeText de.size)], out.fileCount + 1, out.dirCount⟩

def treeListing (l : Layout) (m : Mem) (chain : ℕ → List ℕ) :
    ℕ → ℕ → List UInt8 → Listing → Listing
  | 0, _, path, out => { out with lines := out.lines ++ [.depthLimit path] }
  | left + 1, dir, path, out =>
    listAll (treeEntry (treeListing l m chain left) (List.replicate ((10 - left) * 2) 32) path) m
      (l.dirSlots (chain dir)) out

theorem listLevels_eq {depth : ℕ} (h : DirTree l m chain depth) {left k dir : ℕ}
    (hk : k + left = depth + 1) (hdir : dir ∈ l.dirsAtDepth m chain k) (path : List UInt8)
    (out : Listing) :
    listLevels l.ram left dir path out m = some (treeListing l m chain left dir path out, m) := by
  induction left generalizing k dir path out with
  | zero => rfl
  | succ left ih =>
    have hpath := h.path k (by omega) dir hdir
    have hcs := h.clusters k (by omega) dir hdir
    refine listDir_fold _ l hpath hcs (fun a ha out => ?_)
      (path_length_lt hpath fun hend => (hcs _ hend).1 rfl) out
    have hde : direntAt m a ∈ l.visible m (chain dir) :=
      listed_eq_visible l m (chain dir) ▸ List.mem_map_of_mem ha
    rw [treeEntry]
    dsimp only
    split_ifs with hsub
    · exact ih (by omega) (cluster_mem_dirsAtDepth hdir hde hsub) _ _
    · rfl

def Listing.counts (out : Listing) : ℕ × ℕ := (out.fileCount, out.dirCount)

def Dirent.counts (de : Dirent) : ℕ × ℕ := if de.IsDir then (0, 1) else (1, 0)

def Layout.entryCounts (l : Layout) (m : Mem) (cs : List ℕ) : ℕ × ℕ :=
  ((l.visible m cs).map Dirent.counts).sum

theorem sum_counts (des : List Dirent) :
    (des.map Dirent.counts).sum =
      (des.countP (fun de => ¬ de.IsDir), des.countP fun de => de.IsDir) := by
  induction des with
  | nil => rfl
  | cons de des ih =>
    rw [List.map_cons, List.sum_cons, ih, Dirent.counts]
    by_cases hdir : de.IsDir
    · simp [hdir, add_comm]
    · simp [hdir, add_comm]

theorem listAll_counts {f : Dirent → Listing → Listing} {g : Dirent → ℕ × ℕ}
    (hf : ∀ de out, (f de out).counts = out.counts + g de) (cs : List ℕ) (out : Listing) :
    (listAll f m (l.dirSlots cs) out).counts = out.counts + ((l.visible m cs).map g).sum := by
  rw [listAll, ← Layout.listed, listed_eq_visible]
  induction l.visible m cs generalizing out with
  | nil => rw [List.foldl_nil, List.map_nil, List.sum_nil, add_zero]
  | cons de des ih =>
    rw [List.foldl_cons, ih, hf, List.map_cons, List.sum_cons, add_assoc]

theorem sum_subdirs (f : ℕ → ℕ × ℕ) (cs : List ℕ) :
    ((l.visible m cs).map fun de => if de.IsDir then f de.cluster else 0).sum =
      ((l.subdirs m cs).map f).sum := by
  rw [Layout.subdirs, List.map_map]
  induction l.visible m cs with
  | nil => rfl
  | cons de des ih =>
    rw [List.map_cons, List.sum_cons, ih, List.filter_cons]
    by_cases hdir : de.IsDir
    · simp [hdir]
    · simp [hdir]

theorem treeListing_counts (left dir : ℕ) (path : List UInt8) (out : Listing) :
    (treeListing l m chain left dir path out).counts =
      out.counts + deepSum (fun d => l.subdirs m (chain d))
        (fun d => l.entryCounts m (chain d)) left dir := by
  induction left generalizing dir path out with
  | zero => rfl
  | succ left ih =>
    have hentry : ∀ indent de out,
        (treeEntry (treeListing l m chain left) indent path de out).counts =
          out.counts + (de.counts + if de.IsDir then deepSum (fun d => l.subdirs m (chain d))
            (fun d => l.entryCounts m (chain d)) left de.cluster else 0) := by
      intro indent de out
      rw [treeEntry, Dirent.counts]
      split_ifs with hdir
      · rw [ih, ← add_assoc]
        rfl
      · rfl
    rw [treeListing, listAll_counts (hentry _), List.sum_map_add, sum_subdirs, deepSum,
      Layout.entryCounts]

theorem deepSum_root {depth : ℕ} (h : DirTree l m chain depth) :
    deepSum (fun d => l.subdirs m (chain d)) (fun d => l.entryCounts m (chain d)) (depth + 1)
      l.bpb.rootCluster = (l.fileTotal m chain depth, l.dirTotal m chain depth) := by
  have hsum := sum_deepSum (fun d => l.entryCounts m (chain d)) (fun d => l.subdirs m (chain d))
    (depth + 1) [l.bpb.rootCluster]
  have hset : ((List.range (depth + 1)).flatMap (l.dirsAtDepth m chain)).toFinset =
      l.dirsWithin m chain depth := by
    ext d
    simp [Layout.dirsWithin]
  rw [List.map_singleton, List.sum_singleton] at hsum
  calc deepSum (fun d => l.subdirs m (chain d)) (fun d => l.entryCounts m (chain d)) (depth + 1)
        l.bpb.rootCluster
      = (((List.range (depth + 1)).flatMap (l.dirsAtDepth m chain)).map
          fun d => l.entryCounts m (chain d)).sum := hsum
    _ = ∑ d ∈ l.dirsWithin m chain depth, l.entryCounts m (chain d) := by
      rw [← hset]
      exact sum_map_eq_sum_toFinset h.disjoint fun d hd => by rw [hd]; rfl
    _ = (l.fileTotal m chain depth, l.dirTotal m chain depth) := by
      simp only [Layout.entryCounts, sum_counts, Layout.fileTotal, Layout.dirTotal, Prod.ext_iff,
        Prod.fst_sum, Prod.snd_sum, and_self]

theorem fat32LsRecursive_counts (h : DirTree l m chain 10) :
    ∃ r, fat32LsRecursive l.ram m = some (r, m) ∧
      r.fileCount = intCount (l.fileTotal m chain 10) ∧
      r.dirCount = intCount (l.dirTotal m chain 10) := by
  set out := treeListing l m chain 11 l.bpb.rootCluster [] ⟨[], 0, 0⟩ with hout
  have hrun : fat32ListDirRecursive l.ram l.bpb.rootCluster [] 0 ⟨[], 0, 0⟩ m = some (out, m) :=
    listLevels_eq h (Nat.zero_add 11) (List.mem_singleton_self l.bpb.rootCluster) [] ⟨[], 0, 0⟩
  have hcounts : out.counts = (l.fileTotal m chain 10, l.dirTotal m chain 10) := by
    rw [hout, treeListing_counts, deepSum_root h]
    exact zero_add _
  obtain ⟨hfiles, hdirs⟩ := Prod.mk.inj hcounts
  refine ⟨⟨out.lines, intCount out.fileCount, intCount out.dirCount⟩, ?_, ?_, ?_⟩
  · rw [fat32LsRecursive, Layout.ram_toLayout, hrun]
  · rw [hfiles]
  · rw [hdirs]

/-- On a tree of directories the listing ends, and its totals are the numbers of the entries
exactly when an `int` can hold both of these. -/
theorem ls_recursive_counts_iff (l : Layout) (m : Mem) (chain : ℕ → List ℕ)
    (h : DirTree l m chain 10) :
    ∃ r, fat32LsRecursive l.ram m = some (r, m) ∧
      ((r.fileCount = l.fileTotal m chain 10 ∧ r.dirCount = l.dirTotal m chain 10) ↔
        l.fileTotal m chain 10 < 2 ^ 31 ∧ l.dirTotal m chain 10 < 2 ^ 31) := by
  obtain ⟨r, hrun, hfiles, hdirs⟩ := fat32LsRecursive_counts h
  refine ⟨r, hrun, ?_⟩
  rw [hfiles, hdirs, intCount_eq_iff, intCount_eq_iff]

def treeDisk : Mem :=
  putDirent
    (putDirent (tinyLayout.claim tinyDisk 0 3) 1024 ⟨to83 [68], attrDirectory, 0, 3, 0⟩)
    1536 ⟨to83 [65], attrArchive, 0, 0, 0⟩

theorem ls_recursive_counts_tree :
    ∃ r, fat32LsRecursive tinyLayout.ram treeDisk = some (r, treeDisk) ∧
      r.fileCount = 1 ∧ r.dirCount = 1 := by
  have hfiles : tinyLayout.fileTotal treeDisk (fun d => [d]) 10 = 1 := by decide +kernel
  have hdirs : tinyLayout.dirTotal treeDisk (fun d => [d]) 10 = 1 := by decide +kernel
  obtain ⟨r, hrun, hiff⟩ := ls_recursive_counts_iff tinyLayout treeDisk (fun d => [d])
    ⟨by decide +kernel, by decide +kernel, by decide +kernel⟩
  rw [hfiles, hdirs] at hiff
  obtain ⟨hf, hd⟩ := hiff.mpr (by decide)
  exact ⟨r, hrun, hf, hd⟩

def wideChain : List ℕ := List.range' 2 (2 ^ 20)

def wideLink (c : ℕ) : ℕ := if c = 2 ^ 20 + 1 then 0x0FFFFFFF else c + 1

def wideEntry (slot off : ℕ) : UInt8 :=
  if off < 8 then UInt8.ofNat (65 + slot / 16 ^ off % 16)
  else if off < 11 then 32
  else if off = 11 then attrArchive
  else 0

def wideDisk : Mem := fun a =>
  if a < 512 then bootWith 128 1 8193 a
  else if a < 512 * 8194 then UInt8.ofNat (wideLink ((a - 512) / 4) / 256 ^ (a % 4))
  else wideEntry (a / 32) (a % 32)

def wideLayout : Layout := ⟨⟨512, 128, 1, 1, 8193, 2⟩, 1, 8194, 65536⟩

theorem wideLayout_mount : fat32Mount ramDisk true wideDisk = (some wideLayout.ram, wideDisk) := by
  have hbpb : bpbAt (sector wideDisk 0) = wideLayout.bpb := by
    rw [wideLayout, bpbAt, Bpb.mk.injEq]
    decide +kernel
  rw [fat32Mount_direct (by decide +kernel) (by decide +kernel), bootLayout, hbpb]
  rfl

theorem mem_wideChain {c : ℕ} : c ∈ wideChain ↔ 2 ≤ c ∧ c < 2 + 2 ^ 20 := by
  rw [wideChain, List.mem_range'_1]

theorem wideDisk_next {c : ℕ} (hc : c ∈ wideChain) :
    wideLayout.next wideDisk c = if c = 2 ^ 20 + 1 then endOfChain else c + 1 := by
  have hlt := mem_wideChain.mp hc
  have haddr : wideLayout.fatAddr c = 512 + 4 * c := by
    simp only [Layout.fatAddr, wideLayout, sectorSize]
    omega
  have hload : load wideDisk (512 + 4 * c) 4 = wideLink c % 256 ^ 4 := by
    refine load_of_digits fun i hi => ?_
    have hc' : (512 + 4 * c + i - 512) / 4 = c := by omega
    have hi' : (512 + 4 * c + i) % 4 = i := by omega
    rw [wideDisk, if_neg (by omega), if_pos (by omega), hc', hi']
  rw [Layout.next, Layout.entry, haddr, hload, wideLink]
  split_ifs with hlast
  · rfl
  · rw [Nat.mod_eq_of_lt (by omega), Nat.mod_eq_of_lt (by omega), linkOf, if_neg, if_neg]
    · rw [fat32BadCluster]
      omega
    · rw [fat32EocMin]
      omega

theorem wideSlot_aligned {a : ℕ} (ha : a ∈ wideLayout.dirSlots wideChain) :
    512 * 8194 ≤ a ∧ a % 32 = 0 := by
  obtain ⟨c, hc, ha⟩ := List.mem_flatMap.mp ha
  obtain ⟨i, hi, ha⟩ := List.mem_flatMap.mp ha
  obtain ⟨e, he, rfl⟩ := List.mem_map.mp ha
  have hc' := mem_wideChain.mp hc
  have hi' : i < 128 := List.mem_range.mp hi
  have hsector : 8194 ≤ wideLayout.sectorOf c i := by
    simp only [Layout.sectorOf, Layout.firstSector, wideLayout]
    omega
  simp only [sectorSize, dirEntrySize]
  omega

theorem wideDisk_slot {a : ℕ} (ha : a ∈ wideLayout.dirSlots wideChain) :
    (∃ y < 16, wideDisk a = UInt8.ofNat (65 + y)) ∧ wideDisk (a + 11) = attrArchive := by
  obtain ⟨hle, hmod⟩ := wideSlot_aligned ha
  have hoff : (a + 11) % 32 = 11 := by omega
  refine ⟨⟨a / 32 / 16 ^ 0 % 16, Nat.mod_lt _ (by decide), ?_⟩, ?_⟩
  · rw [wideDisk, if_neg (by omega), if_neg (by omega), hmod, wideEntry, if_pos (by decide)]
  · rw [wideDisk, if_neg (by omega), if_neg (by omega), hoff]
    rfl

theorem length_dirSlots (l : Layout) (cs : List ℕ) :
    (l.dirSlots cs).length = cs.length * (l.bpb.sectorsPerCluster * dirEntriesPerSec) := by
  simp [Layout.dirSlots, Layout.clusterSlots, sectorSlots, List.length_flatMap]

theorem wideDisk_visible :
    wideLayout.visible wideDisk wideChain =
      (wideLayout.dirSlots wideChain).map (direntAt wideDisk) := by
  have hletter : ∀ y < 16, UInt8.ofNat (65 + y) ≠ 0 ∧ UInt8.ofNat (65 + y) ≠ 0xE5 ∧
      UInt8.ofNat (65 + y) ≠ 46 := by decide
  have hkept : ∀ a ∈ wideLayout.dirSlots wideChain, wideDisk a ≠ 0 ∧
      (wideDisk a ≠ 0xE5 ∧ wideDisk (a + 11) ≠ attrLfn) ∧ ¬ Label wideDisk a ∧ wideDisk a ≠ 46 := by
    intro a ha
    obtain ⟨⟨y, hy, hbyte⟩, hattr⟩ := wideDisk_slot ha
    obtain ⟨h0, h1, h2⟩ := hletter y hy
    rw [Label, hbyte, hattr]
    exact ⟨h0, ⟨h1, by decide⟩, by decide, h2⟩
  have hbefore : (wideLayout.dirSlots wideChain).takeWhile (fun a => wideDisk a ≠ 0) =
      wideLayout.dirSlots wideChain :=
    List.takeWhile_eq_self_iff.mpr fun a ha => decide_eq_true (hkept a ha).1
  have hlive : liveSlots wideDisk (wideLayout.dirSlots wideChain) =
      wideLayout.dirSlots wideChain := by
    rw [liveSlots, hbefore]
    exact List.filter_eq_self.mpr fun a ha => decide_eq_true (hkept a ha).2.1
  rw [Layout.visible, hlive, List.filter_eq_self.mpr fun a ha => decide_eq_true (hkept a ha).2.2]

theorem wideDisk_file {de : Dirent} (hde : de ∈ wideLayout.visible wideDisk wideChain) :
    ¬ de.IsDir := by
  rw [wideDisk_visible] at hde
  obtain ⟨a, ha, rfl⟩ := List.mem_map.mp hde
  have hattr : (direntAt wideDisk a).attr = attrArchive := (wideDisk_slot ha).2
  rw [Dirent.IsDir, hattr]
  decide

theorem wideDisk_subdirs : wideLayout.subdirs wideDisk wideChain = [] := by
  rw [Layout.subdirs, List.map_eq_nil_iff, List.filter_eq_nil_iff]
  exact fun de hde h => wideDisk_file hde (of_decide_eq_true h)

theorem wideDisk_depth (k : ℕ) :
    wideLayout.dirsAtDepth wideDisk (fun _ => wideChain) k = if k = 0 then [2] else [] := by
  cases k with
  | zero => rfl
  | succ k =>
    rw [Layout.dirsAtDepth, level, List.flatMap_singleton, wideDisk_subdirs, level_nil]
    rfl

theorem wideDisk_path : Path (wideLayout.next wideDisk) 2 wideChain endOfChain := by
  have hsplit : wideChain = List.range' 2 (2 ^ 20 - 1) ++ [2 + (2 ^ 20 - 1)] := List.range'_1_concat
  have hlast := wideDisk_next (c := 2 + (2 ^ 20 - 1)) (mem_wideChain.mpr (by decide))
  rw [hsplit, path_snoc]
  refine ⟨path_range' fun c hle hlt => ?_, hlast⟩
  rw [wideDisk_next (mem_wideChain.mpr (by omega)), if_neg (by omega)]

theorem wideDisk_tree : DirTree wideLayout wideDisk (fun _ => wideChain) 10 := by
  refine ⟨fun k _ d hd => ?_, fun k _ d _ c hc => ?_, ?_⟩
  · rw [wideDisk_depth] at hd
    split_ifs at hd
    · obtain rfl := List.mem_singleton.mp hd
      exact wideDisk_path
    · simp at hd
  · have hlt := mem_wideChain.mp hc
    rw [endOfChain]
    omega
  · have hroot : (List.range (10 + 1)).flatMap (wideLayout.dirsAtDepth wideDisk fun _ =>
        wideChain) = [2] := by
      rw [funext wideDisk_depth]
      rfl
    rw [hroot, List.flatMap_singleton]
    exact List.nodup_range'

theorem wideDisk_files : wideLayout.fileTotal wideDisk (fun _ => wideChain) 10 = 2 ^ 31 := by
  have hdirs : wideLayout.dirsWithin wideDisk (fun _ => wideChain) 10 = {2} := by
    simp only [Layout.dirsWithin, wideDisk_depth]
    decide
  rw [Layout.fileTotal, hdirs, Finset.sum_singleton,
    List.countP_eq_length.mpr fun de hde => decide_eq_true (wideDisk_file hde), wideDisk_visible,
    List.length_map, length_dirSlots, wideChain, List.length_range']
  rfl

/-- The listing of the root directory that holds `2 ^ 31` files. -/
theorem ls_recursive_overflows :
    fat32Mount ramDisk true wideDisk = (some wideLayout.ram, wideDisk) ∧
    DirTree wideLayout wideDisk (fun _ => wideChain) 10 ∧
    wideLayout.fileTotal wideDisk (fun _ => wideChain) 10 = 2 ^ 31 ∧
    ∃ r, fat32LsRecursive wideLayout.ram wideDisk = some (r, wideDisk) ∧ r.fileCount = -2 ^ 31 := by
  obtain ⟨r, hrun, hfiles, -⟩ := fat32LsRecursive_counts wideDisk_tree
  refine ⟨wideLayout_mount, wideDisk_tree, wideDisk_files, r, hrun, ?_⟩
  rw [hfiles, wideDisk_files]
  decide

end XldKernel.Fat32
