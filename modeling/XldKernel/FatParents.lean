import XldKernel.FatPaths

/-!
# FAT32: going up from a directory of the root

On a volume as the specification lays it out, the entry `..` of a directory in the root
has the start cluster 0 and not that of the root. `fat32_resolve` goes on with the
number it finds, and the sectors it takes for cluster 0 lie before the data area.
-/

namespace XldKernel.Fat32
open ByteMemory BlockDevice LinkedPath Components
variable {l : Layout} {m : Mem} {d p : ℕ} {cs : List ℕ}

def DotEntries (l : Layout) (m : Mem) (d p : ℕ) (cs : List ℕ) : Prop :=
  ∃ a b rest, l.dirSlots cs = a :: b :: rest ∧
    (direntAt m a).name = to83 [46] ∧ (direntAt m a).attr = attrDirectory ∧
    (direntAt m a).cluster = d ∧
    (direntAt m b).name = to83 [46, 46] ∧ (direntAt m b).attr = attrDirectory ∧
    (direntAt m b).cluster = if p = l.bpb.rootCluster then 0 else p

/-- A volume as the specification lays it out: directories have chains inside the volume,
those below the root begin with the two dot entries and the root has none. -/
structure SpecVolume (l : Layout) (m : Mem) : Prop where
  geometry : l.Geometry
  chains : ∀ d, DirCluster l m d → ∃ cs, Chain l m d cs
  rootPlain : ∀ cs, Chain l m l.bpb.rootCluster cs → ∀ a ∈ liveSlots m (l.dirSlots cs),
    (direntAt m a).name ∉ dotNames
  dots : ∀ p cs a, DirCluster l m p → Chain l m p cs → a ∈ liveSlots m (l.dirSlots cs) →
    (direntAt m a).name ∉ dotNames → (direntAt m a).IsDir →
    ∀ ds, Chain l m (direntAt m a).cluster ds → DotEntries l m (direntAt m a).cluster p ds

theorem DotEntries.find (hg : l.Geometry) (hch : Chain l m d cs) (h : DotEntries l m d p cs) :
    enterDir l.ram d [46, 46] m = some (some (if p = l.bpb.rootCluster then 0 else p), m) := by
  obtain ⟨a, b, rest, hslots, hname, hattr, -, hname', hattr', hcluster⟩ := h
  have hlive : ∀ {x : ℕ} {name : List UInt8} (xs : List ℕ), (direntAt m x).name = name →
      name.head? = some 46 → (direntAt m x).attr = attrDirectory →
      liveSlots m (x :: xs) = x :: liveSlots m xs := by
    intro x name xs hx hhead hdir
    have hfirst : m x = 46 := by
      rw [direntAt_first hx, Option.some_inj] at hhead
      exact hhead
    have hthis : m (x + 11) = attrDirectory := hdir
    rw [liveSlots_cons, hfirst, hthis, if_neg (by decide), if_neg (by decide)]
  have hdir : (direntAt m b).IsDir := by
    rw [Dirent.IsDir, hattr']
    decide
  have ha : nameIs m (to83 [46, 46]) a = false := by
    rw [nameIs, hname]
    decide
  have hb : nameIs m (to83 [46, 46]) b = true := by
    rw [nameIs, hname']
    decide
  rw [enterDir, find_ram hg hch, hslots, hlive _ hname rfl hattr, hlive _ hname' rfl hattr',
    List.find?_cons_of_neg (by simp [ha]), List.find?_cons_of_pos hb, ← hcluster]
  simp [foundAt, Option.filter, hdir]

theorem SpecVolume.up (h : SpecVolume l m) {name : List UInt8} {found : Found}
    (hfound : fat32Find l.ram l.bpb.rootCluster name m = some (some found, m))
    (hdir : found.dirent.IsDir) :
    enterDir l.ram found.dirent.cluster [46, 46] m = some (some 0, m) := by
  obtain ⟨cs, hch⟩ := h.chains _ .root
  rw [find_ram h.geometry hch, Option.some_inj, Prod.mk.injEq, Option.map_eq_some_iff] at hfound
  obtain ⟨⟨a, ha, rfl⟩, -⟩ := hfound
  have hlive := List.mem_of_find?_eq_some ha
  have hplain := h.rootPlain cs hch a hlive
  obtain ⟨ds, hds⟩ := h.chains _ (.sub .root hch hlive hplain hdir)
  have hdots := (h.dots _ cs a .root hch hlive hplain hdir ds hds).find h.geometry hds
  rwa [if_pos rfl] at hdots

theorem SpecVolume.root_ne_zero (h : SpecVolume l m) : l.bpb.rootCluster ≠ 0 := by
  obtain ⟨cs, hch⟩ := h.chains _ .root
  have hrange := hch.range _ hch.start_mem
  exact Nat.ne_zero_of_lt hrange.1

theorem resolveFrom_inj {path : List UInt8} {c d : ℕ} :
    resolveFrom l.ram c path m = resolveFrom l.ram d path m ↔
      enterAll l.ram c (followed slash path) m = enterAll l.ram d (followed slash path) m := by
  have hinj : Function.Injective fun r : Option ℕ × Mem =>
      ((r.1.map fun d => (⟨d, (final slash path).map to83⟩ : Resolved)), r.2) := by
    rintro ⟨r, m₁⟩ ⟨r', m₂⟩ heq
    obtain ⟨hr, hm⟩ := Prod.mk.inj heq
    exact Prod.ext (Option.map_injective (fun x y hxy => (Resolved.mk.inj hxy).1) hr) hm
  exact (Option.map_injective hinj).eq_iff

theorem fat32Resolve_slash {fs : Fs Mem} {path : List UInt8} (hlen : path.length ≤ 255) :
    fat32Resolve fs (slash :: path) m = resolveFrom fs fs.bpb.rootCluster path m := by
  have hstart : resolveStart (slash :: path) = path := rfl
  rw [fat32Resolve_eq, resolveByComponents, ← resolveFrom_start, hstart, if_neg (by omega)]

/-- The path through `..` and the path without it resolve alike exactly when a component of
the suffix is entered and the suffix leads from cluster 0 to where it leads from the root. -/
theorem up_to_root_iff (l : Layout) (m : Mem) (hvol : SpecVolume l m) (dir suffix : List UInt8)
    (hslash : slash ∉ dir) (hne : dir ≠ []) (found : Found)
    (hfound : fat32Find l.ram l.bpb.rootCluster (to83 dir) m = some (some found, m))
    (hdir : found.dirent.IsDir)
    (hlen : (dir ++ slash :: 46 :: 46 :: slash :: suffix).length ≤ 255) :
    fat32Resolve l.ram (slash :: (dir ++ slash :: 46 :: 46 :: slash :: suffix)) m =
        fat32Resolve l.ram (slash :: suffix) m ↔
      followed slash suffix ≠ [] ∧
        enterAll l.ram 0 (followed slash suffix) m =
          enterAll l.ram l.bpb.rootCluster (followed slash suffix) m := by
  have hsuffix : suffix.length ≤ 255 := by
    simp only [List.length_append, List.length_cons] at hlen
    omega
  have hroot : l.ram.bpb.rootCluster = l.bpb.rootCluster := rfl
  have hfirst : enterDir l.ram l.bpb.rootCluster dir m = some (some found.dirent.cluster, m) := by
    rw [enterDir, hfound]
    simp [Option.filter, hdir]
  have hdots : resolveFrom l.ram found.dirent.cluster ([46, 46] ++ slash :: suffix) m =
      resolveFrom l.ram 0 suffix m := by
    rw [resolveFrom_step (by decide) (by simp), hvol.up hfound hdir]
  rw [fat32Resolve_slash hlen, fat32Resolve_slash hsuffix, resolveFrom_step hslash hne,
    hroot, hfirst]
  dsimp only
  rw [show 46 :: 46 :: slash :: suffix = [46, 46] ++ slash :: suffix from rfl, hdots,
    resolveFrom_inj]
  refine ⟨fun heq => ⟨fun hnil => ?_, heq⟩, And.right⟩
  rw [hnil] at heq
  have hclusters : some 0 = some l.bpb.rootCluster := congrArg Prod.fst (Option.some_inj.mp heq)
  exact hvol.root_ne_zero (Option.some_inj.mp hclusters).symm

def upDisk : Mem :=
  let table :=
    store (store (tinyLayout.claim (tinyBoot tinyDisk) 0 3) 512 4 0x0FFFFFF8) 516 4 0x0FFFFFFF
  let root := putDirent table 1024 (newDirent (to83 [65]) attrDirectory 3)
  putDirent (putDirent root 1536 (newDirent (to83 [46]) attrDirectory 3))
    1568 (newDirent (to83 [46, 46]) attrDirectory 0)

theorem upDisk_checks : (⟨[(2, [2]), (3, [3])], [(2, [2]), (3, [3])]⟩ : Catalogue).Checks tinyLayout
    upDisk noFiles := by
  decide +kernel

theorem upDisk_spec : SpecVolume tinyLayout upDisk := by
  have hg := tinyLayout_geometry
  have hroot : Chain tinyLayout upDisk 2 [2] := by decide +kernel
  have hsub : Chain tinyLayout upDisk 3 [3] := by decide +kernel
  have hdots : DotEntries tinyLayout upDisk 3 2 [3] :=
    ⟨1536, 1568, _, rfl, by decide +kernel, by decide +kernel, by decide +kernel, by decide +kernel,
      by decide +kernel, by decide +kernel⟩
  have hlive : liveSlots upDisk (tinyLayout.dirSlots [2]) = [1024] := by decide +kernel
  have hnone : ∀ a ∈ liveSlots upDisk (tinyLayout.dirSlots [3]),
      (direntAt upDisk a).name ∈ dotNames := by
    decide +kernel
  refine ⟨hg, fun d hd => (upDisk_checks.wellFormed hg).dir_chain hd, ?_, ?_⟩
  · intro cs hch a ha
    obtain rfl := hch.unique hg hroot
    rw [hlive, List.mem_singleton] at ha
    rw [ha]
    decide +kernel
  · intro p cs a hp hch ha hname hdir ds hds
    have hdirs := upDisk_checks.dir_mem hg hp
    simp only [List.map_cons, List.map_nil, List.mem_cons, List.not_mem_nil, or_false] at hdirs
    rcases hdirs with rfl | rfl
    · obtain rfl := hch.unique hg hroot
      rw [hlive, List.mem_singleton] at ha
      have hcluster : (direntAt upDisk a).cluster = 3 := by
        rw [ha]
        decide +kernel
      rw [hcluster] at hds ⊢
      obtain rfl := hds.unique hg hsub
      exact hdots
    · obtain rfl := hch.unique hg hsub
      exact absurd (hnone a ha) hname

theorem upDisk_found :
    ∃ found, fat32Find tinyLayout.ram 2 (to83 [65]) upDisk = some (some found, upDisk) ∧
    found.dirent.IsDir := by
  have hroot : Chain tinyLayout upDisk 2 [2] := by decide +kernel
  rw [find_ram tinyLayout_geometry hroot]
  have hfind : (liveSlots upDisk (tinyLayout.dirSlots [2])).find? (nameIs upDisk (to83 [65])) =
      some 1024 := by
    decide +kernel
  rw [hfind]
  exact ⟨_, rfl, by decide +kernel⟩

theorem up_to_root_missing :
    fat32Resolve tinyLayout.ram [47, 65, 47, 46, 46, 47, 66, 47, 67] upDisk =
      fat32Resolve tinyLayout.ram [47, 66, 47, 67] upDisk := by
  obtain ⟨found, hfound, hdir⟩ := upDisk_found
  refine (up_to_root_iff tinyLayout upDisk upDisk_spec [65] [66, 47, 67] (by decide) (by simp) found
    hfound hdir (by decide)).mpr ⟨by decide, ?_⟩
  have hmissing : ∀ c, Path (tinyLayout.next upDisk) c [c] endOfChain → endOfChain ∉ [c] →
      (liveSlots upDisk (tinyLayout.dirSlots [c])).find? (nameIs upDisk (to83 [66])) = none →
      enterAll tinyLayout.ram c (followed slash [66, 47, 67]) upDisk = some (none, upDisk) := by
    intro c hpath hcs hnone
    have hentered : followed slash [66, 47, 67] = [[66]] := by decide
    rw [hentered, enterAll, enterDir,
      fat32Find_ram tinyLayout hpath hcs (path_length_lt hpath hcs), hnone]
    rfl
  rw [hmissing 0 (by decide +kernel) (by decide) (by decide +kernel)]
  exact (hmissing 2 (by decide +kernel) (by decide) (by decide +kernel)).symm

/-- The path `/A/../B` leads to cluster 0 and not to the root. -/
theorem up_to_root_lost : SpecVolume tinyLayout upDisk ∧
    (fat32Resolve tinyLayout.ram [47, 65, 47, 46, 46, 47, 66] upDisk).map (fun r => r.1) =
      some (some ⟨0, some (to83 [66])⟩) ∧
    (fat32Resolve tinyLayout.ram [47, 66] upDisk).map (fun r => r.1) =
      some (some ⟨2, some (to83 [66])⟩) :=
  ⟨upDisk_spec, by decide +kernel, by decide +kernel⟩

end XldKernel.Fat32
