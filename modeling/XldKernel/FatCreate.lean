import XldKernel.FatLookup

/-!
# FAT32: creating files and directories on a fault-free disk

`fat32_open` and `fat32_mkdir` claim a free cluster, prepare it and write an
entry into the parent. Up to the entry only the claimed cluster is touched
(`Scratched`); a call that fails leaves the table as it was.
-/

namespace XldKernel.Fat32
open ByteMemory BlockDevice LinkedPath

structure Scratched (l : Layout) (m m' : Mem) (c : ℕ) : Prop where
  free : l.entry m c = 0
  range : l.InVolume c
  entries : ∀ x < l.clusters, x ≠ c → l.entry m' x = l.entry m x
  frame : ∀ x, ¬ l.InTable x → ¬ l.InCluster c x → m' x = m x

variable {l : Layout} {m m₁ m' : Mem} {c d p a : ℕ} {cs : List ℕ} {e : Dirent} {files : Files}

theorem Scratched.lt_word (hg : l.Geometry) (h : Scratched l m m' c) : c < 2 ^ 32 := by
  have h1 := h.range.2
  have h2 := hg.table
  simp only [Layout.clusters, sectorSize] at *
  omega

theorem Scratched.notMem (h : Scratched l m m' c) (hch : Chain l m d cs) : c ∉ cs :=
  fun hc => hch.not_free hc h.free

theorem Scratched.chain (h : Scratched l m m' c) (hch : Chain l m d cs) : Chain l m' d cs := by
  apply hch.congr
  intro x hx
  exact h.entries x (hch.range x hx).2 fun hxc => h.notMem hch (hxc ▸ hx)

theorem Scratched.slots (hg : l.Geometry) (h : Scratched l m m' c) (hch : Chain l m d cs) {b i : ℕ}
    (hb : b ∈ l.dirSlots cs) (hi : i < dirEntrySize) : m' (b + i) = m (b + i) := by
  obtain ⟨x, hx, hin⟩ := slot_cluster hg hch hb hi
  refine h.frame _ (not_inTable_of_inCluster hg hin) ?_
  intro hin'
  exact h.notMem hch (inCluster_inj hg (hch.range x hx) h.range hin hin' ▸ hx)

theorem Scratched.sameTree (hg : l.Geometry) (hdirs : ∀ d, DirCluster l m d → ∃ cs, Chain l m d cs)
    (h : Scratched l m m' c) : SameTree l m m' := by
  intro d hd
  obtain ⟨cs, hch⟩ := hdirs d hd
  exact ⟨cs, hch, h.chain hch, fun b hb i hi => h.slots hg hch hb hi⟩

theorem scratched_claim (hg : l.Geometry) (hc : l.InVolume c) (hfree : l.entry m c = 0) :
    Scratched l m (l.claim m 0 c) c := by
  have hpos : 0 < l.clusters := by
    have h1 := hc.1
    have h2 := hc.2
    omega
  have hclaim : l.claim m 0 c = l.setEntry m c 0x0FFFFFFF := if_neg (by simp)
  refine ⟨hfree, hc, ?_, ?_⟩
  · intro x hx hne
    rw [hclaim, entry_setEntry_ne hg hc.2 hx hne]
  · intro x hx _
    exact claim_apart hg hc hpos hx

theorem entry_within (hg : l.Geometry) (hframe : ∀ x, ¬ l.InCluster c x → m' x = m₁ x)
    (hd : d < l.clusters) : l.entry m' d = l.entry m₁ d := by
  apply entry_congr hg hd
  intro x hx
  exact hframe x fun hin => not_inTable_of_inCluster hg hin hx

theorem Scratched.within (hg : l.Geometry) (h : Scratched l m m₁ c)
    (hframe : ∀ x, ¬ l.InCluster c x → m' x = m₁ x) : Scratched l m m' c := by
  refine ⟨h.free, h.range, ?_, ?_⟩
  · intro x hx hne
    rw [entry_within hg hframe hx, h.entries x hx hne]
  · intro x ht hin
    rw [hframe x hin, h.frame x ht hin]

theorem Scratched.setEntry (hg : l.Geometry) (h : Scratched l m m₁ c) (v : ℕ) :
    Scratched l m (l.setEntry m₁ c v) c := by
  refine ⟨h.free, h.range, ?_, ?_⟩
  · intro x hx hne
    rw [entry_setEntry_ne hg h.range.2 hx hne, h.entries x hx hne]
  · intro x ht hin
    rw [setEntry_apart hg h.range.2 ht, h.frame x ht hin]

theorem Scratched.rolledBack (hg : l.Geometry) (h : Scratched l m m₁ c) {x : ℕ}
    (hx : x < l.clusters) : l.entry (l.setEntry m₁ c fat32FreeCluster) x = l.entry m x := by
  by_cases hxc : x = c
  · subst hxc
    rw [entry_setEntry_self, h.free]
    rfl
  · exact (h.setEntry hg _).entries x hx hxc

theorem slots_apart {b i : ℕ} (hb : b % dirEntrySize = 0) (ha : a % dirEntrySize = 0) (hne : b ≠ a)
    (hi : i < dirEntrySize) : b + i < a ∨ a + dirEntrySize ≤ b + i := by
  simp only [dirEntrySize] at *
  omega

theorem entry_putDirent (hg : l.Geometry) (hch : Chain l m d cs) (ha : a ∈ l.dirSlots cs)
    (hname : e.name.length = 11) {x : ℕ} (hx : x < l.clusters) :
    l.entry (putDirent m' a e) x = l.entry m' x := by
  apply entry_congr hg hx
  intro y hy
  apply putDirent_apart _ _ _ hname
  by_contra hin
  obtain ⟨z, -, hz⟩ := slot_cluster hg hch ha (show y - a < dirEntrySize by omega)
  rw [Nat.add_sub_cancel' (by omega)] at hz
  exact not_inTable_of_inCluster hg hz hy

theorem BareDir.congr (hg : l.Geometry) (h : BareDir l m c) (hch : Chain l m c cs)
    (hch' : Chain l m' c cs)
    (hsame : ∀ b ∈ l.dirSlots cs, ∀ i < dirEntrySize, m' (b + i) = m (b + i)) :
    BareDir l m' c := by
  have hbyte : ∀ b ∈ l.dirSlots cs, m' b = m b := fun b hb => by
    simpa using hsame b hb 0 (by decide)
  refine ⟨?_, ?_⟩
  · intro ds b hds hb
    obtain rfl := hds.unique hg hch'
    rw [SameTree.live hsame] at hb
    rw [direntAt_congr (hsame b (mem_of_liveSlots hb))]
    exact h.dots ds b hch hb
  · intro ds pre b post hds hsplit h0 x hx
    obtain rfl := hds.unique hg hch'
    rw [hbyte b (by rw [hsplit]; simp)] at h0
    rw [hbyte x (by rw [hsplit]; simp [hx])]
    exact h.ends ds pre b post hch hsplit h0 x hx

theorem read_head (b : Mem) (a n : ℕ) : (read b a (n + 1)).head? = some (b a) := by
  simp [ByteMemory.read, List.range_succ_eq_map]

section NewEntry
variable {name : List UInt8} {attr : UInt8}

theorem new_live (b : Mem) (a c : ℕ) (hname : PlainName name)
    (hattr : attr = attrArchive ∨ attr = attrDirectory) :
    let b' := putDirent b a (newDirent name attr c)
    b' a ≠ 0 ∧ b' a ≠ 0xE5 ∧ b' (a + 11) ≠ attrLfn := by
  intro b'
  have hread := direntAt_new b a attr c hname.length
  have hbyte : b' a ∈ name.head? := by
    rw [Option.mem_def, ← read_head b' a 10]
    exact congrArg (fun e => e.name.head?) hread.symm ▸ rfl
  have hattr' : b' (a + 11) = attr := congrArg Dirent.attr hread
  obtain ⟨h0, h5⟩ := hname.head _ hbyte
  refine ⟨h0, h5, ?_⟩
  rw [hattr']
  rcases hattr with rfl | rfl <;> decide

theorem Scratched.fresh_slots (hg : l.Geometry) (h : Scratched l m m₁ c) (hnew : Chain l m₁ c [c])
    (hch : Chain l m p cs) (ha : a ∈ l.dirSlots cs) (hlen : e.name.length = 11) {b i : ℕ}
    (hb : b ∈ l.dirSlots [c]) (hi : i < dirEntrySize) :
    putDirent m₁ a e (b + i) = m₁ (b + i) := by
  refine putDirent_apart _ _ _ hlen (slots_apart (slot_aligned hb) (slot_aligned ha) ?_ hi)
  intro hba
  obtain ⟨x, hx, hin⟩ := slot_cluster hg hch ha (show 0 < dirEntrySize by decide)
  obtain ⟨y, hy, hin'⟩ := slot_cluster hg hnew hb (show 0 < dirEntrySize by decide)
  rw [List.mem_singleton] at hy
  rw [hba] at hin'
  exact h.notMem hch (hy ▸ inCluster_inj hg (hch.range x hx) (hy ▸ h.range) hin hin' ▸ hx)

/-- Writing an entry into a slot of a directory keeps the chains of all directories and
their other slots. -/
theorem Scratched.keeps (hg : l.Geometry) (hwf : WellFormed l m files) (h : Scratched l m m₁ c)
    (hch : Chain l m p cs) (ha : a ∈ l.dirSlots cs) (hlen : e.name.length = 11)
    (hd : DirCluster l m d) : ∃ ds, Chain l m d ds ∧ Chain l (putDirent m₁ a e) d ds ∧
      ∀ b ∈ l.dirSlots ds, b ≠ a → ∀ i < dirEntrySize, putDirent m₁ a e (b + i) = m (b + i) := by
  obtain ⟨ds, hds⟩ := hwf.dir_chain hd
  refine ⟨ds, hds, (h.chain hds).congr fun x hx => ?_, fun b hb hne i hi => ?_⟩
  · exact entry_putDirent hg hch ha hlen (hds.range x hx).2
  · rw [putDirent_apart _ _ _ hlen (slots_apart (slot_aligned hb) (slot_aligned ha) hne hi),
      h.slots hg hds hb hi]

theorem WellFormed.slot_elsewhere (hg : l.Geometry) (hwf : WellFormed l m files)
    (hp : DirCluster l m p) (hch : Chain l m p cs) (ha : a ∈ l.dirSlots cs) {ds : List ℕ}
    (hd : DirCluster l m d) (hne : d ≠ p) (hds : Chain l m d ds) : a ∉ l.dirSlots ds := by
  intro hain
  have hdis := hwf.linked.disjoint d p ds cs (hwf.head_of_dir hd) (hwf.head_of_dir hp) hne hds hch
  obtain ⟨x, hx, hin⟩ := slot_cluster hg hds hain (show 0 < dirEntrySize by decide)
  obtain ⟨y, hy, hin'⟩ := slot_cluster hg hch ha (show 0 < dirEntrySize by decide)
  have hxy := inCluster_inj hg (hds.range x hx) (hch.range y hy) hin hin'
  exact hdis hx (hxy ▸ hy)

theorem Scratched.inserted (hg : l.Geometry) (hwf : WellFormed l m files) (hends : EndsClean l m)
    (h : Scratched l m m₁ c) (hnew : Chain l m₁ c [c]) (hp : DirCluster l m p)
    (hch : Chain l m p cs) {pre post : List ℕ} (hsplit : l.dirSlots cs = pre ++ a :: post)
    (hpre : ∀ b ∈ pre, m₁ b ≠ 0 ∧ m₁ b ≠ 0xE5) (hfree : m₁ a = 0 ∨ m₁ a = 0xE5)
    (hname : PlainName name) (hattr : attr = attrArchive ∨ attr = attrDirectory)
    (hbare : attr = attrDirectory → BareDir l m₁ c) :
    Inserted l m (putDirent m₁ a (newDirent name attr c)) p a (newDirent name attr c) := by
  have hlen : (newDirent name attr c).name.length = 11 := hname.length
  have hcluster := newDirent_cluster name attr (h.lt_word hg)
  have ha : a ∈ l.dirSlots cs := by simp [hsplit]
  have hbyte : ∀ b ∈ l.dirSlots cs, m₁ b = m b := fun b hb => by
    simpa using h.slots hg hch hb (show 0 < dirEntrySize by decide)
  have hentry : ∀ x < l.clusters, l.entry (putDirent m₁ a (newDirent name attr c)) x =
      l.entry m₁ x := fun x hx => entry_putDirent hg hch ha hlen hx
  refine ⟨hp, fun d hd => h.keeps hg hwf hch ha hlen hd,
    fun d ds hd hne hds => hwf.slot_elsewhere hg hp hch ha hd hne hds, ?_, ?_,
      direntAt_new m₁ a attr c hname.length, new_live m₁ a c hname hattr,
    hname.notDot, ?_⟩
  · intro ds hds
    obtain rfl := hds.unique hg hch
    refine ⟨pre, post, hsplit, ?_, ?_⟩
    · intro b hb
      rw [← hbyte b (by simp [hsplit, hb])]
      exact hpre b hb
    · intro h0
      exact hends p ds pre a post hp hds hsplit h0
  · rwa [← hbyte a ha]
  · intro hdir
    have hattr' : attr = attrDirectory := by
      rcases hattr with rfl | rfl
      · exact absurd (show attrArchive &&& attrDirectory = 0 by decide) hdir
      · rfl
    rw [hcluster]
    refine (hbare hattr').congr hg hnew ?_ ?_
    · refine hnew.congr fun x hx => hentry x (hnew.range x hx).2
    · exact fun b hb i hi => h.fresh_slots hg hnew hch ha hlen hb hi

end NewEntry

theorem findFreeDirentSlot_ram (hg : l.Geometry) (hch : Chain l m p cs) :
    findFreeDirentSlot l.ram p m =
      some ((scan freeTest m (l.dirSlots cs)).result.map
        (fun a => (a / sectorSize, a % sectorSize / dirEntrySize)), m) := by
  rw [findFreeDirentSlot, walkDir_ram freeTest_local l hch.path (end_notMem hg hch.range)
    (show cs.length < chainFuel from hch.length_lt hg), Option.map_some]
  simp only [Option.map_map, Function.comp_def, hitAt]

theorem insertEntry_ram (hg : l.Geometry) (hch : Chain l m p cs) (hname : e.name.length = 11) :
    insertEntry l.ram p e c m = some (false, l.setEntry m c fat32FreeCluster) ∨
    ∃ pre a post, l.dirSlots cs = pre ++ a :: post ∧ (∀ b ∈ pre, m b ≠ 0 ∧ m b ≠ 0xE5) ∧
      (m a = 0 ∨ m a = 0xE5) ∧ insertEntry l.ram p e c m = some (true, putDirent m a e) := by
  rw [insertEntry, findFreeDirentSlot_ram hg hch]
  cases hscan : scan freeTest m (l.dirSlots cs) with
  | stop => exact Or.inl (by simp [Walk.result])
  | next => exact Or.inl (by simp [Walk.result])
  | hit a =>
    right
    obtain ⟨pre, post, hsplit, hhit, hpre⟩ := scan_hit hscan
    have ha : a ∈ l.dirSlots cs := by simp [hsplit]
    refine ⟨pre, a, post, hsplit, fun b hb => freeTest_skip (hpre b hb), freeTest_hit hhit, ?_⟩
    have hput := putSector_putDirent m (s := a / sectorSize)
      (i := a % sectorSize / dirEntrySize * dirEntrySize) hname
      (by simp only [sectorSize, dirEntrySize]; omega)
    rw [slot_split (slot_aligned ha)] at hput
    simp only [Walk.result, Option.map_some, Layout.ram_dev, ramDisk, hput]

theorem fill_putSector (m : Mem) (s n : ℕ) :
    fill (putSector m s fun _ => 0) (sectorSize * s + sectorSize) n 0 =
      fill m (sectorSize * s) (sectorSize + n) 0 := by
  funext x
  by_cases h1 : x < sectorSize * s + sectorSize
  · rw [fill_apart _ (Or.inl h1)]
    by_cases h2 : sectorSize * s ≤ x
    · rw [fill_inside m ⟨h2, by omega⟩]
      exact if_pos ⟨h2, h1⟩
    · rw [putSector_apart _ _ (by omega), fill_apart m (by omega)]
  · by_cases h3 : x < sectorSize * s + sectorSize + n
    · rw [fill_inside _ ⟨by omega, h3⟩, fill_inside m ⟨by omega, by omega⟩]
    · rw [fill_apart _ (by omega), putSector_apart _ _ (by omega), fill_apart m (by omega)]

theorem zeroSectors_ram (hg : l.Geometry) (hc : l.InVolume c) (n i : ℕ)
    (hn : i + n ≤ l.bpb.sectorsPerCluster) :
    zeroSectors l.ram (l.firstSector c) n i m =
      (true, fill m (l.clusterAddr c + sectorSize * i) (sectorSize * n) 0) := by
  induction n generalizing i m with
  | zero =>
    have hnone : fill m (l.clusterAddr c + sectorSize * i) (sectorSize * 0) 0 = m := by
      funext x
      exact fill_apart m (by omega)
    rw [hnone, zeroSectors]
  | succ n ih =>
    have haddr := sector_addr hg hc (show i < l.bpb.sectorsPerCluster by omega)
    have hsec : (l.firstSector c + i) % 2 ^ 32 = l.sectorOf c i := by rw [Layout.sectorOf]
    have hfill := fill_putSector m (l.sectorOf c i) (sectorSize * n)
    rw [haddr] at hfill
    have hwrite : l.ram.dev.write (l.sectorOf c i) (fun _ => 0) m =
        (true, putSector m (l.sectorOf c i) fun _ => 0) := rfl
    rw [zeroSectors, hsec, hwrite]
    dsimp only
    rw [ih (i + 1) (by omega), Nat.mul_add_one, ← Nat.add_assoc, hfill,
      Nat.mul_add_one, Nat.add_comm sectorSize]

def dirImage (l : Layout) (m : Mem) (parent c : ℕ) : Mem :=
  putDirent (putDirent (fill m (l.clusterAddr c) l.bytesPerCluster 0) (l.clusterAddr c)
    (newDirent dotName attrDirectory c)) (l.clusterAddr c + dirEntrySize)
    (newDirent dotdotName attrDirectory parent)

theorem initDirectory_ram (hg : l.Geometry) (hc : l.InVolume c) (parent : ℕ) :
    initDirectory l.ram parent c m = (true, dirImage l m parent c) := by
  have hzero := zeroSectors_ram (m := m) hg hc l.bpb.sectorsPerCluster 0 (by omega)
  have hbase : sectorSize * l.firstSector c = l.clusterAddr c := by
    rw [firstSector_eq hg hc, Layout.clusterAddr]
  simp only [Nat.mul_zero, Nat.add_zero, ← hg.bytes] at hzero
  have hdot : (newDirent dotName attrDirectory c).name.length = 11 := rfl
  have hdotdot : (newDirent dotdotName attrDirectory parent).name.length = 11 := rfl
  simp only [initDirectory, Layout.ram_toLayout, hzero, Layout.ram_dev, ramDisk]
  rw [← Nat.add_zero (sectorSize * l.firstSector c)] at hbase
  rw [← sector_putDirent, ← sector_putDirent, hbase, putSector_sector, dirImage]
  · rw [Nat.add_zero] at hbase
    rw [hbase]
  · intro x hx
    simp only [sectorSize, dirEntrySize] at *
    rw [putDirent_apart _ _ _ hdotdot (by simp only [dirEntrySize]; omega),
      putDirent_apart _ _ _ hdot (by simp only [dirEntrySize]; omega)]

theorem dirImage_apart (hg : l.Geometry) {x : ℕ} (hx : ¬ l.InCluster c x) (parent : ℕ) :
    dirImage l m parent c x = m x := by
  have hbytes := hg.bytes
  have hspc := hg.spc_pos
  have hdot : (newDirent dotName attrDirectory c).name.length = 11 := rfl
  have hdotdot : (newDirent dotdotName attrDirectory parent).name.length = 11 := rfl
  simp only [Layout.InCluster, sectorSize] at *
  rw [dirImage, putDirent_apart _ _ _ hdotdot (by simp only [dirEntrySize]; omega),
    putDirent_apart _ _ _ hdot (by simp only [dirEntrySize]; omega), fill_apart m (by omega)]

theorem dirImage_dot (parent : ℕ) :
    direntAt (dirImage l m parent c) (l.clusterAddr c) = newDirent dotName attrDirectory c := by
  have hdotdot : (newDirent dotdotName attrDirectory parent).name.length = 11 := rfl
  have hput : direntAt (putDirent (fill m (l.clusterAddr c) l.bytesPerCluster 0) (l.clusterAddr c)
      (newDirent dotName attrDirectory c)) (l.clusterAddr c) = newDirent dotName attrDirectory c :=
    direntAt_new _ _ attrDirectory c rfl
  rw [← hput]
  refine direntAt_congr fun i hi => ?_
  rw [dirImage, putDirent_apart _ _ _ hdotdot (by omega)]

theorem dirImage_dotdot (parent : ℕ) :
    direntAt (dirImage l m parent c) (l.clusterAddr c + dirEntrySize) =
      newDirent dotdotName attrDirectory parent :=
  direntAt_new _ _ attrDirectory parent rfl

theorem dirImage_zero (parent : ℕ) {x : ℕ} (hx : l.clusterAddr c + 2 * dirEntrySize ≤ x)
    (hin : l.InCluster c x) : dirImage l m parent c x = 0 := by
  have hdot : (newDirent dotName attrDirectory c).name.length = 11 := rfl
  have hdotdot : (newDirent dotdotName attrDirectory parent).name.length = 11 := rfl
  rw [dirImage, putDirent_apart _ _ _ hdotdot (by omega), putDirent_apart _ _ _ hdot (by omega)]
  exact fill_inside m hin

theorem dirImage_slot (parent k : ℕ) (hk : dirEntrySize * k + dirEntrySize ≤ l.bytesPerCluster) :
    (k < 2 ∧ (direntAt (dirImage l m parent c) (l.clusterAddr c + dirEntrySize * k)).name ∈
        [dotName, dotdotName] ∧
      dirImage l m parent c (l.clusterAddr c + dirEntrySize * k) ≠ 0) ∨
    (2 ≤ k ∧ dirImage l m parent c (l.clusterAddr c + dirEntrySize * k) = 0) := by
  have hbyte : ∀ x, (direntAt (dirImage l m parent c) x).name.head? =
      some (dirImage l m parent c x) := fun x => read_head _ x 10
  match k with
  | 0 =>
    have h := hbyte (l.clusterAddr c)
    rw [dirImage_dot] at h
    rw [Nat.mul_zero, Nat.add_zero, dirImage_dot, ← Option.some_inj.mp h]
    exact Or.inl ⟨by decide, List.mem_cons_self, by decide⟩
  | 1 =>
    have h := hbyte (l.clusterAddr c + dirEntrySize)
    rw [dirImage_dotdot] at h
    rw [Nat.mul_one, dirImage_dotdot, ← Option.some_inj.mp h]
    exact Or.inl ⟨by decide, List.mem_cons_of_mem _ List.mem_cons_self, by decide⟩
  | k + 2 =>
    right
    refine ⟨by omega, dirImage_zero parent ?_ ?_⟩
    · simp only [dirEntrySize]
      omega
    · simp only [Layout.InCluster, dirEntrySize] at *
      omega

theorem bareDir_dirImage (hg : l.Geometry) (hc : l.InVolume c) (parent : ℕ)
    (hch : Chain l (dirImage l m parent c) c [c]) : BareDir l (dirImage l m parent c) c := by
  have hslots : l.dirSlots [c] = l.clusterSlots c := by simp [Layout.dirSlots]
  refine ⟨?_, ?_⟩
  · intro cs b hcs hb
    obtain rfl := hcs.unique hg hch
    obtain ⟨h0, -, -⟩ := live_of_mem hb
    have hmem := mem_of_liveSlots hb
    rw [hslots] at hmem
    obtain ⟨k, rfl, hk⟩ := mem_clusterSlots hg hc hmem
    rcases dirImage_slot (m := m) parent k hk with ⟨-, hname, -⟩ | ⟨-, hzero⟩
    · exact List.mem_append_left [46 :: List.replicate 10 32, 46 :: 46 :: List.replicate 9 32] hname
    · exact absurd hzero h0
  · intro cs pre b post hcs hsplit h0 x hx
    obtain rfl := hcs.unique hg hch
    rw [hslots] at hsplit
    have hsorted := clusterSlots_sorted hg hc
    rw [hsplit] at hsorted
    have hlt : b < x := (List.pairwise_cons.mp (List.pairwise_append.mp hsorted).2.1).1 x hx
    obtain ⟨k, rfl, hk⟩ := mem_clusterSlots hg hc (a := b) (by simp [hsplit])
    obtain ⟨j, rfl, hj⟩ := mem_clusterSlots hg hc (a := x) (by simp [hsplit, hx])
    simp only [dirEntrySize] at hlt
    rcases dirImage_slot (m := m) (c := c) parent k hk with ⟨-, -, hnz⟩ | ⟨hk2, -⟩
    · exact absurd h0 hnz
    · rcases dirImage_slot (m := m) (c := c) parent j hj with ⟨hj2, -⟩ | ⟨-, hzero⟩
      · omega
      · exact hzero

def HasFree (l : Layout) (m : Mem) : Prop :=
  ∃ c, l.InVolume c ∧ c < scanEnd ∧ l.entry m c = 0

theorem HasFree.allocate (h : HasFree l m) (prev : ℕ) :
    ∃ c, l.InVolume c ∧ c < scanEnd ∧ l.entry m c = 0 ∧
      allocateCluster l.ram prev m = (c, l.claim m prev c) := by
  obtain ⟨f, hf, hend, hfree⟩ := h
  rcases allocateCluster_ram l prev m with ⟨-, hall⟩ | ⟨c, h2, hlt, h0, hmin, hres⟩
  · exact absurd hfree (hall f hf.1 hend)
  · refine ⟨c, ⟨h2, ?_⟩, hlt, h0, hres⟩
    by_contra hout
    exact hmin f hf.1 (Nat.lt_of_lt_of_le hf.2 (Nat.le_of_not_lt hout)) hfree

structure Reverted (l : Layout) (m m' : Mem) (c : ℕ) : Prop extends Scratched l m m' c where
  same : ∀ x < l.clusters, l.entry m' x = l.entry m x

/-- A call that succeeded: the tree gained the entry `e`, whose cluster was free. -/
structure Created (l : Layout) (m m' : Mem) (p a : ℕ) (e : Dirent) : Prop
    extends Inserted l m m' p a e where
  unused : l.entry m e.cluster = 0
  fresh : Chain l m' e.cluster [e.cluster]
  entries : ∀ x < l.clusters, x ≠ e.cluster → l.entry m' x = l.entry m x

theorem Scratched.created {name : List UInt8} {attr : UInt8} (hg : l.Geometry)
    (hwf : WellFormed l m files) (hends : EndsClean l m) (h : Scratched l m m₁ c)
    (hnew : Chain l m₁ c [c]) (hp : DirCluster l m p) (hch : Chain l m p cs) {pre post : List ℕ}
    (hsplit : l.dirSlots cs = pre ++ a :: post) (hpre : ∀ b ∈ pre, m₁ b ≠ 0 ∧ m₁ b ≠ 0xE5)
    (hfree : m₁ a = 0 ∨ m₁ a = 0xE5) (hname : PlainName name)
    (hattr : attr = attrArchive ∨ attr = attrDirectory)
    (hbare : attr = attrDirectory → BareDir l m₁ c) :
    Created l m (putDirent m₁ a (newDirent name attr c)) p a (newDirent name attr c) := by
  have hlen : (newDirent name attr c).name.length = 11 := hname.length
  have ha : a ∈ l.dirSlots cs := by simp [hsplit]
  have hentry : ∀ x < l.clusters, l.entry (putDirent m₁ a (newDirent name attr c)) x =
      l.entry m₁ x := fun x hx => entry_putDirent hg hch ha hlen hx
  have hcluster := newDirent_cluster name attr (h.lt_word hg)
  refine ⟨h.inserted hg hwf hends hnew hp hch hsplit hpre hfree hname hattr hbare, ?_, ?_, ?_⟩
  · rw [hcluster]
    exact h.free
  · rw [hcluster]
    exact hnew.congr fun x hx => hentry x (hnew.range x hx).2
  · rw [hcluster]
    intro x hx hne
    rw [hentry x hx, h.entries x hx hne]

section Calls
variable {name : List UInt8} {attr : UInt8} (hg : l.Geometry) (hwf : WellFormed l m files)
  (hends : EndsClean l m) (hp : DirCluster l m p) (hname : PlainName name)
include hg hwf hends hp hname

theorem insertNew_ram (h : Scratched l m m₁ c) (hnew : Chain l m₁ c [c])
    (hattr : attr = attrArchive ∨ attr = attrDirectory)
    (hbare : attr = attrDirectory → BareDir l m₁ c) :
    (∃ m', insertEntry l.ram p (newDirent name attr c) c m₁ = some (false, m') ∧
      Reverted l m m' c) ∨
    ∃ a m', insertEntry l.ram p (newDirent name attr c) c m₁ = some (true, m') ∧
      Created l m m' p a (newDirent name attr c) := by
  obtain ⟨cs, hch⟩ := hwf.dir_chain hp
  have hlen : (newDirent name attr c).name.length = 11 := hname.length
  rcases insertEntry_ram (c := c) hg (h.chain hch) hlen with
    hres | ⟨pre, a, post, hsplit, hpre, hfree, hres⟩
  · exact Or.inl ⟨_, hres, h.setEntry hg _, fun x hx => h.rolledBack hg hx⟩
  · exact Or.inr ⟨a, _, hres,
      h.created hg hwf hends hnew hp hch hsplit hpre hfree hname hattr hbare⟩

theorem createEntry_ram (hfree : HasFree l m) :
    (∃ c m', createEntry l.ram p name m = some (none, m') ∧ Reverted l m m' c) ∨
    ∃ c a m', createEntry l.ram p name m = some (some (newDirent name attrArchive c), m') ∧
      Created l m m' p a (newDirent name attrArchive c) := by
  obtain ⟨c, hc, -, hzero, hres⟩ := hfree.allocate 0
  have hne : c ≠ 0 := by
    have h1 := hc.1
    omega
  have hnodir : attrArchive = attrDirectory → BareDir l (l.claim m 0 c) c :=
    fun h => absurd h (by decide)
  simp only [createEntry, hres, if_neg hne]
  rcases insertNew_ram hg hwf hends hp hname (scratched_claim hg hc hzero) (Chain.fresh hg hc)
    (Or.inl rfl) hnodir with ⟨m', hins, hrev⟩ | ⟨a, m', hins, hcre⟩
  · exact Or.inl ⟨c, m', by rw [hins], hrev⟩
  · exact Or.inr ⟨c, a, m', by rw [hins], hcre⟩

theorem mkdirEntry_ram (hc : l.InVolume c) (hzero : l.entry m c = 0) :
    (∃ m', insertEntry l.ram p (newDirent name attrDirectory c) c
        (dirImage l (l.claim m 0 c) p c) = some (false, m') ∧ Reverted l m m' c) ∨
    ∃ a m', insertEntry l.ram p (newDirent name attrDirectory c) c
        (dirImage l (l.claim m 0 c) p c) = some (true, m') ∧
      Created l m m' p a (newDirent name attrDirectory c) := by
  have hframe : ∀ x, ¬ l.InCluster c x → dirImage l (l.claim m 0 c) p c x = l.claim m 0 c x :=
    fun x hx => dirImage_apart hg hx p
  have hnew : Chain l (dirImage l (l.claim m 0 c) p c) c [c] := by
    have hfresh := Chain.fresh (m := m) hg hc
    exact hfresh.congr fun x hx => entry_within hg hframe (hfresh.range x hx).2
  exact insertNew_ram hg hwf hends hp hname ((scratched_claim hg hc hzero).within hg hframe) hnew
    (Or.inr rfl) fun _ => bareDir_dirImage hg hc p hnew

end Calls

def Missing (l : Layout) (m : Mem) (path : List UInt8) (p : ℕ) (name : List UInt8) : Prop :=
  fat32Resolve l.ram path m = some (some ⟨p, some name⟩, m) ∧
    fat32Find l.ram p name m = some (none, m)

inductive Target (l : Layout) (m : Mem) (path : List UInt8) : Prop
  | unresolved (hres : fat32Resolve l.ram path m = some (none, m))
  | directory (p : ℕ) (hres : fat32Resolve l.ram path m = some (some ⟨p, none⟩, m))
  | missing (p : ℕ) (name : List UInt8) (h : Missing l m path p name) (hp : DirCluster l m p)
      (hname : PlainName name)
  | found (p : ℕ) (name : List UInt8) (a : ℕ)
      (hres : fat32Resolve l.ram path m = some (some ⟨p, some name⟩, m))
      (hfind : fat32Find l.ram p name m = some (some (foundAt m a), m)) (hlive : LiveEntry l m a)
      (hdir : (direntAt m a).IsDir → DirCluster l m (direntAt m a).cluster)

theorem target_of_plain (hg : l.Geometry) (hwf : WellFormed l m files) {path : List UInt8}
    (hplain : PlainPath path) : Target l m path := by
  obtain ⟨r, hres, hgood⟩ := fat32Resolve_ram hg (fun d hd => hwf.dir_chain hd) hplain
  match r with
  | none => exact .unresolved hres
  | some ⟨p, none⟩ => exact .directory p hres
  | some ⟨p, some name⟩ =>
    obtain ⟨hp, hname⟩ := hgood p name rfl
    obtain ⟨cs, hch⟩ := hwf.dir_chain hp
    have hfind := find_ram hg hch name
    cases hlook : (liveSlots m (l.dirSlots cs)).find? (nameIs m name) with
    | none =>
      rw [hlook] at hfind
      exact .missing p name ⟨hres, hfind⟩ hp hname
    | some a =>
      rw [hlook] at hfind
      obtain ⟨b, hb, hlive, -, hdir⟩ := find_live hg hp hch hname.notDot hfind
      rw [Option.map_some, hb] at hfind
      rw [hb] at hdir
      exact .found p name b hres hfind hlive hdir

inductive Made (l : Layout) (m : Mem) (path : List UInt8) : Bool → Mem → Prop
  | unchanged : Made l m path false m
  | reverted {m' : Mem} {c : ℕ} (h : Reverted l m m' c) : Made l m path false m'
  | created {m' : Mem} {p a c : ℕ} {name : List UInt8} (hmiss : Missing l m path p name)
      (hname : PlainName name) (h : Created l m m' p a (newDirent name attrDirectory c)) :
      Made l m path true m'

theorem fat32Mkdir_ram (hg : l.Geometry) (hwf : WellFormed l m files) (hends : EndsClean l m)
    {path : List UInt8} (hplain : PlainPath path)
    (hfree : ∀ p name, Missing l m path p name → HasFree l m) :
    ∃ ok m', fat32Mkdir l.ram path m = some (ok, m') ∧ Made l m path ok m' := by
  rw [fat32Mkdir]
  by_cases hvalid : l.ram.Valid
  swap
  · exact ⟨false, m, if_pos hvalid, .unchanged⟩
  rw [if_neg (not_not_intro hvalid)]
  cases target_of_plain hg hwf hplain with
  | unresolved hres => exact ⟨false, m, by rw [hres], .unchanged⟩
  | directory p hres => exact ⟨false, m, by rw [hres], .unchanged⟩
  | found p name a hres hfind => exact ⟨false, m, by simp only [hres, hfind], .unchanged⟩
  | missing p name h hp hname =>
    obtain ⟨c, hc, -, hzero, halloc⟩ := (hfree p name h).allocate 0
    have hne : c ≠ 0 := by
      have h1 := hc.1
      omega
    simp only [h.1, h.2, halloc, if_neg hne, initDirectory_ram hg hc]
    rcases mkdirEntry_ram hg hwf hends hp hname hc hzero with ⟨m', hins, hrev⟩ | ⟨a, m', hins, hcre⟩
    · exact ⟨false, m', hins, .reverted hrev⟩
    · exact ⟨true, m', hins, .created h hname hcre⟩

inductive Opened (l : Layout) (m : Mem) (path : List UInt8) : Option Dirent → Mem → Prop
  | unchanged : Opened l m path none m
  | reverted {m' : Mem} {c : ℕ} (h : Reverted l m m' c) : Opened l m path none m'
  | existing {p a : ℕ} {name : List UInt8}
      (hres : fat32Resolve l.ram path m = some (some ⟨p, some name⟩, m))
      (hfind : fat32Find l.ram p name m = some (some (foundAt m a), m)) (hlive : LiveEntry l m a)
      (hdir : (direntAt m a).IsDir → DirCluster l m (direntAt m a).cluster) :
      Opened l m path (some (direntAt m a)) m
  | created {m' : Mem} {p a c : ℕ} {name : List UInt8} (hmiss : Missing l m path p name)
      (hname : PlainName name) (h : Created l m m' p a (newDirent name attrArchive c)) :
      Opened l m path (some (newDirent name attrArchive c)) m'

def handOut (files : Files) (mode : UInt8) : Option Dirent → Option (Fin maxOpenFiles) × Files
  | none => (none, files)
  | some e => takeHandle files (openFile e mode)

theorem takeHandle_some {files files' : Files} {f : File} {i : Fin maxOpenFiles}
    (h : takeHandle files f = (some i, files')) : files' = Function.update files i f := by
  rw [takeHandle] at h
  split at h
  · simp at h
  · obtain ⟨hi, hfiles⟩ := Prod.mk.inj h
    rw [← hfiles, Option.some_inj.mp hi]

/-- What a call that returns has done, on any volume. -/
theorem fat32Open_cases {path : List UInt8} {mode : UInt8}
    {r : (Option (Fin maxOpenFiles) × Files) × Mem}
    (h : fat32Open l.ram path mode files m = some r) :
    r = ((none, files), m) ∨
    (∃ p name found, fat32Resolve l.ram path m = some (some ⟨p, some name⟩, m) ∧
      fat32Find l.ram p name m = some (some found, m) ∧
      r = (handOut files mode (some found.dirent), m)) ∨
    ∃ p name e m', (mode = charW ∨ mode = charA) ∧ Missing l m path p name ∧
      createEntry l.ram p name m = some (e, m') ∧ r = (handOut files mode e, m') := by
  rw [fat32Open] at h
  by_cases hvalid : l.ram.Valid
  swap
  · rw [if_pos hvalid] at h
    exact Or.inl (Option.some_inj.mp h).symm
  rw [if_neg (not_not_intro hvalid)] at h
  cases hres : fat32Resolve l.ram path m with
  | none => simp [hres] at h
  | some x =>
    obtain ⟨r₁, s⟩ := x
    obtain rfl : s = m := fat32Resolve_mem l hres
    rw [hres] at h
    match r₁ with
    | none => exact Or.inl (Option.some_inj.mp h).symm
    | some ⟨p, none⟩ => exact Or.inl (Option.some_inj.mp h).symm
    | some ⟨p, some name⟩ =>
      dsimp only at h
      cases hfind : fat32Find l.ram p name s with
      | none => simp [hfind] at h
      | some y =>
        obtain ⟨r₂, s₂⟩ := y
        obtain rfl : s₂ = s := fat32Find_mem l hfind
        rw [hfind] at h
        cases r₂ with
        | some found =>
          exact Or.inr (Or.inl ⟨p, name, found, rfl, hfind, (Option.some_inj.mp h).symm⟩)
        | none =>
          dsimp only at h
          by_cases hmode : mode ≠ charW ∧ mode ≠ charA
          · rw [if_pos hmode] at h
            exact Or.inl (Option.some_inj.mp h).symm
          · rw [if_neg hmode] at h
            have hor : mode = charW ∨ mode = charA := by tauto
            cases hcreate : createEntry l.ram p name s₂ with
            | none => simp [hcreate] at h
            | some z =>
              obtain ⟨e, m'⟩ := z
              rw [hcreate] at h
              refine Or.inr (Or.inr ⟨p, name, e, m', hor, ⟨hres, hfind⟩, hcreate, ?_⟩)
              cases e with
              | none => exact (Option.some_inj.mp h).symm
              | some e => exact (Option.some_inj.mp h).symm

theorem fat32Open_ram (hg : l.Geometry) (hwf : WellFormed l m files) (hends : EndsClean l m)
    {path : List UInt8} (hplain : PlainPath path) {mode : UInt8}
    (hfree : ∀ p name, Missing l m path p name → mode = charW ∨ mode = charA → HasFree l m) :
    ∃ e m', fat32Open l.ram path mode files m = some (handOut files mode e, m') ∧
      Opened l m path e m' := by
  rw [fat32Open]
  by_cases hvalid : l.ram.Valid
  swap
  · exact ⟨none, m, if_pos hvalid, .unchanged⟩
  rw [if_neg (not_not_intro hvalid)]
  cases target_of_plain hg hwf hplain with
  | unresolved hres => exact ⟨none, m, by rw [hres]; rfl, .unchanged⟩
  | directory p hres => exact ⟨none, m, by rw [hres]; rfl, .unchanged⟩
  | found p name a hres hfind hlive hdir =>
    exact ⟨_, m, by simp only [hres, hfind]; rfl, .existing hres hfind hlive hdir⟩
  | missing p name h hp hname =>
    simp only [h.1, h.2]
    by_cases hmode : mode ≠ charW ∧ mode ≠ charA
    · exact ⟨none, m, by rw [if_pos hmode]; rfl, .unchanged⟩
    · have hor : mode = charW ∨ mode = charA := by tauto
      rw [if_neg hmode]
      rcases createEntry_ram hg hwf hends hp hname (hfree p name h hor) with
        ⟨c, m', hcreate, hrev⟩ | ⟨c, a, m', hcreate, hcre⟩
      · exact ⟨none, m', by simp only [hcreate]; rfl, .reverted hrev⟩
      · exact ⟨_, m', by simp only [hcreate]; rfl, .created h hname hcre⟩

end XldKernel.Fat32
