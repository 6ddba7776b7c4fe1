import XldKernel.FatNamespace
import XldKernel.FatWriteRuns

/-!
# FAT32: opening a file, writing to it and closing it

One session opens a path for writing, writes some buffers and closes the handle,
which changes nothing on the disk. The entry of the file is the slot where
`fat32_open` finds it or puts it. What the session allocates must be reachable from
the start cluster which that slot holds in the end.
-/

namespace XldKernel.Fat32
open ByteMemory BlockDevice LinkedPath

def fileSlot (l : Layout) (m : Mem) (p : ℕ) (name : List UInt8) : Option ℕ :=
  match fat32Find l.ram p name m with
  | some (some found, _) => some (sectorSize * found.sector + found.entry * dirEntrySize)
  | _ =>
    match findFreeDirentSlot l.ram p m with
    | some (some (sec, ent), _) => some (sectorSize * sec + ent * dirEntrySize)
    | _ => none

structure Session where
  handle : Option (Fin maxOpenFiles)
  mem : Mem
  files : Files
  trace : List (Event Mem)

def afterOpen (l : Layout) (bufs : List (List UInt8)) :
    (Option (Fin maxOpenFiles) × Files) × Mem → Session
  | ((none, files), m) => ⟨none, m, files, []⟩
  | ((some i, files), m) =>
    let r := writeAll l.ram (files i) m bufs
    ⟨some i, r.s, Function.update files i (fat32Close r.file), r.trace⟩

def session (l : Layout) (files : Files) (m : Mem) (path : List UInt8) (bufs : List (List UInt8)) :
    Option Session :=
  (fat32Open l.ram path charW files m).map (afterOpen l bufs)

/-- Every cluster that came into use lies on the chain that the slot records. -/
def NothingLost (l : Layout) (m m' : Mem) (slot : Option ℕ) : Prop :=
  ∀ c, l.InVolume c → l.entry m c = 0 → l.entry m' c ≠ 0 →
    ∃ a cs, slot = some a ∧ Chain l m' (direntAt m' a).cluster cs ∧ c ∈ cs

/-- The path leads to a reachable directory and there to a missing name, or to a file
that has no cluster or a chain that is no directory. -/
structure LeadsToFile (l : Layout) (m : Mem) (path : List UInt8) (p : ℕ) (name : List UInt8) :
    Prop where
  resolves : fat32Resolve l.ram path m = some (some ⟨p, some name⟩, m)
  parent : DirCluster l m p
  file : ∀ found, finds l m p name = some (some found) →
    name ∉ dotNames ∧ ¬ found.dirent.IsDir ∧ (found.dirent.cluster = 0 ∨
      2 ≤ found.dirent.cluster ∧ ¬ DirCluster l m found.dirent.cluster)

variable {l : Layout} {m m₁ m' : Mem} {files : Files} {p a : ℕ} {path name : List UInt8}
  {cs cs' ds : List ℕ} {e : Dirent} {bufs : List (List UInt8)}

theorem writeAll_nothing (hbufs : bufs.flatten = []) (f : File) (m : Mem) :
    (writeAll l.ram f m bufs).s = m := by
  induction bufs generalizing f m with
  | nil => rfl
  | cons buf bufs ih =>
    obtain ⟨hbuf, hrest⟩ := List.append_eq_nil_iff.mp (List.flatten_cons ▸ hbufs)
    rw [writeAll]
    dsimp only
    rw [ih hrest, hbuf, fat32Write_nil]

theorem nothingLost_of (hch : Chain l m' (direntAt m' a).cluster cs)
    (hsame : ∀ c, l.InVolume c → c ∉ cs → l.entry m' c = l.entry m c) :
    NothingLost l m m' (some a) := by
  intro c hc hfree hused
  refine ⟨a, cs, rfl, hch, ?_⟩
  by_contra hno
  exact hused ((hsame c hc hno).trans hfree)

theorem nothingLost_refl (slot : Option ℕ) : NothingLost l m m slot :=
  fun _ _ hfree hused => absurd hfree hused

section Writes
variable (hg : l.Geometry) (hready : Ready l m₁ (openFile e charW) cs 0)
  (hallocs : AllocsIn l (writeAll l.ram (openFile e charW) m₁ bufs).trace)
  (hdir : Chain l m₁ p ds) (hapart : ds.Disjoint cs) (ha : a ∈ l.dirSlots ds)
include hg hready hallocs hdir hapart ha

theorem writeAll_slot : ∃ cs',
    Wrote l m₁ (writeAll l.ram (openFile e charW) m₁ bufs).s cs cs' 0 bufs.flatten ∧
    FileChain l (writeAll l.ram (openFile e charW) m₁ bufs).s
      (writeAll l.ram (openFile e charW) m₁ bufs).file.firstCluster cs' ∧
    (e.cluster ≠ 0 → (writeAll l.ram (openFile e charW) m₁ bufs).file.firstCluster = e.cluster) ∧
    direntAt (writeAll l.ram (openFile e charW) m₁ bufs).s a = direntAt m₁ a := by
  have hmode : (openFile e charW).mode = .write := by simp [openFile]
  obtain ⟨-, cs', hready', hwrote, hkeep, -⟩ := writeAll_ram hg rfl hmode hready hallocs
  refine ⟨cs', hwrote, hready'.fileChain, hkeep, direntAt_congr fun k hk => ?_⟩
  obtain ⟨c, hc, hin⟩ := slot_cluster hg hdir ha hk
  exact hwrote.data_apart hg hready'.range hdir hapart hc hin

theorem nothingLost_of_chain (hstart : e.cluster ≠ 0) (hentry : (direntAt m₁ a).cluster = e.cluster)
    (hsame : ∀ c, l.InVolume c → c ∉ cs → l.entry m₁ c = l.entry m c) :
    NothingLost l m (writeAll l.ram (openFile e charW) m₁ bufs).s (some a) := by
  obtain ⟨cs', hwrote, hchain, hfirst, hslot⟩ := writeAll_slot hg hready hallocs hdir hapart ha
  rw [hfirst hstart] at hchain
  have hch : Chain l (writeAll l.ram (openFile e charW) m₁ bufs).s
      (direntAt (writeAll l.ram (openFile e charW) m₁ bufs).s a).cluster cs' := by
    rw [hslot, hentry]
    exact hchain.resolve_left fun h => hstart h.1
  refine nothingLost_of hch fun c hc hno => ?_
  rw [hwrote.entries c hc hno, hsame c hc fun hmem => hno (hwrote.ext.subset hmem)]

theorem lost_of_empty (hentry : (direntAt m₁ a).cluster = 0) (hnil : cs = [])
    (hdata : bufs.flatten ≠ []) :
    ¬ NothingLost l m₁ (writeAll l.ram (openFile e charW) m₁ bufs).s (some a) := by
  obtain ⟨cs', hwrote, hchain, -, hslot⟩ := writeAll_slot hg hready hallocs hdir hapart ha
  intro hnone
  have hpos : 0 < bufs.flatten.length := List.length_pos_iff.mpr hdata
  have hroom := hwrote.room
  have hne : cs' ≠ [] := by
    rintro rfl
    simp only [List.length_nil] at hroom
    omega
  obtain ⟨c, hc⟩ := List.exists_mem_of_ne_nil cs' hne
  have hch := hchain.resolve_left fun h => hne h.2
  obtain ⟨b, bs, hb, hrec, -⟩ := hnone c (hch.range c hc)
    (hwrote.fresh c hc (by simp [hnil])) (hch.not_free hc)
  obtain rfl := Option.some_inj.mp hb
  rw [hslot, hentry] at hrec
  exact absurd hrec.start.1 (by decide)

end Writes

theorem fileSlot_found (hfind : fat32Find l.ram p name m = some (some (foundAt m a), m))
    (ha : a ∈ l.dirSlots ds) : fileSlot l m p name = some a := by
  simp only [fileSlot, hfind, foundAt, slot_split (slot_aligned ha)]

theorem fileSlot_free (hg : l.Geometry) (hch : Chain l m p ds)
    (hfind : fat32Find l.ram p name m = some (none, m)) {pre post : List ℕ}
    (hsplit : l.dirSlots ds = pre ++ a :: post) (hpre : ∀ b ∈ pre, m b ≠ 0 ∧ m b ≠ 0xE5)
    (hfree : m a = 0 ∨ m a = 0xE5) : fileSlot l m p name = some a := by
  have hscan : scan freeTest m (l.dirSlots ds) = .hit a := by
    rw [hsplit, scan_of_skip fun b hb => by simp [freeTest, hpre b hb]]
    simp [scan, freeTest, hfree]
  have ha : a ∈ l.dirSlots ds := by simp [hsplit]
  simp only [fileSlot, hfind, findFreeDirentSlot_ram hg hch, hscan, Walk.result, Option.map_some,
    slot_split (slot_aligned ha)]

theorem createEntry_slot (hg : l.Geometry) (hch : Chain l m p ds) (hname : name.length = 11)
    (hfree : HasFree l m) (hfind : fat32Find l.ram p name m = some (none, m)) :
    createEntry l.ram p name m = some (none, m) ∨
    ∃ c a, l.InVolume c ∧ l.entry m c = 0 ∧ a ∈ l.dirSlots ds ∧ fileSlot l m p name = some a ∧
      createEntry l.ram p name m = some (some (newDirent name attrArchive c),
        putDirent (l.claim m 0 c) a (newDirent name attrArchive c)) := by
  obtain ⟨c, hc, -, hzero, halloc⟩ := hfree.allocate 0
  have hne : c ≠ 0 := by
    have h1 := hc.1
    omega
  have hpos : 0 < l.clusters := Nat.zero_lt_of_lt hc.2
  have hchain : Chain l (l.claim m 0 c) p ds := (scratched_claim hg hc hzero).chain hch
  simp only [createEntry, halloc, if_neg hne]
  rcases insertEntry_ram (c := c) (e := newDirent name attrArchive c) hg hchain hname with
    hins | ⟨pre, a, post, hsplit, hpre, hslot, hins⟩
  · left
    have hback : l.setEntry (l.claim m 0 c) c fat32FreeCluster = m := by
      rw [Layout.claim, if_neg (by simp), fat32FreeCluster, setEntry_free l m _ hzero]
    rw [hins, hback]
  · right
    have hbyte : ∀ b ∈ l.dirSlots ds, l.claim m 0 c b = m b := by
      intro b hb
      obtain ⟨x, -, hin⟩ := slot_cluster hg hch hb (show 0 < dirEntrySize by decide)
      exact claim_apart hg hc hpos (not_inTable_of_inCluster hg hin)
    have ha : a ∈ l.dirSlots ds := by simp [hsplit]
    rw [hbyte a ha] at hslot
    have hskip : ∀ b ∈ pre, m b ≠ 0 ∧ m b ≠ 0xE5 := fun b hb =>
      hbyte b (by simp [hsplit, hb]) ▸ hpre b hb
    exact ⟨c, a, hc, hzero, ha, fileSlot_free hg hch hfind hsplit hskip hslot, by rw [hins]⟩

section Cases
variable (hg : l.Geometry) (hwf : WellFormed l m files) (hp : DirCluster l m p)
  (hds : Chain l m p ds)
include hg hwf hp hds

theorem existing_keeps (ha : a ∈ l.dirSlots ds) (hlive : LiveEntry l m a)
    (hstart : (direntAt m a).cluster = 0 ∨
      2 ≤ (direntAt m a).cluster ∧ ¬ DirCluster l m (direntAt m a).cluster)
    (hallocs : AllocsIn l (writeAll l.ram (openFile (direntAt m a) charW) m bufs).trace) :
    NothingLost l m (writeAll l.ram (openFile (direntAt m a) charW) m bufs).s (some a) ↔
      (direntAt m a).cluster ≠ 0 ∨ bufs.flatten = [] := by
  by_cases hnil : bufs.flatten = []
  · rw [writeAll_nothing hnil]
    exact iff_of_true (nothingLost_refl _) (Or.inr hnil)
  rcases hstart with h0 | ⟨h2, hnodir⟩
  · refine iff_of_false ?_ (by simp [h0, hnil])
    exact lost_of_empty hg (.empty h0 h0) hallocs hds (List.disjoint_nil_right ds) ha h0 rfl hnil
  · have h0 : (direntAt m a).cluster ≠ 0 := by omega
    have hhead : Head l m files (direntAt m a).cluster := .entry hlive h2
    obtain ⟨cs, hch⟩ := hwf.linked.chain _ hhead
    have hne : p ≠ (direntAt m a).cluster := fun h => hnodir (h ▸ hp)
    have hapart := hwf.linked.disjoint _ _ ds cs (hwf.head_of_dir hp) hhead hne hds hch
    exact iff_of_true (nothingLost_of_chain hg (hch.ready hg charW) hallocs hds hapart ha h0 rfl
      fun _ _ _ => rfl) (Or.inl h0)

end Cases

structure NewFile (l : Layout) (m m₁ : Mem) (a c : ℕ) (e : Dirent) : Prop where
  chain : Chain l m₁ e.cluster [c]
  slot : direntAt m₁ a = e
  same : ∀ x, l.InVolume x → x ∉ [c] → l.entry m₁ x = l.entry m x
  others : ∀ d es, Chain l m d es → Chain l m₁ d es ∧ es.Disjoint [c]

theorem newFile_put {c : ℕ} (hg : l.Geometry) (hds : Chain l m p ds) (hc : l.InVolume c)
    (hfree : l.entry m c = 0) (ha : a ∈ l.dirSlots ds) (hname : name.length = 11) :
    NewFile l m (putDirent (l.claim m 0 c) a (newDirent name attrArchive c)) a c
      (newDirent name attrArchive c) := by
  have hscr := scratched_claim hg hc hfree
  have hentry : ∀ x < l.clusters,
      l.entry (putDirent (l.claim m 0 c) a (newDirent name attrArchive c)) x =
      l.entry (l.claim m 0 c) x := fun x hx => entry_putDirent hg (hscr.chain hds) ha hname hx
  have hc32 : c < 2 ^ 32 := by
    have h1 := hc.2
    have h2 := hg.table
    simp only [Layout.clusters, sectorSize] at *
    omega
  refine ⟨?_, direntAt_new _ a attrArchive c hname, ?_, ?_⟩
  · rw [newDirent_cluster name attrArchive hc32]
    exact (Chain.fresh hg hc).congr fun x hx => hentry x (List.mem_singleton.mp hx ▸ hc.2)
  · intro x hx hno
    rw [hentry x hx.2, hscr.entries x hx.2 (fun h => hno (by simp [h]))]
  · intro d es hes
    exact ⟨(hscr.chain hes).congr fun x hx => hentry x (hes.range x hx).2,
      List.disjoint_singleton.mpr (hscr.notMem hes)⟩

theorem NewFile.keeps {c : ℕ} (hg : l.Geometry) (hds : Chain l m p ds) (ha : a ∈ l.dirSlots ds)
    (h : NewFile l m m₁ a c e) :
    NothingLost l m m₁ (some a) ∧
    (AllocsIn l (writeAll l.ram (openFile e charW) m₁ bufs).trace →
      NothingLost l m (writeAll l.ram (openFile e charW) m₁ bufs).s (some a)) := by
  obtain ⟨hdir, hapart⟩ := h.others p ds hds
  exact ⟨nothingLost_of (by rw [h.slot]; exact h.chain) h.same,
    fun hallocs => nothingLost_of_chain hg (h.chain.ready hg charW) hallocs hdir hapart ha
      h.chain.start_ne_zero (by rw [h.slot]) h.same⟩

inductive OpenedFile (l : Layout) (m : Mem) (files : Files) (p : ℕ) (name : List UInt8) :
    (Option (Fin maxOpenFiles) × Files) × Mem → Prop
  | refused : OpenedFile l m files p name ((none, files), m)
  | existing {a : ℕ} {ds : List ℕ} (hds : Chain l m p ds) (ha : a ∈ l.dirSlots ds)
      (hlive : LiveEntry l m a) (hfinds : finds l m p name = some (some (foundAt m a)))
      (hslot : fileSlot l m p name = some a)
      (hstart : (direntAt m a).cluster = 0 ∨
        2 ≤ (direntAt m a).cluster ∧ ¬ DirCluster l m (direntAt m a).cluster) :
      OpenedFile l m files p name (takeHandle files (openFile (direntAt m a) charW), m)
  | created {a c : ℕ} {ds : List ℕ} (hds : Chain l m p ds) (hc : l.InVolume c)
      (hfree : l.entry m c = 0) (ha : a ∈ l.dirSlots ds) (hname : name.length = 11)
      (hfinds : finds l m p name = some none) (hslot : fileSlot l m p name = some a) :
      OpenedFile l m files p name (takeHandle files (openFile (newDirent name attrArchive c) charW),
        putDirent (l.claim m 0 c) a (newDirent name attrArchive c))

theorem LeadsToFile.open (hg : l.Geometry) (hwf : WellFormed l m files)
    (hpath : LeadsToFile l m path p name) (hroom : finds l m p name = some none → HasFree l m) :
    ∃ r, fat32Open l.ram path charW files m = some r ∧ OpenedFile l m files p name r := by
  obtain ⟨ds, hds⟩ := hwf.dir_chain hpath.parent
  have hfind := find_ram hg hds name
  by_cases hvalid : l.ram.Valid
  swap
  · exact ⟨_, by rw [fat32Open, if_pos hvalid], .refused⟩
  simp only [fat32Open, if_neg (not_not_intro hvalid), hpath.resolves]
  cases hlook : (liveSlots m (l.dirSlots ds)).find? (nameIs m name) with
  | some a =>
    rw [hlook, Option.map_some] at hfind
    have hfinds : finds l m p name = some (some (foundAt m a)) := by rw [finds, hfind]; rfl
    have hlive := List.mem_of_find?_eq_some hlook
    have ha := mem_of_liveSlots hlive
    obtain ⟨hdot, -, hstart⟩ := hpath.file _ hfinds
    have hthis : (direntAt m a).name = name := by
      simpa [nameIs] using List.find?_some hlook
    refine ⟨_, by rw [hfind]; rfl, .existing hds ha ?_ hfinds (fileSlot_found hfind ha) hstart⟩
    exact ⟨p, ds, hpath.parent, hds, hlive, by rwa [hthis]⟩
  | none =>
    rw [hlook, Option.map_none] at hfind
    have hfinds : finds l m p name = some none := by rw [finds, hfind]; rfl
    have hmode : ¬ (charW ≠ charW ∧ charW ≠ charA) := by decide
    have hname := fat32Resolve_name hpath.resolves
    simp only [hfind, if_neg hmode]
    rcases createEntry_slot hg hds hname (hroom hfinds) hfind with
      hcreate | ⟨c, a, hc, hfree, ha, hslot, hcreate⟩
    · exact ⟨_, by rw [hcreate], .refused⟩
    · exact ⟨_, by rw [hcreate], .created hds hc hfree ha hname hfinds hslot⟩

def SessionKeeps (l : Layout) (m : Mem) (slot : Option ℕ) (keeps : Prop) (s : Session) : Prop :=
  (s.handle = none → NothingLost l m s.mem slot) ∧
  (s.handle ≠ none → AllocsIn l s.trace → (NothingLost l m s.mem slot ↔ keeps))

theorem sessionKeeps_of {slot : Option ℕ} {keeps : Prop} (hnone : NothingLost l m m₁ slot)
    (hsome : AllocsIn l (writeAll l.ram (openFile e charW) m₁ bufs).trace →
      (NothingLost l m (writeAll l.ram (openFile e charW) m₁ bufs).s slot ↔ keeps)) :
    SessionKeeps l m slot keeps (afterOpen l bufs (takeHandle files (openFile e charW), m₁)) := by
  rcases htake : takeHandle files (openFile e charW) with ⟨_ | i, files'⟩
  · exact ⟨fun _ => hnone, fun h => absurd rfl h⟩
  · obtain rfl := takeHandle_some htake
    refine ⟨fun h => absurd h (by simp [afterOpen]), fun _ => ?_⟩
    simp only [afterOpen, Function.update_self]
    exact hsome

/-- No written cluster is lost, exactly when the file was missing, had a start cluster
or nothing is written. -/
theorem nothing_lost_iff (l : Layout) (hg : l.Geometry) (m : Mem) (files : Files)
    (hwf : WellFormed l m files) (path : List UInt8) (p : ℕ) (name : List UInt8)
    (hpath : LeadsToFile l m path p name) (hroom : finds l m p name = some none → HasFree l m)
    (bufs : List (List UInt8)) :
    ∃ s, session l files m path bufs = some s ∧
      SessionKeeps l m (fileSlot l m p name)
        ((∀ found, finds l m p name = some (some found) → found.dirent.cluster ≠ 0) ∨
          bufs.flatten = []) s := by
  obtain ⟨r, hopen, hopened⟩ := hpath.open hg hwf hroom
  refine ⟨afterOpen l bufs r, by rw [session, hopen, Option.map_some], ?_⟩
  cases hopened with
  | refused => exact ⟨fun _ => nothingLost_refl _, fun h => absurd rfl h⟩
  | existing hds ha hlive hfinds hslot hstart =>
    rw [hslot, hfinds]
    refine sessionKeeps_of (nothingLost_refl _) fun hallocs => ?_
    have hiff := existing_keeps hg hwf hpath.parent hds ha hlive hstart hallocs
    simpa [foundAt] using hiff
  | created hds hc hfree ha hname hfinds hslot =>
    obtain ⟨hopened, hwritten⟩ := NewFile.keeps hg hds ha (newFile_put hg hds hc hfree ha hname)
    rw [hslot]
    refine sessionKeeps_of hopened fun hallocs => iff_of_true (hwritten hallocs) (Or.inl ?_)
    intro found h
    simp [hfinds] at h

theorem Catalogue.Checks.leadsToFile {k : Catalogue} (hg : l.Geometry) (h : k.Checks l m files)
    {found : Found} (hres : (fat32Resolve l.ram path m).map Prod.fst =
      some (some ⟨l.bpb.rootCluster, some name⟩))
    (hfinds : finds l m l.bpb.rootCluster name = some (some found))
    (hfile : name ∉ dotNames ∧ ¬ found.dirent.IsDir ∧ (found.dirent.cluster = 0 ∨
      2 ≤ found.dirent.cluster ∧ found.dirent.cluster ∉ k.dirs.map Prod.fst)) :
    LeadsToFile l m path l.bpb.rootCluster name := by
  obtain ⟨⟨r, m'⟩, hmem, rfl⟩ := Option.map_eq_some_iff.mp hres
  obtain rfl : m' = m := fat32Resolve_mem l hmem
  refine ⟨hmem, .root, fun f hf => ?_⟩
  obtain rfl : found = f := by
    rw [hfinds] at hf
    exact Option.some_inj.mp (Option.some_inj.mp hf)
  refine ⟨hfile.1, hfile.2.1, hfile.2.2.imp_right fun hc =>
    ⟨hc.1, fun hd => hc.2 (h.dir_mem hg hd)⟩⟩

theorem nothing_lost_hello :
    ∃ s, session tinyLayout noFiles helloDisk [65] [List.replicate 512 1] = some s ∧
      NothingLost tinyLayout helloDisk s.mem (fileSlot tinyLayout helloDisk 2 (to83 [65])) := by
  have hcheck : (⟨[(2, [2])], [(2, [2]), (3, [3])]⟩ : Catalogue).Checks
      tinyLayout helloDisk noFiles := by
    decide +kernel
  have hfinds : finds tinyLayout helloDisk 2 (to83 [65]) = some (some ⟨helloEntry, 2, 0⟩) := by
    decide +kernel
  have hpath : LeadsToFile tinyLayout helloDisk [65] 2 (to83 [65]) :=
    hcheck.leadsToFile tinyLayout_geometry (by decide +kernel) hfinds (by decide)
  have hsession : (session tinyLayout noFiles helloDisk [65] [List.replicate 512 1]).map
      (fun s => (s.handle, allocs s.trace)) = some (some 0, [4]) := by decide +kernel
  obtain ⟨s, hs, hkeeps⟩ := nothing_lost_iff tinyLayout tinyLayout_geometry helloDisk noFiles
    (hcheck.wellFormed tinyLayout_geometry) [65] 2 (to83 [65]) hpath (by simp [hfinds])
    [List.replicate 512 1]
  rw [hs, Option.map_some, Option.some_inj, Prod.mk.injEq] at hsession
  refine ⟨s, hs, (hkeeps.2 (by simp [hsession.1]) ?_).mpr (Or.inl ?_)⟩
  · intro c hc
    have hmem := mem_allocs.mpr hc
    rw [hsession.2, List.mem_singleton] at hmem
    subst hmem
    decide
  · intro found hfound
    rw [hfinds, Option.some_inj, Option.some_inj] at hfound
    subst hfound
    decide

def emptyFileDisk : Mem := putDirent tinyDisk 1024 ⟨to83 [65], attrArchive, 0, 0, 0⟩

/-- The cluster that the first write gives to an empty file is marked in the table but
recorded nowhere. -/
theorem empty_file_loses_cluster :
    WellFormed tinyLayout emptyFileDisk noFiles ∧
    LeadsToFile tinyLayout emptyFileDisk [65] 2 (to83 [65]) ∧
    ∃ s, session tinyLayout noFiles emptyFileDisk [65] [[1]] = some s ∧
      AllocsIn tinyLayout s.trace ∧
      ¬ NothingLost tinyLayout emptyFileDisk s.mem
        (fileSlot tinyLayout emptyFileDisk 2 (to83 [65])) := by
  have hcheck : (⟨[(2, [2])], [(2, [2])]⟩ : Catalogue).Checks tinyLayout emptyFileDisk noFiles := by
    decide +kernel
  have hfinds : finds tinyLayout emptyFileDisk 2 (to83 [65]) =
      some (some ⟨⟨to83 [65], attrArchive, 0, 0, 0⟩, 2, 0⟩) := by decide +kernel
  have hslot : fileSlot tinyLayout emptyFileDisk 2 (to83 [65]) = some 1024 := by decide +kernel
  have hsession : (session tinyLayout noFiles emptyFileDisk [65] [[1]]).map
      (fun s => (allocs s.trace, tinyLayout.entry s.mem 3, (direntAt s.mem 1024).cluster)) =
        some ([3], 0x0FFFFFFF, 0) := by decide +kernel
  refine ⟨hcheck.wellFormed tinyLayout_geometry,
    hcheck.leadsToFile tinyLayout_geometry (by decide +kernel) hfinds (by decide), ?_⟩
  obtain ⟨s, hs, hsees⟩ := Option.map_eq_some_iff.mp hsession
  simp only [Prod.mk.injEq] at hsees
  obtain ⟨hallocs, hused, hrec⟩ := hsees
  refine ⟨s, hs, ?_, ?_⟩
  · intro c hc
    have hmem := mem_allocs.mpr hc
    rw [hallocs, List.mem_singleton] at hmem
    subst hmem
    decide
  · intro hnone
    obtain ⟨a, cs, ha, hch, -⟩ := hnone 3 (by decide) (by decide +kernel) (by rw [hused]; decide)
    rw [hslot] at ha
    obtain rfl := Option.some_inj.mp ha
    rw [hrec] at hch
    exact absurd hch.start.1 (by decide)

end XldKernel.Fat32
