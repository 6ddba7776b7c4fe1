import XldKernel.FatIntegrity

/-!
# FAT32: what a new file or directory does to lookups

After a successful `fat32_mkdir`, or a `fat32_open` that created a file, the new
name is found in its directory and no other lookup has changed.
-/

namespace XldKernel.Fat32
open ByteMemory BlockDevice

def finds (l : Layout) (m : Mem) (d : ℕ) (target : List UInt8) : Option (Option Found) :=
  (fat32Find l.ram d target m).map Prod.fst

structure NamespaceUpdated (l : Layout) (m m' : Mem) (p : ℕ) (name : List UInt8) (attr : UInt8)
    (e : Dirent) : Prop where
  new : ∃ found, finds l m' p name = some (some found) ∧ found.dirent = e
  type : e.attr = attr
  inVolume : l.InVolume e.cluster
  free : l.entry m e.cluster = 0
  marked : fat32EocMin ≤ l.entry m' e.cluster
  entries : ∀ x < l.clusters, x ≠ e.cluster → l.entry m' x = l.entry m x
  others : ∀ d target, DirCluster l m d → d ≠ p ∨ target ≠ name →
    finds l m' d target = finds l m d target

variable {l : Layout} {m m' : Mem} {p a d : ℕ} {e : Dirent} {cs : List ℕ} {files : Files}

theorem finds_eq (hg : l.Geometry) (hch : Chain l m d cs) (target : List UInt8) :
    finds l m d target =
      some (((liveSlots m (l.dirSlots cs)).find? (nameIs m target)).map (foundAt m)) := by
  rw [finds, find_ram hg hch, Option.map_some]

theorem Missing.finds {path name : List UInt8} (h : Missing l m path p name) :
    finds l m p name = some none := by
  rw [Fat32.finds, h.2, Option.map_some]

theorem find_map_congr {xs : List ℕ} {target : List UInt8}
    (h : ∀ b ∈ xs, direntAt m' b = direntAt m b) :
    (xs.find? (nameIs m' target)).map (foundAt m') = (xs.find? (nameIs m target)).map
      (foundAt m) := by
  have hsame : xs.find? (nameIs m' target) = xs.find? (nameIs m target) :=
    List.find?_congr fun b hb => by rw [nameIs, nameIs, h b hb]
  rw [hsame]
  cases hres : xs.find? (nameIs m target) with
  | none => rfl
  | some b => simp only [Option.map_some, foundAt, h b (List.mem_of_find?_eq_some hres)]

namespace Inserted
variable (hg : l.Geometry) (h : Inserted l m m' p a e)
include hg h

theorem finds_other {target : List UInt8} (hd : DirCluster l m d)
    (hne : d ≠ p ∨ target ≠ e.name) : finds l m' d target = finds l m d target := by
  obtain ⟨cs, hch, hch', -⟩ := h.keeps d hd
  rw [finds_eq hg hch, finds_eq hg hch']
  have hsame : ∀ b ∈ liveSlots m (l.dirSlots cs), direntAt m' b = direntAt m b :=
    fun b hb => h.dirent_eq hg hd hch hb
  by_cases hdp : d = p
  · subst hdp
    obtain ⟨F, G, hold, hnew⟩ := h.parent_live hg hch
    have hno : nameIs m' target a = false := by
      rw [nameIs, h.entry]
      exact decide_eq_false fun heq => hne.resolve_left (fun hh => hh rfl) heq.symm
    rw [hold] at hsame
    have hskip : (F ++ a :: G).find? (nameIs m' target) = (F ++ G).find? (nameIs m' target) := by
      simp only [List.find?_append, List.find?_cons, hno]
    rw [hnew, hold, hskip, find_map_congr hsame]
  · rw [h.other_live hg hd hdp hch, find_map_congr hsame]

theorem finds_new (hmissing : finds l m p e.name = some none) :
    finds l m' p e.name = some (some (foundAt m' a)) := by
  obtain ⟨cs, hch, hch', -⟩ := h.keeps p h.parent
  obtain ⟨F, G, hold, hnew⟩ := h.parent_live hg hch
  have hyes : nameIs m' e.name a = true := by
    rw [nameIs, h.entry]
    exact decide_eq_true rfl
  have hF : F.find? (nameIs m' e.name) = none := by
    rw [finds_eq hg hch, Option.some_inj, Option.map_eq_none_iff, List.find?_eq_none] at hmissing
    refine List.find?_eq_none.mpr fun b hb => ?_
    have hlive : b ∈ liveSlots m (l.dirSlots cs) := by simp [hold, hb]
    rw [nameIs, h.dirent_eq hg h.parent hch hlive]
    exact hmissing b hlive
  rw [finds_eq hg hch', hnew]
  simp only [List.find?_append, hF, List.find?_cons, hyes, Option.none_or, Option.map_some]

end Inserted

theorem Created.namespaceUpdated (hg : l.Geometry) (h : Created l m m' p a e)
    (hmissing : finds l m p e.name = some none) :
    NamespaceUpdated l m m' p e.name e.attr e where
  new := ⟨_, h.toInserted.finds_new hg hmissing, h.entry⟩
  type := rfl
  inVolume := h.fresh.start
  free := h.unused
  marked := Chain.eoc (show Chain l m' e.cluster ([] ++ [e.cluster]) from h.fresh)
  entries := h.entries
  others _ _ hd hne := h.toInserted.finds_other hg hd hne

theorem allocate_none (hfree : ∃ c, l.InVolume c ∧ l.entry m c = 0) (hno : ¬ HasFree l m) :
    allocateCluster l.ram 0 m = (0, m) := by
  rcases allocateCluster_ram l 0 m with ⟨hres, -⟩ | ⟨c, h2, hlt, h0, hmin, -⟩
  · exact hres
  · obtain ⟨f, hf, hfree⟩ := hfree
    refine absurd ⟨c, ⟨h2, ?_⟩, hlt, h0⟩ hno
    by_contra hout
    exact hmin f hf.1 (Nat.lt_of_lt_of_le hf.2 (Nat.le_of_not_lt hout)) hfree

theorem fat32Mkdir_full {path : List UInt8} (hnone : allocateCluster l.ram 0 m = (0, m))
    (ht : Target l m path) : fat32Mkdir l.ram path m = some (false, m) := by
  rw [fat32Mkdir]
  split_ifs
  · cases ht with
    | unresolved hres => rw [hres]
    | directory p hres => rw [hres]
    | found p name a hres hfind => simp only [hres, hfind]
    | missing p name h => simp only [h.1, h.2, hnone, if_true]
  · rfl

theorem fat32Open_full {path name : List UInt8} (hnone : allocateCluster l.ram 0 m = (0, m))
    (h : Missing l m path p name) (mode : UInt8) :
    fat32Open l.ram path mode files m = some ((none, files), m) := by
  rw [fat32Open]
  split_ifs
  · simp only [h.1, h.2]
  · simp only [h.1, h.2, createEntry, hnone, if_true]
  · rfl

theorem Target.missing_of_lookup {path : List UInt8} (ht : Target l m path)
    (hlook : lookup l m path = some none) : ∃ p name, Missing l m path p name := by
  cases ht with
  | unresolved hres => simp [lookup, hres] at hlook
  | directory p hres => simp [lookup, hres] at hlook
  | found p name a hres hfind => simp [lookup_found hres hfind] at hlook
  | missing p name h => exact ⟨p, name, h⟩

/-- Namespace update: `fat32_mkdir` and a creating `fat32_open` add the one name, with
a cluster of its own, and change no other lookup. -/
theorem namespace_update (l : Layout) (hg : l.Geometry) (m : Mem) (files : Files)
    (hwf : WellFormed l m files) (hends : EndsClean l m)
    (hfree : ∃ c, l.InVolume c ∧ l.entry m c = 0) (path : List UInt8) (hplain : PlainPath path) :
    (∀ m', fat32Mkdir l.ram path m = some (true, m') →
      ∃ p name e, fat32Resolve l.ram path m = some (some ⟨p, some name⟩, m) ∧
        NamespaceUpdated l m m' p name attrDirectory e) ∧
    (∀ i files' m', lookup l m path = some none →
      fat32Open l.ram path charW files m = some ((some i, files'), m') →
      ∃ p name e, fat32Resolve l.ram path m = some (some ⟨p, some name⟩, m) ∧
        NamespaceUpdated l m m' p name attrArchive e) := by
  have htarget := target_of_plain hg hwf hplain
  refine ⟨?_, ?_⟩
  · intro m' hcall
    by_cases hno : HasFree l m
    · obtain ⟨ok, m₁, hres, hmade⟩ := fat32Mkdir_ram hg hwf hends hplain fun _ _ _ => hno
      rw [hres, Option.some_inj, Prod.mk.injEq] at hcall
      obtain ⟨rfl, rfl⟩ := hcall
      cases hmade with
      | created hmiss hname hcre =>
        exact ⟨_, _, _, hmiss.1, hcre.namespaceUpdated hg hmiss.finds⟩
    · rw [fat32Mkdir_full (allocate_none hfree hno) htarget] at hcall
      simp at hcall
  · intro i files' m' hlook hcall
    obtain ⟨p, name, hmiss⟩ := htarget.missing_of_lookup hlook
    by_cases hno : HasFree l m
    · obtain ⟨r, m₁, hopen, hopened⟩ := fat32Open_ram hg hwf hends hplain fun _ _ _ _ => hno
      rw [hopen, Option.some_inj, Prod.mk.injEq] at hcall
      obtain ⟨hhand, rfl⟩ := hcall
      cases hopened with
      | unchanged => simp [handOut] at hhand
      | reverted => simp [handOut] at hhand
      | existing hres hfind => simp [lookup_found hres hfind] at hlook
      | created hmiss hname hcre =>
        exact ⟨_, _, _, hmiss.1, hcre.namespaceUpdated hg hmiss.finds⟩
    · rw [fat32Open_full (allocate_none hfree hno) hmiss] at hcall
      simp at hcall

theorem namespace_update_tiny :
    ∃ m', fat32Mkdir tinyLayout.ram [68] tinyDisk = some (true, m') ∧
      ∃ p name e, fat32Resolve tinyLayout.ram [68] tinyDisk = some (some ⟨p, some name⟩, tinyDisk) ∧
        NamespaceUpdated tinyLayout tinyDisk m' p name attrDirectory e := by
  have hcheck : (⟨[(2, [2])], [(2, [2])]⟩ : Catalogue).Checks tinyLayout tinyDisk noFiles := by
    decide +kernel
  have hok : (fat32Mkdir tinyLayout.ram [68] tinyDisk).map Prod.fst = some true := by decide +kernel
  obtain ⟨⟨ok, m'⟩, hres, rfl⟩ := Option.map_eq_some_iff.mp hok
  have hupd := namespace_update tinyLayout tinyLayout_geometry tinyDisk noFiles
    (hcheck.wellFormed tinyLayout_geometry) (hcheck.endsClean tinyLayout_geometry)
    ⟨3, by decide, by decide +kernel⟩ [68] (by decide +kernel)
  exact ⟨m', hres, hupd.1 m' hres⟩

end XldKernel.Fat32
