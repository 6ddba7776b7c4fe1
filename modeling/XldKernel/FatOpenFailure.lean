import XldKernel.FatCreate
import XldKernel.FatCheck

/-!
# FAT32: an open that fails

`fat32_open` creates a missing file before it looks for a free handle. When it fails
earlier it has written nothing, or has freed the cluster it claimed, which restores the
table bit for bit. When no handle is left the new file stays.
-/

namespace XldKernel.Fat32
open ByteMemory BlockDevice

variable {l : Layout} {m m' : Mem} {files : Files} {p : ℕ} {name path : List UInt8} {mode : UInt8}

structure FirstFree (l : Layout) (m : Mem) (c : ℕ) : Prop where
  two_le : 2 ≤ c
  lt_end : c < scanEnd
  free : l.entry m c = 0
  least : ∀ b, 2 ≤ b → b < c → l.entry m b ≠ 0

/-- Creating the file leaves the disk `m'`: the path leads to a missing file, a cluster
is free, and so is a slot of the directory. -/
def Creates (l : Layout) (m : Mem) (path : List UInt8) (m' : Mem) : Prop :=
  l.Valid ∧ ∃ p name c sec ent, Missing l m path p name ∧ FirstFree l m c ∧
    findFreeDirentSlot l.ram p (l.claim m 0 c) = some (some (sec, ent), l.claim m 0 c) ∧
    m' = putSector (l.claim m 0 c) sec (putDirent (sector (l.claim m 0 c) sec)
      (ent * dirEntrySize) (newDirent name attrArchive c))

def FailsClean (l : Layout) (m : Mem) (path : List UInt8) (mode : UInt8) (files : Files) : Prop :=
  ∀ files' m', fat32Open l.ram path mode files m = some ((none, files'), m') →
    m' = m ∧ files' = files

theorem findFreeDirentSlot_mem {r : Option (ℕ × ℕ) × Mem}
    (h : findFreeDirentSlot l.ram p m = some r) : r.2 = m := by
  obtain ⟨x, hx, rfl⟩ := Option.map_eq_some_iff.mp h
  exact walkDir_mem l _ hx

theorem findFreeDirentSlot_free {sec ent : ℕ}
    (h : findFreeDirentSlot l.ram p m = some (some (sec, ent), m')) :
    ent < dirEntriesPerSec ∧
      (sector m sec (ent * dirEntrySize) = 0 ∨ sector m sec (ent * dirEntrySize) = 0xE5) := by
  obtain ⟨⟨x, s⟩, hx, heq⟩ := Option.map_eq_some_iff.mp h
  obtain ⟨hmap, -⟩ := Prod.mk.inj heq
  obtain ⟨hit, rfl, hpair⟩ := Option.map_eq_some_iff.mp hmap
  obtain ⟨rfl, rfl⟩ := Prod.mk.inj hpair
  obtain rfl : s = m := walkDir_mem l _ hx
  have hpass := walkDir_hit l hx
  exact ⟨hpass.entry, freeTest_hit hpass.verdict⟩

theorem insertEntry_failed {e : Dirent} {c : ℕ} {m' : Mem}
    (hslot : findFreeDirentSlot l.ram p m = some (none, m')) :
    insertEntry l.ram p e c m = some (false, l.setEntry m' c 0) := by
  rw [insertEntry, hslot]
  simp [fat32FreeCluster]

theorem insertEntry_done {e : Dirent} {c sec ent : ℕ} {m' : Mem}
    (hslot : findFreeDirentSlot l.ram p m = some (some (sec, ent), m')) :
    insertEntry l.ram p e c m = some (true,
      putSector m' sec (putDirent (sector m' sec) (ent * dirEntrySize) e)) := by
  rw [insertEntry, hslot]
  rfl

theorem FirstFree.unique {c d : ℕ} (hc : FirstFree l m c) (hd : FirstFree l m d) : c = d := by
  by_contra hne
  rcases lt_or_gt_of_ne hne with hlt | hlt
  · exact hd.least c hc.two_le hlt hc.free
  · exact hc.least d hd.two_le hlt hd.free

theorem allocate_cases (l : Layout) (m : Mem) :
    allocateCluster l.ram 0 m = (0, m) ∧ (∀ c, ¬ FirstFree l m c) ∨
      ∃ c, FirstFree l m c ∧ allocateCluster l.ram 0 m = (c, l.claim m 0 c) := by
  rcases allocateCluster_ram l 0 m with ⟨hres, hall⟩ | ⟨c, h2, hlt, hfree, hmin, hres⟩
  · exact Or.inl ⟨hres, fun c hc => hall c hc.two_le hc.lt_end hc.free⟩
  · exact Or.inr ⟨c, ⟨h2, hlt, hfree, hmin⟩, hres⟩

theorem createEntry_cases {r : Option Dirent × Mem} (h : createEntry l.ram p name m = some r) :
    r = (none, m) ∨ ∃ c sec ent, FirstFree l m c ∧
      findFreeDirentSlot l.ram p (l.claim m 0 c) = some (some (sec, ent), l.claim m 0 c) ∧
      r = (some (newDirent name attrArchive c), putSector (l.claim m 0 c) sec
        (putDirent (sector (l.claim m 0 c) sec) (ent * dirEntrySize)
          (newDirent name attrArchive c))) := by
  rw [createEntry] at h
  rcases allocate_cases l m with ⟨hres, -⟩ | ⟨c, hc, hres⟩
  · rw [hres] at h
    exact Or.inl (Option.some_inj.mp h).symm
  have hne : c ≠ 0 := by
    have := hc.two_le
    omega
  rw [hres] at h
  dsimp only at h
  rw [if_neg hne] at h
  cases hslot : findFreeDirentSlot l.ram p (l.claim m 0 c) with
  | none => simp [insertEntry, hslot] at h
  | some x =>
    obtain ⟨slot, m₁⟩ := x
    obtain rfl : m₁ = l.claim m 0 c := findFreeDirentSlot_mem hslot
    cases slot with
    | none =>
      rw [insertEntry_failed hslot] at h
      have hclaim : l.setEntry (l.claim m 0 c) c 0 = m := setEntry_free l m _ hc.free
      rw [hclaim] at h
      exact Or.inl (Option.some_inj.mp h).symm
    | some slot =>
      rw [insertEntry_done hslot] at h
      exact Or.inr ⟨c, slot.1, slot.2, hc, hslot, (Option.some_inj.mp h).symm⟩

theorem Creates.createEntry (h : Creates l m path m') : l.Valid ∧ ∃ p name e,
    Missing l m path p name ∧ createEntry l.ram p name m = some (some e, m') := by
  obtain ⟨hvalid, p, name, c, sec, ent, hmissing, hc, hslot, rfl⟩ := h
  have hne : c ≠ 0 := by
    have := hc.two_le
    omega
  have hres : allocateCluster l.ram 0 m = (c, l.claim m 0 c) := by
    rcases allocate_cases l m with ⟨-, hno⟩ | ⟨d, hd, hres⟩
    · exact absurd hc (hno c)
    · rwa [← hc.unique hd] at hres
  refine ⟨hvalid, p, name, newDirent name attrArchive c, hmissing, ?_⟩
  rw [Fat32.createEntry, hres]
  dsimp only
  rw [if_neg hne, insertEntry_done hslot]

theorem claim_free {c a : ℕ} (ha : a % 4 = 0)
    (hfree : l.claim m 0 c a = 0 ∨ l.claim m 0 c a = 0xE5) : l.claim m 0 c a = m a := by
  have hclaim : l.claim m 0 c = l.setEntry m c 0x0FFFFFFF := rfl
  have haddr : l.fatAddr c % 4 = 0 := by
    simp only [Layout.fatAddr, sectorSize]
    omega
  rw [hclaim, Layout.setEntry] at hfree ⊢
  generalize load m (l.fatAddr c) 4 = old at hfree ⊢
  by_cases hin : a = l.fatAddr c
  · exfalso
    have hbyte : store m (l.fatAddr c) 4 (mergeEntry 0x0FFFFFFF old) a = 255 := by
      rw [hin, store, if_pos (by omega), Nat.sub_self, pow_zero, Nat.div_one]
      apply UInt8.toNat_inj.mp
      rw [UInt8.toNat_ofNat']
      simp only [mergeEntry, UInt8.reduceToNat]
      omega
    rw [hbyte] at hfree
    exact absurd hfree (by decide)
  · exact store_apart m (by omega)

theorem Creates.ne (hpath : Printable path) (h : Creates l m path m') : m' ≠ m := by
  obtain ⟨-, p, name, c, sec, ent, hmissing, -, hslot, rfl⟩ := h
  obtain ⟨comp, hne, hcomp, rfl⟩ := fat32Resolve_to83 hmissing.1
  have hhead := to83_head (fun x hx => hpath x (hcomp hx)) hne
  obtain ⟨hent, hfree⟩ := findFreeDirentSlot_free hslot
  have hold : l.claim m 0 c (sectorSize * sec + ent * dirEntrySize) =
      m (sectorSize * sec + ent * dirEntrySize) :=
    claim_free (by simp only [sectorSize, dirEntrySize]; omega) hfree
  -- the slot's first byte is a mark before and the first character of the name after
  have hname := congrArg Dirent.name (direntAt_new (sector (l.claim m 0 c) sec) (ent * dirEntrySize)
    attrArchive c (to83_length comp))
  have hfirst := (read_head _ (ent * dirEntrySize) 10).symm.trans (congrArg List.head? hname)
  obtain ⟨h0, h5⟩ := hhead _ hfirst.symm
  intro heq
  have hbyte := congrFun heq (sectorSize * sec + ent * dirEntrySize)
  rw [← hold, putSector,
    if_pos (by simp only [sectorSize, dirEntrySize, dirEntriesPerSec] at *; omega),
    Nat.add_sub_cancel_left] at hbyte
  rw [hbyte] at h0 h5
  exact hfree.elim h0 h5

theorem takeHandle_none {files' : Files} {f : File} (h : takeHandle files f = (none, files')) :
    files' = files ∧ ∀ i, (files i).used = true := by
  rw [takeHandle] at h
  split at h
  · next hnone =>
    refine ⟨(Prod.mk.inj h).2.symm, fun i => ?_⟩
    simpa using List.find?_eq_none.mp hnone i (List.mem_finRange i)
  · simp at h

theorem takeHandle_unused {files' : Files} {f : File} {i : Fin maxOpenFiles}
    (h : takeHandle files f = (some i, files')) : (files i).used = false := by
  rw [takeHandle] at h
  split at h
  · simp at h
  · next j hj =>
    obtain rfl : j = i := Option.some_inj.mp (Prod.mk.inj h).1
    simpa using List.find?_some hj

theorem fat32Open_handles {σ : Type} {fs : Fs σ} {s s' : σ} {x : Option (Fin maxOpenFiles) × Files}
    (h : fat32Open fs path mode files s = some (x, s')) :
    x = (none, files) ∨ ∃ e, x = takeHandle files (openFile e mode) := by
  rw [fat32Open] at h
  split at h
  · exact Or.inl (Prod.mk.inj (Option.some_inj.mp h)).1.symm
  split at h
  · cases h
  · exact Or.inl (Prod.mk.inj (Option.some_inj.mp h)).1.symm
  · exact Or.inl (Prod.mk.inj (Option.some_inj.mp h)).1.symm
  split at h
  · cases h
  · exact Or.inr ⟨_, (Prod.mk.inj (Option.some_inj.mp h)).1.symm⟩
  split at h
  · exact Or.inl (Prod.mk.inj (Option.some_inj.mp h)).1.symm
  split at h
  · cases h
  · exact Or.inl (Prod.mk.inj (Option.some_inj.mp h)).1.symm
  · exact Or.inr ⟨_, (Prod.mk.inj (Option.some_inj.mp h)).1.symm⟩

theorem fat32Open_null {σ : Type} {fs : Fs σ} {s s' : σ} {files' : Files}
    (h : fat32Open fs path mode files s = some ((none, files'), s')) : files' = files := by
  rcases fat32Open_handles h with hx | ⟨e, hx⟩
  · exact (Prod.mk.inj hx).2
  · exact (takeHandle_none hx.symm).1

theorem takeHandle_full (f : File) (hfull : ∀ i, (files i).used = true) :
    takeHandle files f = (none, files) := by
  have hnone : (List.finRange maxOpenFiles).find? (fun i => !(files i).used) = none :=
    List.find?_eq_none.mpr fun i _ => by simp [hfull i]
  rw [takeHandle, hnone]

theorem Creates.open (files : Files) (hmode : mode = charW ∨ mode = charA)
    (h : Creates l m path m') :
    ∃ e, fat32Open l.ram path mode files m = some (takeHandle files (openFile e mode), m') := by
  obtain ⟨hvalid, p, name, e, ⟨hres, hfind⟩, hcreate⟩ := h.createEntry
  have hwrite : ¬ (mode ≠ charW ∧ mode ≠ charA) := by tauto
  refine ⟨e, ?_⟩
  rw [fat32Open, Layout.ram_toLayout, if_neg (not_not_intro hvalid), hres]
  dsimp only
  rw [hfind]
  dsimp only
  rw [if_neg hwrite, hcreate]

theorem fat32Open_disk {x : Option (Fin maxOpenFiles) × Files}
    (h : fat32Open l.ram path mode files m = some (x, m')) :
    m' = m ∨ (mode = charW ∨ mode = charA) ∧ Creates l m path m' := by
  by_cases hvalid : l.Valid
  swap
  · rw [fat32Open, Layout.ram_toLayout, if_pos hvalid, Option.some_inj] at h
    exact Or.inl (Prod.mk.inj h).2.symm
  rcases fat32Open_cases h with hr | ⟨p, name, found, -, -, hr⟩ |
    ⟨p, name, e, m₁, hmode, hmissing, hcreate, hr⟩
  · exact Or.inl (Prod.mk.inj hr).2
  · exact Or.inl (Prod.mk.inj hr).2
  · obtain ⟨-, rfl⟩ := Prod.mk.inj hr
    rcases createEntry_cases hcreate with he | ⟨c, sec, ent, hc, hslot, he⟩
    · exact Or.inl (Prod.mk.inj he).2
    · exact Or.inr ⟨hmode, hvalid, p, name, c, sec, ent, hmissing, hc, hslot, (Prod.mk.inj he).2⟩

/-- A failed open leaves everything as it was just if a handle is free or nothing (that
changes the disk) would be created. -/
theorem failed_open_clean_iff (l : Layout) (m : Mem) (path : List UInt8) (mode : UInt8)
    (files : Files) :
    FailsClean l m path mode files ↔ (∃ i, (files i).used = false) ∨
      ((mode = charW ∨ mode = charA) → ∀ m', Creates l m path m' → m' = m) := by
  constructor
  · intro h
    by_cases hfree : ∃ i, (files i).used = false
    · exact Or.inl hfree
    · have hfull : ∀ i, (files i).used = true := fun i => by
        by_contra hno
        exact hfree ⟨i, by simpa using hno⟩
      refine Or.inr fun hmode m' hcreate => ?_
      obtain ⟨e, hopen⟩ := hcreate.open files hmode
      rw [takeHandle_full _ hfull] at hopen
      exact (h files m' hopen).1
  · intro hcond files' m' hopen
    refine ⟨?_, fat32Open_null hopen⟩
    rcases fat32Open_disk hopen with heq | ⟨hmode, hcreate⟩
    · exact heq
    · obtain ⟨e, hres⟩ := hcreate.open files hmode
      have htake := (Prod.mk.inj (Option.some_inj.mp (hres.symm.trans hopen))).1
      have hfull := (takeHandle_none htake).2
      have hnone : ¬ ∃ i, (files i).used = false := fun ⟨i, hi⟩ => by simp [hfull i] at hi
      exact hcond.resolve_left hnone hmode m' hcreate

def allUsed : Files := fun _ => openFile (newDirent (to83 [66]) attrArchive 0) charW

/-- The file is created and stays when no handle is left for it. -/
theorem created_without_handle :
    ∃ m', fat32Open tinyLayout.ram [65] charW allUsed tinyDisk = some ((none, allUsed), m') ∧
      tinyLayout.entry tinyDisk 3 = 0 ∧ tinyLayout.entry m' 3 = 0x0FFFFFFF ∧
      direntAt m' 1024 = newDirent (to83 [65]) attrArchive 3 ∧ ¬ m' = tinyDisk := by
  have hopen : (fat32Open tinyLayout.ram [65] charW allUsed tinyDisk).map
      (fun r => (r.1.1, tinyLayout.entry r.2 3, direntAt r.2 1024)) =
        some (none, 0x0FFFFFFF, newDirent (to83 [65]) attrArchive 3) := by decide +kernel
  obtain ⟨⟨⟨handle, files'⟩, m'⟩, hres, hvals⟩ := Option.map_eq_some_iff.mp hopen
  obtain ⟨rfl, hentry, hslot⟩ : handle = none ∧ tinyLayout.entry m' 3 = 0x0FFFFFFF ∧
      direntAt m' 1024 = newDirent (to83 [65]) attrArchive 3 := by simpa using hvals
  have hfree : tinyLayout.entry tinyDisk 3 = 0 := by decide +kernel
  have hfiles : files' = allUsed := fat32Open_null hres
  refine ⟨m', hfiles ▸ hres, hfree, hentry, hslot, ?_⟩
  rintro rfl
  rw [hfree] at hentry
  exact absurd hentry (by decide)

end XldKernel.Fat32
