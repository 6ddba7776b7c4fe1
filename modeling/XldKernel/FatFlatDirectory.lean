import XldKernel.FatListedNames

/-!
# FAT32: a directory as one list of entries

The entries of a directory in the order of its clusters, sectors and slots, each with its
place. `fat32_find` and `find_free_dirent_slot` are searches in this list.
-/

namespace XldKernel.Fat32
open ByteMemory BlockDevice LinkedPath
variable {l : Layout} {m : Mem} {dir : ℕ} {cs : List ℕ}

def flatDirectory (l : Layout) (m : Mem) (cs : List ℕ) : List Found :=
  cs.flatMap fun c => (List.range l.bpb.sectorsPerCluster).flatMap fun i =>
    (List.range dirEntriesPerSec).map fun e =>
      ⟨direntAt (sector m (l.sectorOf c i)) (e * dirEntrySize), l.sectorOf c i, e⟩

def Found.first (f : Found) : Option UInt8 := f.dirent.name.head?

def beforeEnd (entries : List Found) : List Found := entries.takeWhile fun f => f.first ≠ some 0x00

def Found.IsEntry (target : List UInt8) (f : Found) : Prop :=
  f.first ≠ some 0xE5 ∧ f.dirent.attr ≠ 0x0F ∧ f.dirent.name = target

instance (target : List UInt8) (f : Found) : Decidable (f.IsEntry target) :=
  inferInstanceAs (Decidable (_ ∧ _))

def Found.IsFree (f : Found) : Prop := f.first = some 0x00 ∨ f.first = some 0xE5

instance (f : Found) : Decidable f.IsFree := inferInstanceAs (Decidable (_ ∨ _))

theorem flatDirectory_eq (l : Layout) (m : Mem) (cs : List ℕ) :
    flatDirectory l m cs = (l.dirSlots cs).map (foundAt m) := by
  rw [flatDirectory, Layout.dirSlots, List.map_flatMap]
  refine List.flatMap_congr fun c _ => ?_
  rw [Layout.clusterSlots, List.map_flatMap]
  refine List.flatMap_congr fun i _ => ?_
  rw [sectorSlots, List.map_map]
  refine List.map_congr_left fun e he => ?_
  obtain ⟨hentry, hsector⟩ := slot_entry (List.mem_range.mp he) (s := l.sectorOf c i)
  rw [Function.comp_apply, foundAt, hentry, hsector, direntAt_sector]

theorem foundAt_first (m : Mem) (a : ℕ) : (foundAt m a).first = some (m a) := direntAt_first rfl

theorem find_flat (target : List UInt8) (slots : List ℕ) :
    ((liveSlots m slots).find? (nameIs m target)).map (foundAt m) =
      (beforeEnd (slots.map (foundAt m))).find? fun f => f.IsEntry target := by
  have hend : (fun f : Found => decide (f.first ≠ some 0x00)) ∘ foundAt m = fun a =>
      decide (m a ≠ 0) := by
    funext a
    simp [foundAt_first]
  have hentry : (fun f : Found => decide (f.IsEntry target)) ∘ foundAt m =
      fun a => decide (decide (m a ≠ 0xE5 ∧ m (a + 11) ≠ attrLfn) = true ∧
        nameIs m target a = true) := by
    funext a
    simp only [Function.comp_apply, Found.IsEntry, foundAt_first, nameIs,
      decide_eq_true_eq, and_assoc, ne_eq, Option.some_inj]
    rfl
  rw [beforeEnd, List.takeWhile_map, List.find?_map, hend, hentry, liveSlots, List.find?_filter]

theorem scan_free_find (slots : List ℕ) :
    (scan freeTest m slots).result = slots.find? fun a => m a = 0x00 ∨ m a = 0xE5 := by
  induction slots with
  | nil => rfl
  | cons a slots ih =>
    rw [scan, freeTest]
    by_cases hfree : m a = 0x00 ∨ m a = 0xE5
    · rw [if_pos hfree, List.find?_cons_of_pos (by simpa using hfree)]
      rfl
    · rw [if_neg hfree, List.find?_cons_of_neg (by simpa using hfree)]
      exact ih

theorem free_flat (slots : List ℕ) :
    (slots.find? fun a => m a = 0x00 ∨ m a = 0xE5).map (foundAt m) =
      (slots.map (foundAt m)).find? fun f => f.IsFree := by
  have hfree : (fun f : Found => decide f.IsFree) ∘ foundAt m =
      fun a => decide (m a = 0x00 ∨ m a = 0xE5) := by
    funext a
    simp only [Function.comp_apply, Found.IsFree, foundAt_first, Option.some_inj]
  rw [List.find?_map, hfree]

theorem findIdx_free_le (entries : List Found) :
    entries.findIdx (fun f => f.IsFree) ≤ (beforeEnd entries).length := by
  induction entries with
  | nil => simp [beforeEnd]
  | cons f entries ih =>
    rw [List.findIdx_cons, beforeEnd, List.takeWhile_cons]
    by_cases hend : f.first = some 0x00
    · have hfree : f.IsFree := Or.inl hend
      simp [hfree]
    · rw [if_pos (by simpa using hend), List.length_cons, ← beforeEnd]
      by_cases hfree : f.IsFree
      · simp [hfree]
      · simpa [hfree] using ih

/-- Both searches, for every directory with a chain that ends. -/
theorem directory_search_flat (l : Layout) (m : Mem) (dir : ℕ) (cs : List ℕ)
    (hpath : Path (l.next m) dir cs endOfChain) (hcs : endOfChain ∉ cs) :
    (∀ target, fat32Find l.ram dir target m =
      some ((beforeEnd (flatDirectory l m cs)).find? (fun f => f.IsEntry target), m)) ∧
    findFreeDirentSlot l.ram dir m =
      some (((flatDirectory l m cs).find? fun f => f.IsFree).map
        (fun f => (f.sector, f.entry)), m) ∧
    (flatDirectory l m cs).findIdx (fun f => f.IsFree) ≤ (beforeEnd (flatDirectory l m cs)).length ∧
    ∀ f ∈ flatDirectory l m cs, f.entry < dirEntriesPerSec ∧
      direntAt (sector m f.sector) (f.entry * dirEntrySize) = f.dirent := by
  have hlen := path_length_lt hpath hcs
  refine ⟨fun target => ?_, ?_, findIdx_free_le _, fun f hf => ?_⟩
  · rw [fat32Find_ram l hpath hcs hlen, find_flat, flatDirectory_eq]
  · rw [findFreeDirentSlot, walkDir_ram freeTest_local l hpath hcs hlen, scan_free_find,
      flatDirectory_eq, ← free_flat, Option.map_some]
    dsimp only
    rw [Option.map_map, Option.map_map]
    rfl
  · obtain ⟨c, -, hf⟩ := List.mem_flatMap.mp hf
    obtain ⟨i, -, hf⟩ := List.mem_flatMap.mp hf
    obtain ⟨e, he, rfl⟩ := List.mem_map.mp hf
    exact ⟨List.mem_range.mp he, rfl⟩

theorem directory_search_flat_hello :
    (fat32Find tinyLayout.ram 2 (to83 [65]) helloDisk).map (fun r => r.1) =
      some (some ⟨helloEntry, 2, 0⟩) ∧
    (findFreeDirentSlot tinyLayout.ram 2 helloDisk).map (fun r => r.1) = some (some (2, 1)) := by
  obtain ⟨hfind, hfree, -⟩ :=
    directory_search_flat tinyLayout helloDisk 2 [2] (by decide +kernel) (by decide)
  rw [hfind, hfree]
  exact ⟨by decide +kernel, by decide +kernel⟩

end XldKernel.Fat32
