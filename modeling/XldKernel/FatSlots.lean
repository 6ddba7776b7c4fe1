import XldKernel.FatDirectory
import XldKernel.FatChain
import XldKernel.Lists

/-!
# Directory walks as scans of a flat list of slots

On a disk in memory a directory is the list of the addresses of its slots, in
the order of its chain. A walk scans this list with its test, and what it
returns locates the slot where the scan ended.
-/

namespace XldKernel.Fat32
open ByteMemory BlockDevice LinkedPath

def sectorSlots (s : ℕ) : List ℕ :=
  (List.range dirEntriesPerSec).map fun e => sectorSize * s + e * dirEntrySize

namespace Layout
variable (l : Layout)

def clusterSlots (c : ℕ) : List ℕ :=
  (List.range l.bpb.sectorsPerCluster).flatMap fun i => sectorSlots (l.sectorOf c i)

def dirSlots (cs : List ℕ) : List ℕ := cs.flatMap l.clusterSlots

end Layout

/-- What the test says of the slots, up to the first one that ends the scan. -/
def scan (test : Mem → ℕ → Verdict) (m : Mem) : List ℕ → Walk ℕ
  | [] => .next
  | a :: as =>
    match test m a with
    | .stop => .stop
    | .hit => .hit a
    | .skip => scan test m as

def hitAt (m : Mem) (a : ℕ) : Hit :=
  ⟨a / sectorSize, a % sectorSize / dirEntrySize, sector m (a / sectorSize)⟩

def LocalTest (test : Mem → ℕ → Verdict) : Prop :=
  ∀ m s i, test (sector m s) i = test m (sectorSize * s + i)

theorem findTest_local (target : List UInt8) : LocalTest (findTest target) := by
  intro m s i
  simp only [findTest, read_sector, sector, Nat.add_assoc]

theorem freeTest_local : LocalTest freeTest := fun _ _ _ => rfl

variable {test : Mem → ℕ → Verdict} {m : Mem}

theorem scan_append (xs ys : List ℕ) :
    scan test m (xs ++ ys) =
      match scan test m xs with
      | .stop => .stop
      | .hit a => .hit a
      | .next => scan test m ys := by
  induction xs with
  | nil => rfl
  | cons x xs ih =>
    simp only [List.cons_append, scan]
    cases test m x with
    | stop => rfl
    | hit => rfl
    | skip => exact ih

theorem scan_hit {xs : List ℕ} {a : ℕ} (h : scan test m xs = .hit a) :
    ∃ pre post, xs = pre ++ a :: post ∧ test m a = .hit ∧ ∀ b ∈ pre, test m b = .skip := by
  induction xs with
  | nil => simp [scan] at h
  | cons x xs ih =>
    simp only [scan] at h
    cases hx : test m x with
    | stop => simp [hx] at h
    | hit =>
      simp only [hx, Walk.hit.injEq] at h
      subst h
      exact ⟨[], xs, rfl, hx, by simp⟩
    | skip =>
      simp only [hx] at h
      obtain ⟨pre, post, hsplit, ha, hpre⟩ := ih h
      refine ⟨x :: pre, post, by rw [hsplit]; rfl, ha, ?_⟩
      intro b hb
      rcases List.mem_cons.mp hb with rfl | hb
      · exact hx
      · exact hpre b hb

theorem scan_of_skip {pre post : List ℕ} (hpre : ∀ b ∈ pre, test m b = .skip) :
    scan test m (pre ++ post) = scan test m post := by
  induction pre with
  | nil => rfl
  | cons b pre ih =>
    simp only [List.cons_append, scan, hpre b List.mem_cons_self]
    exact ih fun c hc => hpre c (List.mem_cons_of_mem _ hc)

theorem scan_all_skip {slots : List ℕ} (h : ∀ b ∈ slots, test m b = .skip) :
    scan test m slots = .next := by
  have hscan : scan test m (slots ++ []) = scan test m [] := scan_of_skip h
  rwa [List.append_nil] at hscan

theorem freeTest_skip {a : ℕ} (h : freeTest m a = .skip) : m a ≠ 0 ∧ m a ≠ 0xE5 := by
  rw [freeTest] at h
  split_ifs at h with hno
  exact not_or.mp hno

theorem freeTest_hit {a : ℕ} (h : freeTest m a = .hit) : m a = 0 ∨ m a = 0xE5 := by
  rw [freeTest] at h
  split_ifs at h with hyes
  exact hyes

theorem scan_freeTest (m : Mem) (slots : List ℕ) :
    (∃ a, scan freeTest m slots = .hit a) ∨ ∀ a ∈ slots, m a ≠ 0 ∧ m a ≠ 0xE5 := by
  induction slots with
  | nil => exact Or.inr (by simp)
  | cons a slots ih =>
    by_cases hfree : m a = 0 ∨ m a = 0xE5
    · exact Or.inl ⟨a, by simp only [scan, freeTest, if_pos hfree]⟩
    · simp only [scan, freeTest, if_neg hfree, List.forall_mem_cons]
      exact ih.imp_right fun h => ⟨not_or.mp hfree, h⟩

theorem slot_entry {s e : ℕ} (he : e < dirEntriesPerSec) :
    (sectorSize * s + e * dirEntrySize) % sectorSize / dirEntrySize = e ∧
      (sectorSize * s + e * dirEntrySize) / sectorSize = s := by
  simp only [sectorSize, dirEntrySize, dirEntriesPerSec] at *
  omega

theorem walkEntries_ram (htest : LocalTest test) (s n ent : ℕ)
    (hn : ent + n ≤ dirEntriesPerSec) :
    walkEntries test (sector m s) n ent =
      (scan test m ((List.range' ent n).map fun e => sectorSize * s + e * dirEntrySize)).map
        fun a => a % sectorSize / dirEntrySize := by
  induction n generalizing ent with
  | zero => rfl
  | succ n ih =>
    simp only [walkEntries, List.range'_succ, List.map_cons, scan, htest m s (ent * dirEntrySize)]
    cases test m (sectorSize * s + ent * dirEntrySize) with
    | stop => rfl
    | hit => simp only [Walk.map, (slot_entry (show ent < dirEntriesPerSec by omega)).1]
    | skip => exact ih (ent + 1) (by omega)

theorem walkEntries_slots (htest : LocalTest test) (s : ℕ) :
    walkEntries test (sector m s) dirEntriesPerSec 0 =
      (scan test m (sectorSlots s)).map fun a => a % sectorSize / dirEntrySize := by
  rw [walkEntries_ram htest _ _ 0 (by simp), ← List.range_eq_range', sectorSlots]

theorem walkSectors_ram (htest : LocalTest test) (l : Layout) (c n sec : ℕ) :
    walkSectors l.ram test (l.firstSector c) n sec m =
      ((scan test m ((List.range' sec n).flatMap fun i => sectorSlots (l.sectorOf c i))).map
        (hitAt m), m) := by
  induction n generalizing sec with
  | zero => rfl
  | succ n ih =>
    have hread : (l.firstSector c + sec) % 2 ^ 32 = l.sectorOf c sec := rfl
    simp only [walkSectors, Layout.ram, ramDisk, List.range'_succ, List.flatMap_cons, hread,
      walkEntries_slots htest, scan_append]
    cases hscan : scan test m (sectorSlots (l.sectorOf c sec)) with
    | stop => rfl
    | hit a =>
      obtain ⟨pre, post, hsplit, -⟩ := scan_hit hscan
      have hmem : a ∈ sectorSlots (l.sectorOf c sec) := by rw [hsplit]; simp
      obtain ⟨e, he, rfl⟩ := List.mem_map.mp hmem
      simp only [Walk.map, hitAt, (slot_entry (List.mem_range.mp he)).2]
    | next => exact ih (sec + 1)

theorem walkDir_ram (htest : LocalTest test) (l : Layout) {cs : List ℕ} {c : ℕ}
    (hpath : Path (l.next m) c cs endOfChain) (hcs : endOfChain ∉ cs) {fuel : ℕ}
    (hfuel : cs.length < fuel) :
    walkDir l.ram test fuel c m =
      some ((scan test m (l.dirSlots cs)).result.map (hitAt m), m) := by
  induction cs generalizing c fuel with
  | nil =>
    cases fuel with
    | zero => simp at hfuel
    | succ fuel =>
      have hc : c = endOfChain := hpath
      simp [walkDir, hc, Layout.dirSlots, scan, Walk.result]
  | cons d cs ih =>
    cases fuel with
    | zero => simp at hfuel
    | succ fuel =>
      obtain ⟨rfl, hrest⟩ := hpath
      have hne : c ≠ endOfChain := fun h => hcs (h ▸ List.mem_cons_self)
      have hrec := ih hrest (fun h => hcs (List.mem_cons_of_mem _ h)) (by simpa using hfuel)
      have hwalk := walkSectors_ram (m := m) htest l c l.bpb.sectorsPerCluster 0
      rw [← List.range_eq_range'] at hwalk
      simp only [walkDir, if_neg hne, nextCluster_ram]
      simp only [Layout.ram] at hwalk hrec ⊢
      rw [hwalk, Layout.dirSlots, List.flatMap_cons, scan_append, ← Layout.clusterSlots,
        ← Layout.dirSlots]
      cases scan test m (l.clusterSlots c) with
      | stop => rfl
      | hit a => rfl
      | next => exact hrec

/-- The slots in use: before the end mark, not deleted, no part of a long name. -/
def liveSlots (m : Mem) (slots : List ℕ) : List ℕ :=
  (slots.takeWhile fun a => m a ≠ 0).filter fun a => m a ≠ 0xE5 ∧ m (a + 11) ≠ attrLfn

theorem direntAt_congr {m' : Mem} {a : ℕ} (h : ∀ i < dirEntrySize, m' (a + i) = m (a + i)) :
    direntAt m' a = direntAt m a := by
  have hload : ∀ o n, o + n ≤ 32 → load m' (a + o) n = load m (a + o) n := by
    intro o n hon
    apply load_congr
    intro i hi
    rw [Nat.add_assoc]
    exact h (o + i) (by simp only [dirEntrySize]; omega)
  have hname : read m' a 11 = read m a 11 :=
    read_congr fun i hi => h i (by simp only [dirEntrySize]; omega)
  rw [direntAt, direntAt, hname, h 11 (by decide), hload 20 2 (by decide), hload 26 2 (by decide),
    hload 28 4 (by decide)]

theorem liveSlots_congr {m' : Mem} {slots : List ℕ}
    (h : ∀ a ∈ slots, m' a = m a ∧ m' (a + 11) = m (a + 11)) :
    liveSlots m' slots = liveSlots m slots := by
  have htake : slots.takeWhile (fun a => m' a ≠ 0) = slots.takeWhile (fun a => m a ≠ 0) := by
    apply Lists.takeWhile_congr
    intro a ha
    simp only [(h a ha).1]
  rw [liveSlots, liveSlots, htake]
  apply List.filter_congr
  intro a ha
  have hmem := (List.takeWhile_prefix _).subset ha
  simp only [(h a hmem).1, (h a hmem).2]

theorem mem_of_liveSlots {slots : List ℕ} {a : ℕ} (ha : a ∈ liveSlots m slots) : a ∈ slots :=
  (List.takeWhile_prefix _).subset (List.mem_of_mem_filter ha)

theorem liveSlots_cons (m : Mem) (a : ℕ) (slots : List ℕ) :
    liveSlots m (a :: slots) =
      if m a = 0 then []
      else if m a = 0xE5 ∨ m (a + 11) = attrLfn then liveSlots m slots
      else a :: liveSlots m slots := by
  by_cases h0 : m a = 0
  · simp [liveSlots, h0]
  · rw [if_neg h0]
    by_cases hskip : m a = 0xE5 ∨ m (a + 11) = attrLfn
    · have hkeep : ¬ (m a ≠ 0xE5 ∧ m (a + 11) ≠ attrLfn) := by
        intro h
        exact hskip.elim h.1 h.2
      simp [liveSlots, h0, hskip, hkeep]
    · rw [if_neg hskip]
      rw [not_or] at hskip
      simp [liveSlots, h0, hskip]

theorem liveSlots_append {pre : List ℕ} (hpre : ∀ b ∈ pre, m b ≠ 0) (xs : List ℕ) :
    liveSlots m (pre ++ xs) = liveSlots m pre ++ liveSlots m xs := by
  induction pre with
  | nil => rfl
  | cons b pre ih =>
    have h0 := hpre b List.mem_cons_self
    rw [List.cons_append, liveSlots_cons, liveSlots_cons, if_neg h0, if_neg h0,
      ih fun c hc => hpre c (List.mem_cons_of_mem _ hc)]
    split_ifs <;> rfl

theorem liveSlots_zero {xs : List ℕ} (h : ∀ b ∈ xs, m b = 0) : liveSlots m xs = [] := by
  cases xs with
  | nil => rfl
  | cons b xs => rw [liveSlots_cons, if_pos (h b List.mem_cons_self)]

theorem live_of_mem {xs : List ℕ} {a : ℕ} (ha : a ∈ liveSlots m xs) :
    m a ≠ 0 ∧ m a ≠ 0xE5 ∧ m (a + 11) ≠ attrLfn := by
  induction xs with
  | nil => cases ha
  | cons b xs ih =>
    rw [liveSlots_cons] at ha
    split_ifs at ha with h0 hskip
    · cases ha
    · exact ih ha
    · rw [not_or] at hskip
      rcases List.mem_cons.mp ha with rfl | ha
      · exact ⟨h0, hskip⟩
      · exact ih ha

theorem liveSlots_fill {m' : Mem} {pre post : List ℕ} {a : ℕ}
    (hpre : ∀ b ∈ pre, m b ≠ 0 ∧ m b ≠ 0xE5) (ha : m a = 0 ∨ m a = 0xE5)
    (hother : ∀ b ∈ pre ++ post, m' b = m b ∧ m' (b + 11) = m (b + 11)) (hfilled : m' a ≠ 0) :
    liveSlots m (pre ++ a :: post) =
      liveSlots m pre ++ (if m a = 0 then [] else liveSlots m post) ∧
    liveSlots m' (pre ++ a :: post) = liveSlots m pre ++
      (if m' a = 0xE5 ∨ m' (a + 11) = attrLfn then liveSlots m post
        else a :: liveSlots m post) := by
  have hnz : ∀ b ∈ pre, m' b ≠ 0 := by
    intro b hb
    rw [(hother b (by simp [hb])).1]
    exact (hpre b hb).1
  refine ⟨?_, ?_⟩
  · rw [liveSlots_append fun b hb => (hpre b hb).1, liveSlots_cons]
    by_cases h0 : m a = 0
    · rw [if_pos h0, if_pos h0]
    · rw [if_neg h0, if_neg h0, if_pos (Or.inl (ha.resolve_left h0))]
  · rw [liveSlots_append hnz, liveSlots_cons, if_neg hfilled,
      liveSlots_congr fun b hb => hother b (by simp [hb]),
      liveSlots_congr fun b hb => hother b (by simp [hb])]

theorem liveSlots_insert {m' : Mem} {pre post : List ℕ} {a : ℕ}
    (hpre : ∀ b ∈ pre, m b ≠ 0 ∧ m b ≠ 0xE5) (ha : m a = 0 ∨ m a = 0xE5)
    (hpost : m a = 0 → ∀ b ∈ post, m b = 0)
    (hother : ∀ b ∈ pre ++ post, m' b = m b ∧ m' (b + 11) = m (b + 11))
    (hlive : m' a ≠ 0 ∧ m' a ≠ 0xE5 ∧ m' (a + 11) ≠ attrLfn) :
    ∃ F G, liveSlots m (pre ++ a :: post) = F ++ G ∧
      liveSlots m' (pre ++ a :: post) = F ++ a :: G := by
  obtain ⟨hold, hnew⟩ := liveSlots_fill hpre ha hother hlive.1
  have hno : ¬ (m' a = 0xE5 ∨ m' (a + 11) = attrLfn) := by
    rw [not_or]
    exact hlive.2
  rw [if_neg hno] at hnew
  refine ⟨liveSlots m pre, liveSlots m post, ?_, hnew⟩
  rw [hold]
  split_ifs with h0
  · rw [liveSlots_zero (hpost h0)]
  · rfl

def nameIs (m : Mem) (target : List UInt8) (a : ℕ) : Bool :=
  decide ((direntAt m a).name = target)

theorem find_scan (target : List UInt8) (slots : List ℕ) :
    (scan (findTest target) m slots).result = (liveSlots m slots).find? (nameIs m target) := by
  induction slots with
  | nil => rfl
  | cons a slots ih =>
    rw [scan, liveSlots_cons, findTest]
    by_cases h0 : m a = 0
    · simp [h0, Walk.result]
    · rw [if_neg h0, if_neg h0]
      by_cases hskip : m a = 0xE5 ∨ m (a + 11) = attrLfn
      · rw [if_pos hskip, if_pos hskip]
        exact ih
      · rw [if_neg hskip, if_neg hskip]
        by_cases hname : read m a 11 = target
        · have hthis : nameIs m target a = true := decide_eq_true hname
          simp [hname, hthis, Walk.result]
        · have hthis : nameIs m target a = false := decide_eq_false hname
          simp only [if_neg hname, List.find?_cons, hthis]
          exact ih

def foundAt (m : Mem) (a : ℕ) : Found :=
  ⟨direntAt m a, a / sectorSize, a % sectorSize / dirEntrySize⟩

theorem slot_aligned {l : Layout} {cs : List ℕ} {a : ℕ} (ha : a ∈ l.dirSlots cs) :
    a % dirEntrySize = 0 := by
  obtain ⟨c, -, hc⟩ := List.mem_flatMap.mp ha
  obtain ⟨i, -, hi⟩ := List.mem_flatMap.mp hc
  obtain ⟨e, -, rfl⟩ := List.mem_map.mp hi
  simp only [sectorSize, dirEntrySize]
  omega

theorem slot_split {a : ℕ} (ha : a % dirEntrySize = 0) :
    sectorSize * (a / sectorSize) + a % sectorSize / dirEntrySize * dirEntrySize = a := by
  simp only [sectorSize, dirEntrySize] at *
  omega

theorem direntAt_sector (s i : ℕ) :
    direntAt (sector m s) i = direntAt m (sectorSize * s + i) := by
  simp only [direntAt, read_sector, load_sector, sector, Nat.add_assoc]

theorem found_hitAt {a : ℕ} (ha : a % dirEntrySize = 0) : (hitAt m a).found = foundAt m a := by
  rw [hitAt, Hit.found, foundAt, direntAt_sector, slot_split ha]

theorem fat32Find_ram (l : Layout) {cs : List ℕ} {d : ℕ} (hpath : Path (l.next m) d cs endOfChain)
    (hcs : endOfChain ∉ cs) (hlen : cs.length < chainFuel) (target : List UInt8) :
    fat32Find l.ram d target m =
      some (((liveSlots m (l.dirSlots cs)).find? (nameIs m target)).map (foundAt m), m) := by
  rw [fat32Find, walkDir_ram (findTest_local target) l hpath hcs hlen, Option.map_some, find_scan]
  cases hres : (liveSlots m (l.dirSlots cs)).find? (nameIs m target) with
  | none => rfl
  | some a =>
    have hmem := mem_of_liveSlots (List.mem_of_find?_eq_some hres)
    simp only [Option.map_some, found_hitAt (slot_aligned hmem)]

section Places
variable {l : Layout} {c : ℕ} (hg : l.Geometry)
include hg

theorem sector_lt (hc : l.InVolume c) {i : ℕ} (hi : i < l.bpb.sectorsPerCluster) :
    l.dataStart + (c - 2) * l.bpb.sectorsPerCluster + i < 2 ^ 32 := by
  have hle : (c - 2 + 1) * l.bpb.sectorsPerCluster ≤
      (l.clusters - 2) * l.bpb.sectorsPerCluster := by
    have h1 := hc.1
    have h2 := hc.2
    exact Nat.mul_le_mul_right _ (by omega)
  have hlast := hg.last
  rw [Nat.add_mul, Nat.one_mul] at hle
  omega

theorem firstSector_eq (hc : l.InVolume c) :
    l.firstSector c = l.dataStart + (c - 2) * l.bpb.sectorsPerCluster := by
  have h1 := hc.1
  have hlt := sector_lt hg hc hg.spc_pos
  have hshift : c + (2 ^ 32 - 2) = c - 2 + 2 ^ 32 := by omega
  have hsum : l.dataStart + (c - 2 + 2 ^ 32) * l.bpb.sectorsPerCluster =
      l.dataStart + (c - 2) * l.bpb.sectorsPerCluster + 2 ^ 32 * l.bpb.sectorsPerCluster := by
    rw [Nat.add_mul, Nat.add_assoc]
  rw [Layout.firstSector, hshift, hsum, Nat.add_mul_mod_self_left, Nat.mod_eq_of_lt (by omega)]

theorem sectorOf_eq (hc : l.InVolume c) {i : ℕ} (hi : i < l.bpb.sectorsPerCluster) :
    l.sectorOf c i = l.dataStart + (c - 2) * l.bpb.sectorsPerCluster + i := by
  rw [Layout.sectorOf, firstSector_eq hg hc, Nat.mod_eq_of_lt (sector_lt hg hc hi)]

theorem sector_addr (hc : l.InVolume c) {i : ℕ} (hi : i < l.bpb.sectorsPerCluster) :
    sectorSize * l.sectorOf c i = l.clusterAddr c + sectorSize * i := by
  rw [sectorOf_eq hg hc hi, Nat.mul_add, Layout.clusterAddr]

theorem sector_inCluster (hc : l.InVolume c) {i k : ℕ} (hi : i < l.bpb.sectorsPerCluster)
    (hk : k < sectorSize) : l.InCluster c (sectorSize * l.sectorOf c i + k) := by
  have hend : sectorSize * (i + 1) ≤ l.bytesPerCluster := by
    rw [hg.bytes]
    exact Nat.mul_le_mul_left _ hi
  rw [sector_addr hg hc hi, Layout.InCluster]
  rw [Nat.mul_add_one] at hend
  omega

theorem data_addr (hc : l.InVolume c) {off : ℕ} (hoff : off < l.bytesPerCluster) :
    sectorSize * l.sectorOf c (off / sectorSize) + off % sectorSize = l.clusterAddr c + off := by
  rw [hg.bytes] at hoff
  rw [sector_addr hg hc (Nat.div_lt_of_lt_mul hoff), Nat.add_assoc, Nat.div_add_mod]

theorem mem_clusterSlots (hc : l.InVolume c) {a : ℕ} (ha : a ∈ l.clusterSlots c) :
    ∃ k, a = l.clusterAddr c + dirEntrySize * k ∧
      dirEntrySize * k + dirEntrySize ≤ l.bytesPerCluster := by
  obtain ⟨i, hi, hslot⟩ := List.mem_flatMap.mp ha
  obtain ⟨e, he, rfl⟩ := List.mem_map.mp hslot
  rw [List.mem_range] at hi he
  refine ⟨dirEntriesPerSec * i + e, ?_, ?_⟩
  · rw [sector_addr hg hc hi]
    simp only [sectorSize, dirEntrySize, dirEntriesPerSec]
    omega
  · rw [hg.bytes]
    simp only [sectorSize, dirEntrySize, dirEntriesPerSec] at *
    omega

theorem slot_inCluster (hc : l.InVolume c) {a i : ℕ} (ha : a ∈ l.clusterSlots c)
    (hi : i < dirEntrySize) : l.InCluster c (a + i) := by
  obtain ⟨k, rfl, hk⟩ := mem_clusterSlots hg hc ha
  simp only [Layout.InCluster]
  omega

theorem clusterSlots_sorted (hc : l.InVolume c) : (l.clusterSlots c).Pairwise (· < ·) := by
  refine List.pairwise_flatMap.mpr ⟨?_, ?_⟩
  · intro i _
    refine List.pairwise_map.mpr (List.pairwise_lt_range.imp ?_)
    intro e e' h
    simp only [dirEntrySize]
    omega
  · refine List.pairwise_lt_range.imp_of_mem ?_
    intro i j hi hj hlt a ha b hb
    obtain ⟨e, he, rfl⟩ := List.mem_map.mp ha
    obtain ⟨e', he', rfl⟩ := List.mem_map.mp hb
    rw [List.mem_range] at hi hj he he'
    rw [sector_addr hg hc hi, sector_addr hg hc hj]
    simp only [sectorSize, dirEntrySize, dirEntriesPerSec] at *
    omega

theorem dirSlots_nodup {cs : List ℕ} (hrange : ∀ x ∈ cs, l.InVolume x) (hcs : cs.Nodup) :
    (l.dirSlots cs).Nodup := by
  refine List.nodup_flatMap.mpr ⟨fun c hc => (clusterSlots_sorted hg (hrange c hc)).imp
    Nat.ne_of_lt, ?_⟩
  refine hcs.imp_of_mem ?_
  intro c d hc hd hne a ha ha'
  have h1 := slot_inCluster hg (hrange c hc) ha (show 0 < dirEntrySize by decide)
  have h2 := slot_inCluster hg (hrange d hd) ha' (show 0 < dirEntrySize by decide)
  exact hne (inCluster_inj hg (hrange c hc) (hrange d hd) h1 h2)

end Places

end XldKernel.Fat32
