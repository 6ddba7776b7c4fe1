import XldKernel.DeviceSimulation
import XldKernel.FatListing
import XldKernel.FatLookup
import XldKernel.FatMount

/-!
# FAT32 on two devices that run in step

Every function of `kernel/src/fat32.c` and `kernel/src/fat32_ls.c` gives the same
result on two devices that run in step and leaves them in step. In particular it
depends on no byte behind the 512 bytes of a sector buffer.
-/

namespace XldKernel.Fat32
open ByteMemory BlockDevice

section Simulation
variable {σ τ : Type} {dev₁ : BlockDev σ} {dev₂ : BlockDev τ} {R : σ → τ → Prop}
  (h : Simulates dev₁ dev₂ R) {l : Layout} {x : σ} {y : τ} (hR : R x y)
include h hR

theorem readFatEntry_same (c : ℕ) :
    SameOut R (readFatEntry ⟨l, dev₁⟩ c x) (readFatEntry ⟨l, dev₂⟩ c y) := by
  rcases h.read hR ((l.fatStart + c * 4 % 2 ^ 32 / sectorSize) % 2 ^ 32) with
    ⟨x', y', e₁, e₂, hR'⟩ | ⟨b, b', x', y', e₁, e₂, hb, hR'⟩
  · simp only [readFatEntry, e₁, e₂]
    exact .mk _ hR'
  · simp only [readFatEntry, e₁, e₂, hb.load (entryOffset_le c)]
    exact .mk _ hR'

theorem writeFatEntry_same (c v : ℕ) :
    SameOut R (writeFatEntry ⟨l, dev₁⟩ c v x) (writeFatEntry ⟨l, dev₂⟩ c v y) := by
  rcases h.read hR ((l.fatStart + c * 4 % 2 ^ 32 / sectorSize) % 2 ^ 32) with
    ⟨x', y', e₁, e₂, hR'⟩ | ⟨b, b', x', y', e₁, e₂, hb, hR'⟩
  · simp only [writeFatEntry, e₁, e₂]
    exact .mk _ hR'
  · simp only [writeFatEntry, e₁, e₂, hb.load (entryOffset_le c)]
    exact h.write hR' (hb.store _ _ _) _

theorem nextCluster_same (c : ℕ) :
    SameOut R (nextCluster ⟨l, dev₁⟩ c x) (nextCluster ⟨l, dev₂⟩ c y) := by
  obtain ⟨entry, x', y', e₁, e₂, hR'⟩ := readFatEntry_same h hR (l := l) c
  simp only [nextCluster, e₁, e₂]
  exact .mk _ hR'

theorem claimCluster_same (prev c : ℕ) :
    SameOut R (claimCluster ⟨l, dev₁⟩ prev c x) (claimCluster ⟨l, dev₂⟩ prev c y) := by
  obtain ⟨ok, x₁, y₁, e₁, e₂, hR₁⟩ := writeFatEntry_same h hR (l := l) c 0x0FFFFFFF
  simp only [claimCluster, e₁, e₂]
  cases ok with
  | false => exact .mk _ hR₁
  | true =>
    split_ifs with hprev
    · obtain ⟨ok, x₂, y₂, e₃, e₄, hR₂⟩ := writeFatEntry_same h hR₁ (l := l) prev c
      simp only [e₃, e₄]
      cases ok with
      | false =>
        obtain ⟨_, x₃, y₃, e₅, e₆, hR₃⟩ := writeFatEntry_same h hR₂ (l := l) c fat32FreeCluster
        simp only [e₅, e₆]
        exact .mk _ hR₃
      | true => exact .mk _ hR₂
    · exact .mk _ hR₁

theorem allocateScan_same (prev n c : ℕ) :
    SameOut R (allocateScan ⟨l, dev₁⟩ prev n c x) (allocateScan ⟨l, dev₂⟩ prev n c y) := by
  induction n generalizing c x y with
  | zero => exact .mk 0 hR
  | succ n ih =>
    obtain ⟨entry, x', y', e₁, e₂, hR'⟩ := readFatEntry_same h hR (l := l) c
    simp only [allocateScan, e₁, e₂]
    split_ifs
    · exact claimCluster_same h hR' prev c
    · exact ih hR' (c + 1)

theorem allocateCluster_same (prev : ℕ) :
    SameOut R (allocateCluster ⟨l, dev₁⟩ prev x) (allocateCluster ⟨l, dev₂⟩ prev y) :=
  allocateScan_same h hR prev _ _

omit h hR

def EntryTest (test : Mem → ℕ → Verdict) : Prop :=
  ∀ {b b' : Mem}, Agree b b' → ∀ {a}, a + dirEntrySize ≤ sectorSize → test b a = test b' a

theorem entryTest_find (target : List UInt8) : EntryTest (findTest target) := by
  intro b b' hb a ha
  have ha' : a + 32 ≤ sectorSize := ha
  simp only [findTest, hb a (by omega), hb (a + 11) (by omega),
    hb.read (by omega : a + 11 ≤ sectorSize)]

theorem entryTest_free : EntryTest freeTest := by
  intro b b' hb a ha
  have ha' : a + 32 ≤ sectorSize := ha
  simp only [freeTest, hb a (by omega)]

theorem entry_inside {ent : ℕ} (hent : ent < dirEntriesPerSec) :
    ent * dirEntrySize + dirEntrySize ≤ sectorSize := by
  simp only [dirEntriesPerSec, dirEntrySize, sectorSize] at *
  omega

theorem walkEntries_same {test : Mem → ℕ → Verdict} (htest : EntryTest test) {b b' : Mem}
    (hb : Agree b b') {n ent : ℕ} (hn : ent + n ≤ dirEntriesPerSec) :
    walkEntries test b n ent = walkEntries test b' n ent := by
  induction n generalizing ent with
  | zero => rfl
  | succ n ih =>
    rw [walkEntries, walkEntries, htest hb (entry_inside (by omega)), ih (by omega)]

theorem direntAt_same {b b' : Mem} (hb : Agree b b') {a : ℕ} (ha : a + dirEntrySize ≤ sectorSize) :
    direntAt b a = direntAt b' a := by
  have ha' : a + 32 ≤ sectorSize := ha
  simp only [direntAt, hb.read (by omega : a + 11 ≤ sectorSize), hb (a + 11) (by omega),
    hb.load (by omega : a + 20 + 2 ≤ sectorSize), hb.load (by omega : a + 26 + 2 ≤ sectorSize),
    hb.load (by omega : a + 28 + 4 ≤ sectorSize)]

theorem putDirent_same {b b' : Mem} (hb : Agree b b') (a : ℕ) (d : Dirent) :
    Agree (putDirent b a d) (putDirent b' a d) :=
  ((((hb.fill a dirEntrySize 0).write a d.name).update (a + 11) d.attr).store _ _ _).store _ _ _
    |>.store _ _ _

structure SameHit (hit hit' : Hit) : Prop where
  sector : hit.sector = hit'.sector
  entry : hit.entry = hit'.entry
  inside : hit'.entry < dirEntriesPerSec
  buf : Agree hit.buf hit'.buf

theorem SameHit.found {hit hit' : Hit} (hh : SameHit hit hit') : hit.found = hit'.found := by
  rw [Hit.found, Hit.found, hh.sector, hh.entry, direntAt_same hh.buf (entry_inside hh.inside)]

inductive SameWalk (R : σ → τ → Prop) : Walk Hit × σ → Walk Hit × τ → Prop where
  | stop {s : σ} {t : τ} : R s t → SameWalk R (.stop, s) (.stop, t)
  | next {s : σ} {t : τ} : R s t → SameWalk R (.next, s) (.next, t)
  | hit {hit hit' : Hit} {s : σ} {t : τ} : SameHit hit hit' → R s t →
      SameWalk R (.hit hit, s) (.hit hit', t)

inductive SameWalkDir (R : σ → τ → Prop) :
    Option (Option Hit × σ) → Option (Option Hit × τ) → Prop where
  | loops : SameWalkDir R none none
  | ends {s : σ} {t : τ} : R s t → SameWalkDir R (some (none, s)) (some (none, t))
  | hit {hit hit' : Hit} {s : σ} {t : τ} : SameHit hit hit' → R s t →
      SameWalkDir R (some (some hit, s)) (some (some hit', t))

include h hR

theorem walkSectors_same {test : Mem → ℕ → Verdict} (htest : EntryTest test) (first n sec : ℕ) :
    SameWalk R (walkSectors ⟨l, dev₁⟩ test first n sec x)
      (walkSectors ⟨l, dev₂⟩ test first n sec y) := by
  induction n generalizing sec x y with
  | zero => exact .next hR
  | succ n ih =>
    rcases h.read hR ((first + sec) % 2 ^ 32) with
      ⟨x', y', e₁, e₂, hR'⟩ | ⟨b, b', x', y', e₁, e₂, hb, hR'⟩
    · simp only [walkSectors, e₁, e₂]
      exact .stop hR'
    · simp only [walkSectors, e₁, e₂, walkEntries_same htest hb (le_refl (0 + dirEntriesPerSec))]
      cases hwalk : walkEntries test b' dirEntriesPerSec 0 with
      | stop => exact .stop hR'
      | next => exact ih hR' (sec + 1)
      | hit ent =>
        have hent := (walkEntries_hit hwalk).1
        exact .hit ⟨rfl, rfl, by simpa using hent, hb⟩ hR'

theorem walkDir_same {test : Mem → ℕ → Verdict} (htest : EntryTest test) (fuel current : ℕ) :
    SameWalkDir R (walkDir ⟨l, dev₁⟩ test fuel current x)
      (walkDir ⟨l, dev₂⟩ test fuel current y) := by
  induction fuel generalizing current x y with
  | zero => exact .loops
  | succ fuel ih =>
    rw [walkDir, walkDir]
    split_ifs with hend
    · exact .ends hR
    · have hsectors := walkSectors_same h hR (l := l) htest (l.firstSector current)
        l.bpb.sectorsPerCluster 0
      generalize walkSectors ⟨l, dev₁⟩ test (l.firstSector current) l.bpb.sectorsPerCluster 0 x = p
        at hsectors
      generalize walkSectors ⟨l, dev₂⟩ test (l.firstSector current) l.bpb.sectorsPerCluster 0 y = q
        at hsectors
      cases hsectors with
      | stop hR' => exact .ends hR'
      | hit hh hR' => exact .hit hh hR'
      | next hR' =>
        obtain ⟨c, x₁, y₁, e₁, e₂, hR₁⟩ := nextCluster_same h hR' (l := l) current
        simp only [e₁, e₂]
        exact ih hR₁ c

theorem fat32Find_same (dir : ℕ) (target : List UInt8) :
    SameRun R (fat32Find ⟨l, dev₁⟩ dir target x) (fat32Find ⟨l, dev₂⟩ dir target y) := by
  have hwalk := walkDir_same h hR (l := l) (entryTest_find target) chainFuel dir
  rw [fat32Find, fat32Find]
  generalize walkDir ⟨l, dev₁⟩ (findTest target) chainFuel dir x = p at hwalk
  generalize walkDir ⟨l, dev₂⟩ (findTest target) chainFuel dir y = q at hwalk
  cases hwalk with
  | loops => exact .none
  | ends hR' => exact .some none hR'
  | hit hh hR' =>
    simp only [Option.map_some, hh.found]
    exact .some _ hR'

theorem findFreeDirentSlot_same (dir : ℕ) :
    SameRun R (findFreeDirentSlot ⟨l, dev₁⟩ dir x) (findFreeDirentSlot ⟨l, dev₂⟩ dir y) := by
  have hwalk := walkDir_same h hR (l := l) entryTest_free chainFuel dir
  rw [findFreeDirentSlot, findFreeDirentSlot]
  generalize walkDir ⟨l, dev₁⟩ freeTest chainFuel dir x = p at hwalk
  generalize walkDir ⟨l, dev₂⟩ freeTest chainFuel dir y = q at hwalk
  cases hwalk with
  | loops => exact .none
  | ends hR' => exact .some none hR'
  | hit hh hR' =>
    simp only [Option.map_some, hh.sector, hh.entry]
    exact .some _ hR'

theorem resolveLoop_same (n cur : ℕ) (start : List UInt8) :
    SameRun R (resolveLoop ⟨l, dev₁⟩ n cur start x) (resolveLoop ⟨l, dev₂⟩ n cur start y) := by
  induction n generalizing cur start x y with
  | zero => exact .some _ hR
  | succ n ih =>
    simp only [resolveLoop]
    split_ifs with hnil hslash hempty
    · exact .some _ hR
    · exact ih hR _ _
    · rcases fat32Find_same h hR (l := l) cur (to83 (start.takeWhile (· ≠ slash))) with
        ⟨e₁, e₂⟩ | ⟨found, x', y', e₁, e₂, hR'⟩
      · simp only [e₁, e₂]
        exact .none
      · simp only [e₁, e₂]
        cases found with
        | none => exact .some _ hR'
        | some found =>
          dsimp only
          split_ifs
          · exact ih hR' _ _
          · exact .some _ hR'
    · exact .some _ hR

theorem fat32Resolve_same (path : List UInt8) :
    SameRun R (fat32Resolve ⟨l, dev₁⟩ path x) (fat32Resolve ⟨l, dev₂⟩ path y) := by
  rw [fat32Resolve, fat32Resolve]
  dsimp only
  generalize (if path.head? = some slash then path.tail else path) = current
  split_ifs
  · exact .some _ hR
  · exact .some _ hR
  · exact resolveLoop_same h hR _ _ _

theorem rollback_same {α : Type} (a : α) (c : ℕ) :
    SameRun R (some (a, (writeFatEntry ⟨l, dev₁⟩ c fat32FreeCluster x).2))
      (some (a, (writeFatEntry ⟨l, dev₂⟩ c fat32FreeCluster y).2)) := by
  obtain ⟨ok, x', y', e₁, e₂, hR'⟩ := writeFatEntry_same h hR (l := l) c fat32FreeCluster
  rw [e₁, e₂]
  exact .some a hR'

theorem insertEntry_same (parent : ℕ) (entry : Dirent) (cluster : ℕ) :
    SameRun R (insertEntry ⟨l, dev₁⟩ parent entry cluster x)
      (insertEntry ⟨l, dev₂⟩ parent entry cluster y) := by
  simp only [insertEntry]
  rcases findFreeDirentSlot_same h hR (l := l) parent with
    ⟨e₁, e₂⟩ | ⟨slot, x₁, y₁, e₁, e₂, hR₁⟩
  · simp only [e₁, e₂]
    exact .none
  simp only [e₁, e₂]
  cases slot with
  | none => exact rollback_same h hR₁ false cluster
  | some slot =>
    obtain ⟨dirSector, dirEntry⟩ := slot
    rcases h.read hR₁ dirSector with ⟨x₂, y₂, e₃, e₄, hR₂⟩ | ⟨b, b', x₂, y₂, e₃, e₄, hb, hR₂⟩
    · simp only [e₃, e₄]
      exact rollback_same h hR₂ false cluster
    obtain ⟨ok, x₃, y₃, e₅, e₆, hR₃⟩ :=
      h.write hR₂ (putDirent_same hb (dirEntry * dirEntrySize) entry) dirSector
    simp only [e₃, e₄, e₅, e₆]
    cases ok with
    | false => exact rollback_same h hR₃ false cluster
    | true => exact .some true hR₃

theorem createEntry_same (parent : ℕ) (target : List UInt8) :
    SameRun R (createEntry ⟨l, dev₁⟩ parent target x) (createEntry ⟨l, dev₂⟩ parent target y) := by
  obtain ⟨c, x₁, y₁, e₁, e₂, hR₁⟩ := allocateCluster_same h hR (l := l) 0
  simp only [createEntry, e₁, e₂]
  split_ifs
  · exact .some none hR₁
  · rcases insertEntry_same h hR₁ (l := l) parent (newDirent target attrArchive c) c with
      ⟨e₃, e₄⟩ | ⟨ok, x₂, y₂, e₃, e₄, hR₂⟩
    · simp only [e₃, e₄]
      exact .none
    · simp only [e₃, e₄]
      cases ok with
      | false => exact .some none hR₂
      | true => exact .some _ hR₂

theorem fat32Open_same (path : List UInt8) (mode : UInt8) (files : Files) :
    SameRun R (fat32Open ⟨l, dev₁⟩ path mode files x) (fat32Open ⟨l, dev₂⟩ path mode files y) := by
  by_cases hvalid : ¬ l.Valid
  · rw [fat32Open, fat32Open, if_pos hvalid, if_pos hvalid]
    exact .some _ hR
  rw [fat32Open, fat32Open, if_neg hvalid, if_neg hvalid]
  rcases fat32Resolve_same h hR (l := l) path with ⟨e₁, e₂⟩ | ⟨resolved, x₁, y₁, e₁, e₂, hR₁⟩
  · simp only [e₁, e₂]
    exact .none
  simp only [e₁, e₂]
  obtain _ | ⟨parent, _ | target⟩ := resolved
  · exact .some _ hR₁
  · exact .some _ hR₁
  rcases fat32Find_same h hR₁ (l := l) parent target with ⟨e₃, e₄⟩ | ⟨found, x₂, y₂, e₃, e₄, hR₂⟩
  · simp only [e₃, e₄]
    exact .none
  simp only [e₃, e₄]
  cases found with
  | some found => exact .some _ hR₂
  | none =>
    dsimp only
    split_ifs
    · exact .some _ hR₂
    rcases createEntry_same h hR₂ (l := l) parent target with
      ⟨e₅, e₆⟩ | ⟨entry, x₃, y₃, e₅, e₆, hR₃⟩
    · simp only [e₅, e₆]
      exact .none
    · simp only [e₅, e₆]
      cases entry with
      | none => exact .some _ hR₃
      | some entry => exact .some _ hR₃

theorem skipClusters_same (n c : ℕ) :
    SameOut R (skipClusters ⟨l, dev₁⟩ n c x) (skipClusters ⟨l, dev₂⟩ n c y) := by
  induction n generalizing c x y with
  | zero => exact .mk _ hR
  | succ n ih =>
    obtain ⟨c', x₁, y₁, e₁, e₂, hR₁⟩ := nextCluster_same h hR (l := l) c
    simp only [skipClusters, e₁, e₂]
    split_ifs
    · exact .mk _ hR₁
    · exact ih hR₁ c'

omit hR in
theorem readLoop_same (n size : ℕ) (file : File) (bytes : List UInt8) {x : σ} {y : τ} (hR : R x y) :
    ∃ file' bytes' x' y',
      readLoop ⟨l, dev₁⟩ n size ⟨file, bytes, x⟩ = ⟨file', bytes', x'⟩ ∧
      readLoop ⟨l, dev₂⟩ n size ⟨file, bytes, y⟩ = ⟨file', bytes', y'⟩ ∧ R x' y' := by
  induction n generalizing size file bytes x y with
  | zero => exact ⟨file, bytes, x, y, rfl, rfl, hR⟩
  | succ n ih =>
    simp only [readLoop]
    by_cases hsize : size = 0
    · simp only [if_pos hsize]
      exact ⟨_, _, _, _, rfl, rfl, hR⟩
    simp only [if_neg hsize]
    obtain ⟨target, x₁, y₁, e₁, e₂, hR₁⟩ :=
      skipClusters_same h hR (l := l) (file.currOffset / l.bytesPerCluster) file.currCluster
    simp only [e₁, e₂]
    cases target with
    | none => exact ⟨_, _, _, _, rfl, rfl, hR₁⟩
    | some target =>
      dsimp only
      rcases h.read hR₁ (l.sectorOf target (file.currOffset % l.bytesPerCluster / sectorSize)) with
        ⟨x₂, y₂, e₃, e₄, hR₂⟩ | ⟨b, b', x₂, y₂, e₃, e₄, hb, hR₂⟩
      · simp only [e₃, e₄]
        exact ⟨_, _, _, _, rfl, rfl, hR₂⟩
      have hcopy : file.currOffset % sectorSize +
          min size (sectorSize - file.currOffset % sectorSize) ≤ sectorSize := by
        have := Nat.mod_lt file.currOffset (show 0 < sectorSize by decide)
        omega
      simp only [e₃, e₄, hb.read hcopy]
      by_cases hnext : l.bytesPerCluster ≤
          (file.currOffset + min size (sectorSize - file.currOffset % sectorSize)) % 2 ^ 32
      · simp only [if_pos hnext]
        obtain ⟨c, x₃, y₃, e₅, e₆, hR₃⟩ := nextCluster_same h hR₂ (l := l) file.currCluster
        simp only [e₅, e₆]
        by_cases hend : c = endOfChain
        · simp only [if_pos hend]
          exact ⟨_, _, _, _, rfl, rfl, hR₃⟩
        · simp only [if_neg hend]
          exact ih _ _ _ hR₃
      · simp only [if_neg hnext]
        exact ih _ _ _ hR₂

theorem fat32Read_same (file : File) (size : ℤ) :
    ∃ out file' x' y', fat32Read ⟨l, dev₁⟩ file size x = (out, file', x') ∧
      fat32Read ⟨l, dev₂⟩ file size y = (out, file', y') ∧ R x' y' := by
  simp only [fat32Read]
  split_ifs
  · exact ⟨_, _, _, _, rfl, rfl, hR⟩
  · obtain ⟨file', bytes, x', y', e₁, e₂, hR'⟩ :=
      readLoop_same h (l := l) (readSize file size) (readSize file size) file [] hR
    rw [e₁, e₂]
    exact ⟨_, _, _, _, rfl, rfl, hR'⟩

omit h hR

structure SameWrite (R : σ → τ → Prop) (w : WriteState σ) (w' : WriteState τ) : Prop where
  file : w.file = w'.file
  data : w.data = w'.data
  written : w.written = w'.written
  dev : R w.s w'.s

def SameRound (R : σ → τ → Prop) (p : Bool × WriteState σ) (q : Bool × WriteState τ) : Prop :=
  p.1 = q.1 ∧ SameWrite R p.2 q.2

variable {w : WriteState σ} {w' : WriteState τ} (hw : SameWrite R w w')
include h hw

theorem ensureCluster_same :
    SameRound R (ensureCluster ⟨l, dev₁⟩ w) (ensureCluster ⟨l, dev₂⟩ w') := by
  obtain ⟨c, x, y, e₁, e₂, hR⟩ := allocateCluster_same h hw.dev (l := l) 0
  simp only [ensureCluster, e₁, e₂, hw.file]
  split_ifs
  · exact ⟨rfl, hw⟩
  · exact ⟨rfl, rfl, hw.data, hw.written, hR⟩
  · exact ⟨rfl, rfl, hw.data, hw.written, hR⟩

theorem writeChunk_same : SameRound R (writeChunk ⟨l, dev₁⟩ w) (writeChunk ⟨l, dev₂⟩ w') := by
  have hcopy : w.toCopy = w'.toCopy := by
    rw [WriteState.toCopy, WriteState.toCopy, hw.file, hw.data]
  have hread : ∃ b b' x y,
      dev₁.read (l.sectorOf w'.file.currCluster (w'.file.currOffset / sectorSize)) w.s = (b, x) ∧
      dev₂.read (l.sectorOf w'.file.currCluster (w'.file.currOffset / sectorSize)) w'.s = (b', y) ∧
      Agree (b.getD fun _ => 0) (b'.getD fun _ => 0) ∧ R x y := by
    rcases h.read hw.dev (l.sectorOf w'.file.currCluster (w'.file.currOffset / sectorSize)) with
      ⟨x, y, e₁, e₂, hR⟩ | ⟨b, b', x, y, e₁, e₂, hb, hR⟩
    · exact ⟨_, _, x, y, e₁, e₂, .refl _, hR⟩
    · exact ⟨_, _, x, y, e₁, e₂, hb, hR⟩
  obtain ⟨b, b', x, y, e₁, e₂, hb, hR⟩ := hread
  obtain ⟨ok, x', y', e₃, e₄, hR'⟩ := h.write hR
    (hb.write (w'.file.currOffset % sectorSize) (w'.data.take w'.toCopy))
    (l.sectorOf w'.file.currCluster (w'.file.currOffset / sectorSize))
  simp only [writeChunk, hw.file, hw.data, hcopy, e₁, e₂, e₃, e₄]
  cases ok with
  | false => exact ⟨rfl, rfl, rfl, hw.written, hR'⟩
  | true =>
    refine ⟨rfl, rfl, rfl, ?_, hR'⟩
    simp only [hw.written]

theorem advance_same : SameRound R (advance ⟨l, dev₁⟩ w) (advance ⟨l, dev₂⟩ w') := by
  obtain ⟨next, x, y, e₁, e₂, hR⟩ := nextCluster_same h hw.dev (l := l) w'.file.currCluster
  obtain ⟨c, x', y', e₃, e₄, hR'⟩ := allocateCluster_same h hR (l := l) w'.file.currCluster
  simp only [advance, hw.file, e₁, e₂, e₃, e₄]
  split_ifs
  · exact ⟨rfl, hw⟩
  · exact ⟨rfl, rfl, hw.data, hw.written, hR'⟩
  · exact ⟨rfl, rfl, hw.data, hw.written, hR'⟩
  · exact ⟨rfl, rfl, hw.data, hw.written, hR⟩

theorem writeRound_same : SameRound R (writeRound ⟨l, dev₁⟩ w) (writeRound ⟨l, dev₂⟩ w') := by
  have hfirst := ensureCluster_same h hw (l := l)
  simp only [writeRound]
  generalize ensureCluster ⟨l, dev₁⟩ w = p at hfirst
  generalize ensureCluster ⟨l, dev₂⟩ w' = q at hfirst
  obtain ⟨ok, w₁⟩ := p
  obtain ⟨ok', w₁'⟩ := q
  obtain ⟨rfl, hw₁⟩ : ok = ok' ∧ SameWrite R w₁ w₁' := hfirst
  cases ok with
  | false => exact ⟨rfl, hw₁⟩
  | true =>
    have hchunk := writeChunk_same h hw₁ (l := l)
    dsimp only
    generalize writeChunk ⟨l, dev₁⟩ w₁ = p at hchunk
    generalize writeChunk ⟨l, dev₂⟩ w₁' = q at hchunk
    obtain ⟨ok, w₂⟩ := p
    obtain ⟨ok', w₂'⟩ := q
    obtain ⟨rfl, hw₂⟩ : ok = ok' ∧ SameWrite R w₂ w₂' := hchunk
    cases ok with
    | false => exact ⟨rfl, hw₂⟩
    | true => exact advance_same h hw₂

theorem writeLoop_same (n : ℕ) :
    SameWrite R (writeLoop ⟨l, dev₁⟩ n w) (writeLoop ⟨l, dev₂⟩ n w') := by
  induction n generalizing w w' with
  | zero => exact hw
  | succ n ih =>
    simp only [writeLoop, hw.data]
    split_ifs
    · exact hw
    · have hround := writeRound_same h hw (l := l)
      generalize writeRound ⟨l, dev₁⟩ w = p at hround
      generalize writeRound ⟨l, dev₂⟩ w' = q at hround
      obtain ⟨ok, w₁⟩ := p
      obtain ⟨ok', w₁'⟩ := q
      obtain ⟨rfl, hw₁⟩ : ok = ok' ∧ SameWrite R w₁ w₁' := hround
      cases ok with
      | false => exact hw₁
      | true => exact ih hw₁

omit hw
include hR

theorem fat32Write_same (file : File) (data : List UInt8) :
    (fat32Write ⟨l, dev₁⟩ file data x).1 = (fat32Write ⟨l, dev₂⟩ file data y).1 ∧
      SameWrite R (fat32Write ⟨l, dev₁⟩ file data x).2 (fat32Write ⟨l, dev₂⟩ file data y).2 := by
  have hstart : SameWrite R ⟨file, data, 0, x, []⟩ ⟨file, data, 0, y, []⟩ := ⟨rfl, rfl, rfl, hR⟩
  have hloop := writeLoop_same h hstart (l := l) data.length
  simp only [fat32Write]
  split_ifs
  · exact ⟨rfl, rfl, rfl, rfl, hR⟩
  · exact ⟨congrArg _ hloop.written, hloop⟩

theorem zeroSectors_same (first n i : ℕ) :
    SameOut R (zeroSectors ⟨l, dev₁⟩ first n i x) (zeroSectors ⟨l, dev₂⟩ first n i y) := by
  induction n generalizing i x y with
  | zero => exact .mk true hR
  | succ n ih =>
    obtain ⟨ok, x₁, y₁, e₁, e₂, hR₁⟩ :=
      h.write hR (Agree.refl fun _ => 0) ((first + i) % 2 ^ 32)
    simp only [zeroSectors, e₁, e₂]
    cases ok with
    | false => exact .mk false hR₁
    | true => exact ih hR₁ (i + 1)

theorem initDirectory_same (parent cluster : ℕ) :
    SameOut R (initDirectory ⟨l, dev₁⟩ parent cluster x)
      (initDirectory ⟨l, dev₂⟩ parent cluster y) := by
  obtain ⟨ok, x₁, y₁, e₁, e₂, hR₁⟩ :=
    zeroSectors_same h hR (l := l) (l.firstSector cluster) l.bpb.sectorsPerCluster 0
  simp only [initDirectory, e₁, e₂]
  cases ok with
  | false => exact .mk false hR₁
  | true =>
    rcases h.read hR₁ (l.firstSector cluster) with
      ⟨x₂, y₂, e₃, e₄, hR₂⟩ | ⟨b, b', x₂, y₂, e₃, e₄, hb, hR₂⟩
    · simp only [e₃, e₄]
      exact .mk false hR₂
    · simp only [e₃, e₄]
      exact h.write hR₂ (putDirent_same (putDirent_same hb _ _) _ _) _

theorem fat32Mkdir_same (path : List UInt8) :
    SameRun R (fat32Mkdir ⟨l, dev₁⟩ path x) (fat32Mkdir ⟨l, dev₂⟩ path y) := by
  by_cases hvalid : ¬ l.Valid
  · rw [fat32Mkdir, fat32Mkdir, if_pos hvalid, if_pos hvalid]
    exact .some _ hR
  rw [fat32Mkdir, fat32Mkdir, if_neg hvalid, if_neg hvalid]
  rcases fat32Resolve_same h hR (l := l) path with ⟨e₁, e₂⟩ | ⟨resolved, x₁, y₁, e₁, e₂, hR₁⟩
  · simp only [e₁, e₂]
    exact .none
  simp only [e₁, e₂]
  obtain _ | ⟨parent, _ | name⟩ := resolved
  · exact .some _ hR₁
  · exact .some _ hR₁
  rcases fat32Find_same h hR₁ (l := l) parent name with ⟨e₃, e₄⟩ | ⟨found, x₂, y₂, e₃, e₄, hR₂⟩
  · simp only [e₃, e₄]
    exact .none
  simp only [e₃, e₄]
  cases found with
  | some found => exact .some _ hR₂
  | none =>
    obtain ⟨c, x₃, y₃, e₅, e₆, hR₃⟩ := allocateCluster_same h hR₂ (l := l) 0
    simp only [e₅, e₆]
    split_ifs
    · exact .some _ hR₃
    obtain ⟨ok, x₄, y₄, e₇, e₈, hR₄⟩ := initDirectory_same h hR₃ (l := l) parent c
    simp only [e₇, e₈]
    cases ok with
    | false => exact rollback_same h hR₄ false c
    | true => exact insertEntry_same h hR₄ _ _ _

omit h hR

theorem listTest_same {b b' : Mem} (hb : Agree b b') {a : ℕ} (ha : a + dirEntrySize ≤ sectorSize) :
    listTest b a = listTest b' a := by
  have ha' : a + 32 ≤ sectorSize := ha
  simp only [listTest, hb a (by omega), hb (a + 11) (by omega)]

def SameEntry (R : σ → τ → Prop) (f : Dirent → Listing → σ → Option (Listing × σ))
    (g : Dirent → Listing → τ → Option (Listing × τ)) : Prop :=
  ∀ de out {s : σ} {t : τ}, R s t → SameRun R (f de out s) (g de out t)

def SameList (R : σ → τ → Prop) (p : Option (Bool × Listing × σ))
    (q : Option (Bool × Listing × τ)) :
    Prop :=
  (p = none ∧ q = none) ∨ ∃ go out x y, p = some (go, out, x) ∧ q = some (go, out, y) ∧ R x y

variable {f : Dirent → Listing → σ → Option (Listing × σ)}
  {g : Dirent → Listing → τ → Option (Listing × τ)} (hfg : SameEntry R f g)
include hfg hR

theorem listEntries_same {b b' : Mem} (hb : Agree b b') (n ent : ℕ) (out : Listing)
    (hn : ent + n ≤ dirEntriesPerSec) :
    SameList R (listEntries f b n ent out x) (listEntries g b' n ent out y) := by
  induction n generalizing ent out x y with
  | zero => exact Or.inr ⟨_, _, _, _, rfl, rfl, hR⟩
  | succ n ih =>
    have hent := entry_inside (show ent < dirEntriesPerSec by omega)
    simp only [listEntries, listTest_same hb hent, direntAt_same hb hent]
    cases listTest b' (ent * dirEntrySize) with
    | stop => exact Or.inr ⟨_, _, _, _, rfl, rfl, hR⟩
    | skip => exact ih hR _ _ (by omega)
    | print =>
      dsimp only
      rcases hfg (direntAt b' (ent * dirEntrySize)) out hR with
        ⟨e₁, e₂⟩ | ⟨out', x', y', e₁, e₂, hR'⟩
      · simp only [e₁, e₂]
        exact Or.inl ⟨rfl, rfl⟩
      · simp only [e₁, e₂]
        exact ih hR' _ _ (by omega)

include h

theorem listSectors_same (first n sec : ℕ) (out : Listing) :
    SameList R (listSectors f ⟨l, dev₁⟩ first n sec out x)
      (listSectors g ⟨l, dev₂⟩ first n sec out y) := by
  induction n generalizing sec out x y with
  | zero => exact Or.inr ⟨_, _, _, _, rfl, rfl, hR⟩
  | succ n ih =>
    rcases h.read hR ((first + sec) % 2 ^ 32) with
      ⟨x', y', e₁, e₂, hR'⟩ | ⟨b, b', x', y', e₁, e₂, hb, hR'⟩
    · simp only [listSectors, e₁, e₂]
      exact Or.inr ⟨_, _, _, _, rfl, rfl, hR'⟩
    · simp only [listSectors, e₁, e₂]
      rcases listEntries_same hR' hfg hb dirEntriesPerSec 0 out (by omega) with
        ⟨e₃, e₄⟩ | ⟨go, out', x₂, y₂, e₃, e₄, hR₂⟩
      · simp only [e₃, e₄]
        exact Or.inl ⟨rfl, rfl⟩
      · simp only [e₃, e₄]
        cases go with
        | false => exact Or.inr ⟨_, _, _, _, rfl, rfl, hR₂⟩
        | true => exact ih hR₂ _ _

theorem listDir_same (fuel current : ℕ) (out : Listing) :
    SameRun R (listDir f ⟨l, dev₁⟩ fuel current out x)
      (listDir g ⟨l, dev₂⟩ fuel current out y) := by
  induction fuel generalizing current out x y with
  | zero => exact .none
  | succ fuel ih =>
    rw [listDir, listDir]
    split_ifs
    · exact .some _ hR
    rcases listSectors_same h hR hfg (l := l) (l.firstSector current)
      l.bpb.sectorsPerCluster 0 out with
      ⟨e₁, e₂⟩ | ⟨go, out', x₁, y₁, e₁, e₂, hR₁⟩
    · simp only [e₁, e₂]
      exact .none
    · simp only [e₁, e₂]
      cases go with
      | false => exact .some _ hR₁
      | true =>
        obtain ⟨c, x₂, y₂, e₃, e₄, hR₂⟩ := nextCluster_same h hR₁ (l := l) current
        simp only [e₃, e₄]
        exact ih hR₂ _ _

omit hfg

theorem fat32ListDirFlat_same (dir : ℕ) (indent : List UInt8) (out : Listing) :
    SameRun R (fat32ListDirFlat ⟨l, dev₁⟩ dir indent out x)
      (fat32ListDirFlat ⟨l, dev₂⟩ dir indent out y) :=
  listDir_same h hR (fun de out _ _ hst => .some (flatEntry indent de out) hst) _ _ _

theorem listLevels_same (left dir : ℕ) (path : List UInt8) (out : Listing) :
    SameRun R (listLevels ⟨l, dev₁⟩ left dir path out x)
      (listLevels ⟨l, dev₂⟩ left dir path out y) := by
  induction left generalizing dir path out x y with
  | zero => exact .some _ hR
  | succ left ih =>
    refine listDir_same h hR (fun de out s t hst => ?_) _ _ _
    dsimp only
    split_ifs
    · exact ih hst _ _ _
    · exact .some _ hst

theorem fat32ListDirRecursive_same (dir : ℕ) (path : List UInt8) (depth : ℕ) (out : Listing) :
    SameRun R (fat32ListDirRecursive ⟨l, dev₁⟩ dir path depth out x)
      (fat32ListDirRecursive ⟨l, dev₂⟩ dir path depth out y) :=
  listLevels_same h hR _ _ _ _

omit h hR

theorem isFat32Direct_same {b b' : Mem} (hb : Agree b b') : isFat32Direct b = isFat32Direct b' := by
  have hread : ∀ n ≤ 11, ByteMemory.read b 82 n = ByteMemory.read b' 82 n := fun n hn =>
    hb.read (by simp only [sectorSize]; omega)
  simp only [isFat32Direct, bpbAt_congr hb, hasFsType, hasBootJump, fsTypes, List.any_cons,
    List.any_nil, List.length_cons, List.length_nil, hread 5 (by decide), hread 3 (by decide),
    hb 0 (by decide), hb 2 (by decide)]

theorem findPartition_same {b b' : Mem} (hb : Agree b b') : findPartition b = findPartition b' := by
  have htype : ∀ i < 4, b (0x1BE + i * 16 + 4) = b' (0x1BE + i * 16 + 4) := fun i hi =>
    hb _ (by simp only [sectorSize]; omega)
  have hstart : ∀ i < 4, load b (0x1BE + i * 16 + 8) 4 = load b' (0x1BE + i * 16 + 8) 4 :=
    fun i hi =>
    hb.load (by simp only [sectorSize]; omega)
  simp only [findPartition, List.range, List.range.loop, List.find?, htype 0 (by decide),
    htype 1 (by decide), htype 2 (by decide), htype 3 (by decide)]
  split
  · simp only [Option.map_some, hstart 0 (by decide)]
  split
  · simp only [Option.map_some, hstart 1 (by decide)]
  split
  · simp only [Option.map_some, hstart 2 (by decide)]
  split
  · simp only [Option.map_some, hstart 3 (by decide)]
  · rfl

include h hR

theorem partitionBoot_same {b b' : Mem} (hb : Agree b b') :
    ∃ boot boot' x' y', partitionBoot dev₁ b x = (boot, x') ∧ partitionBoot dev₂ b' y =
      (boot', y') ∧
      Option.Rel Agree boot boot' ∧ R x' y' := by
  have hsignature : hasMbrSignature b = hasMbrSignature b' := by
    rw [hasMbrSignature, hasMbrSignature, hb 510 (by decide), hb 511 (by decide)]
  rw [partitionBoot, partitionBoot, hsignature, findPartition_same hb]
  by_cases hsig : hasMbrSignature b' = true
  · rw [if_pos hsig, if_pos hsig]
    cases findPartition b' with
    | none => exact ⟨_, _, _, _, rfl, rfl, .none, hR⟩
    | some start =>
      dsimp only
      rcases h.read hR start with ⟨x', y', e₁, e₂, hR'⟩ | ⟨c, c', x', y', e₁, e₂, hc, hR'⟩
      · simp only [e₁, e₂]
        exact ⟨_, _, _, _, rfl, rfl, .none, hR'⟩
      · simp only [e₁, e₂]
        refine ⟨_, _, _, _, rfl, rfl, ?_, hR'⟩
        split_ifs
        · exact .none
        · exact .some hc
  · rw [if_neg hsig, if_neg hsig]
    exact ⟨_, _, _, _, rfl, rfl, .none, hR⟩

theorem fat32Mount_same (kmallocs : Bool) :
    ∃ (layout : Option Layout) (x' : σ) (y' : τ),
      fat32Mount dev₁ kmallocs x = (layout.map (⟨·, dev₁⟩), x') ∧
      fat32Mount dev₂ kmallocs y = (layout.map (⟨·, dev₂⟩), y') ∧ R x' y' := by
  rcases h.read hR 0 with ⟨x₁, y₁, e₁, e₂, hR₁⟩ | ⟨b, b', x₁, y₁, e₁, e₂, hb, hR₁⟩
  · simp only [fat32Mount, e₁, e₂]
    exact ⟨none, _, _, rfl, rfl, hR₁⟩
  obtain ⟨boot, boot', x₂, y₂, e₃, e₄, hboot, hR₂⟩ : ∃ boot boot' x' y',
      (if isFat32Direct b' then (some b, x₁) else partitionBoot dev₁ b x₁) = (boot, x') ∧
      (if isFat32Direct b' then (some b', y₁) else partitionBoot dev₂ b' y₁) = (boot', y') ∧
      Option.Rel Agree boot boot' ∧ R x' y' := by
    split_ifs
    · exact ⟨_, _, _, _, rfl, rfl, .some hb, hR₁⟩
    · exact partitionBoot_same h hR₁ hb
  simp only [fat32Mount, e₁, e₂, isFat32Direct_same hb, e₃, e₄]
  cases hboot with
  | none => exact ⟨none, _, _, rfl, rfl, hR₂⟩
  | some hc =>
    simp only [bpbAt_congr hc]
    split_ifs
    · exact ⟨none, _, _, rfl, rfl, hR₂⟩
    · exact ⟨some _, _, _, rfl, rfl, hR₂⟩
    · exact ⟨some _, _, _, rfl, rfl, hR₂⟩

end Simulation

inductive ApiCall where
  | open (path : List UInt8) (mode : UInt8)
  | read (handle : Fin maxOpenFiles) (size : ℤ)
  | write (handle : Fin maxOpenFiles) (data : List UInt8)
  | close (handle : Fin maxOpenFiles)
  | mkdir (path : List UInt8)
  | find (dir : ℕ) (name : List UInt8)
  | list (dir : ℕ) (indent : List UInt8)
  | tree (dir : ℕ) (path : List UInt8) (depth : ℕ)

inductive ApiReply where
  | handle (i : Option (Fin maxOpenFiles))
  | bytes (bs : Option (List UInt8))
  | count (n : ℤ)
  | done (ok : Bool)
  | found (f : Option Found)
  | listing (out : Listing)

section Sessions
variable {σ : Type} (fs : Fs σ)

/-- One call, with the table of open files. `none` is a call that does not return. -/
def apiCall (files : Files) (s : σ) : ApiCall → Option ((ApiReply × Files) × σ)
  | .open path mode =>
    (fat32Open fs path mode files s).map fun r => ((.handle r.1.1, r.1.2), r.2)
  | .read i size =>
    let r := fat32Read fs (files i) size s
    some ((.bytes r.1, Function.update files i r.2.1), r.2.2)
  | .write i data =>
    let r := fat32Write fs (files i) data s
    some ((.count r.1, Function.update files i r.2.file), r.2.s)
  | .close i => some ((.done true, Function.update files i (fat32Close (files i))), s)
  | .mkdir path => (fat32Mkdir fs path s).map fun r => ((.done r.1, files), r.2)
  | .find dir name => (fat32Find fs dir name s).map fun r => ((.found r.1, files), r.2)
  | .list dir indent =>
    (fat32ListDirFlat fs dir indent ⟨[], 0, 0⟩ s).map fun r => ((.listing r.1, files), r.2)
  | .tree dir path depth =>
    (fat32ListDirRecursive fs dir path depth ⟨[], 0, 0⟩ s).map fun r => ((.listing r.1, files), r.2)

def apiRun : List ApiCall → Files → σ → Option ((List ApiReply × Files) × σ)
  | [], files, s => some (([], files), s)
  | c :: cs, files, s =>
    (apiCall fs files s c).bind fun r =>
      (apiRun cs r.1.2 r.2).map fun r' => ((r.1.1 :: r'.1.1, r'.1.2), r'.2)

omit fs in
/-- A mount and the calls after it; the replies are `none` when the mount fails. -/
def volumeSession (dev : BlockDev σ) (kmallocs : Bool) (calls : List ApiCall) (files : Files)
    (s : σ) :
    Option (Option (List ApiReply × Files) × σ) :=
  match fat32Mount dev kmallocs s with
  | (none, s) => some (none, s)
  | (some fs, s) => (apiRun fs calls files s).map fun r => (some r.1, r.2)

end Sessions

section Runs
variable {σ τ : Type} {dev₁ : BlockDev σ} {dev₂ : BlockDev τ} {R : σ → τ → Prop}
  (h : Simulates dev₁ dev₂ R) {l : Layout} {x : σ} {y : τ} (hR : R x y)
include h hR

theorem apiCall_same (files : Files) (c : ApiCall) :
    SameRun R (apiCall ⟨l, dev₁⟩ files x c) (apiCall ⟨l, dev₂⟩ files y c) := by
  cases c with
  | «open» path mode =>
    exact (fat32Open_same h hR path mode files).map fun r => (ApiReply.handle r.1, r.2)
  | read i size =>
    obtain ⟨out, file, x', y', e₁, e₂, hR'⟩ := fat32Read_same h hR (l := l) (files i) size
    simp only [apiCall, e₁, e₂]
    exact .some _ hR'
  | write i data =>
    obtain ⟨hcount, hw⟩ := fat32Write_same h hR (l := l) (files i) data
    simp only [apiCall, hcount, hw.file]
    exact .some _ hw.dev
  | close i => exact .some _ hR
  | mkdir path => exact (fat32Mkdir_same h hR path).map fun ok => (ApiReply.done ok, files)
  | find dir name => exact (fat32Find_same h hR dir name).map fun r => (ApiReply.found r, files)
  | list dir indent =>
    exact (fat32ListDirFlat_same h hR dir indent _).map fun out => (ApiReply.listing out, files)
  | tree dir path depth =>
    exact (fat32ListDirRecursive_same h hR dir path depth _).map fun out =>
      (ApiReply.listing out, files)

theorem apiRun_same (calls : List ApiCall) (files : Files) :
    SameRun R (apiRun ⟨l, dev₁⟩ calls files x) (apiRun ⟨l, dev₂⟩ calls files y) := by
  induction calls generalizing files x y with
  | nil => exact .some _ hR
  | cons c calls ih =>
    rcases apiCall_same h hR (l := l) files c with ⟨e₁, e₂⟩ | ⟨r, x', y', e₁, e₂, hR'⟩
    · simp only [apiRun, e₁, e₂]
      exact .none
    · simp only [apiRun, e₁, e₂, Option.bind_some]
      exact (ih hR' r.2).map fun r' => (r.1 :: r'.1, r'.2)

theorem volumeSession_same (kmallocs : Bool) (calls : List ApiCall) (files : Files) :
    SameRun R (volumeSession dev₁ kmallocs calls files x)
      (volumeSession dev₂ kmallocs calls files y) := by
  obtain ⟨layout, x', y', e₁, e₂, hR'⟩ := fat32Mount_same h hR kmallocs
  rw [volumeSession, volumeSession, e₁, e₂]
  cases layout with
  | none => exact .some none hR'
  | some l => exact (apiRun_same h hR' calls files).map some

end Runs

def withTail {σ : Type} (dev : BlockDev σ) (tail : ℕ → σ → Mem) : BlockDev σ where
  read s x :=
    ((dev.read s x).1.map fun b i => if i < sectorSize then b i else tail s x i, (dev.read s x).2)
  write s b x := dev.write s (fun i => if i < sectorSize then b i else tail s x i) x

theorem withTail_simulates (tail : ℕ → Faulty → Mem) :
    Simulates (withTail faultyDisk tail) faultyDisk Eq := by
  constructor
  · rintro d _ rfl s
    cases hread : faultyDisk.read s d with
    | mk b d' =>
      cases b with
      | none => exact Or.inl ⟨d', d', by simp [withTail, hread], rfl, rfl⟩
      | some b =>
        refine Or.inr ⟨_, b, d', d', by simp [withTail, hread]; rfl, rfl, ?_, rfl⟩
        intro i hi
        simp only [if_pos hi]
  · rintro d _ b b' rfl hb s
    have hagree : Agree (fun i => if i < sectorSize then b i else tail s d i) b' := by
      intro i hi
      simp only [if_pos hi, hb i hi]
    have hwrite : (withTail faultyDisk tail).write s b d = faultyDisk.write s b' d := by
      simp only [withTail, faultyDisk, putSector_congr hagree]
    exact ⟨_, _, _, hwrite, rfl, rfl⟩

/-- On any disk, with any accesses failing, a mount and every sequence of calls
return the same and leave the same disk whatever lies behind the 512 bytes of each
sector buffer. -/
theorem sector_buffers_bounded (tail : ℕ → Faulty → Mem) (kmallocs : Bool) (l : Layout)
    (calls : List ApiCall) (files : Files) (d : Faulty) :
    (fat32Mount (withTail faultyDisk tail) kmallocs d).1.map (·.toLayout) =
        (fat32Mount faultyDisk kmallocs d).1.map (·.toLayout) ∧
      (fat32Mount (withTail faultyDisk tail) kmallocs d).2 = (fat32Mount faultyDisk kmallocs d).2 ∧
      apiRun ⟨l, withTail faultyDisk tail⟩ calls files d =
        apiRun ⟨l, faultyDisk⟩ calls files d := by
  have hsim := withTail_simulates tail
  obtain ⟨layout, x, y, hx, hy, rfl⟩ := fat32Mount_same hsim (rfl : d = d) kmallocs
  refine ⟨?_, ?_, ?_⟩
  · rw [hx, hy, Option.map_map, Option.map_map]
    rfl
  · rw [hx, hy]
  · rcases apiRun_same hsim (rfl : d = d) (l := l) calls files with ⟨hx, hy⟩ | ⟨r, x, y,
      hx, hy, rfl⟩
    · rw [hx, hy]
    · rw [hx, hy]

end XldKernel.Fat32
