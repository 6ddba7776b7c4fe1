import XldKernel.DeviceLocality
import XldKernel.FatSimulation

/-!
# FAT32 on two devices that agree on the sectors it asks for

Every function of `kernel/src/fat32.c` and `kernel/src/fat32_ls.c` is a sequence of
accesses to the device: what it returns is settled by the answers it gets. So
are a mount and the calls after it.
-/

namespace XldKernel.Fat32
open ByteMemory BlockDevice

section Locality
variable {σ : Type} {dev₁ dev₂ : BlockDev σ} {lost : σ → Prop} (h : AgreeUntil dev₁ dev₂ lost)
  (l : Layout)
include h

theorem readFatEntry_until (c : ℕ) :
    Until dev₁ dev₂ lost fun dev x => some (readFatEntry ⟨l, dev⟩ c x) := by
  refine (h.until_read ((l.fatStart + c * 4 % 2 ^ 32 / sectorSize) % 2 ^ 32)).step fun b x => ?_
  cases b with
  | none => exact ⟨_, until_pure _, fun dev y e => by simp only [readFatEntry, e]; rfl⟩
  | some b => exact ⟨_, until_pure _, fun dev y e => by simp only [readFatEntry, e]; rfl⟩

theorem writeFatEntry_until (c v : ℕ) :
    Until dev₁ dev₂ lost fun dev x => some (writeFatEntry ⟨l, dev⟩ c v x) := by
  refine (h.until_read ((l.fatStart + c * 4 % 2 ^ 32 / sectorSize) % 2 ^ 32)).step fun b x => ?_
  cases b with
  | none => exact ⟨_, until_pure false, fun dev y e => by simp only [writeFatEntry, e]⟩
  | some b => exact ⟨_, h.until_write _ _, fun dev y e => by simp only [writeFatEntry, e]; rfl⟩

theorem nextCluster_until (c : ℕ) :
    Until dev₁ dev₂ lost fun dev x => some (nextCluster ⟨l, dev⟩ c x) :=
  (readFatEntry_until h l c).step fun entry x =>
    ⟨_, until_pure (linkOf entry), fun dev y e => by simp only [nextCluster, e]⟩

theorem freeing_until {α : Type} (c : ℕ) (a : α) :
    Until dev₁ dev₂ lost fun dev x =>
      some (a, (writeFatEntry ⟨l, dev⟩ c fat32FreeCluster x).2) :=
  (writeFatEntry_until h l c fat32FreeCluster).step fun _ x =>
    ⟨_, until_pure a, fun dev y e => by simp only [e]⟩

theorem claimCluster_until (prev c : ℕ) :
    Until dev₁ dev₂ lost fun dev x => some (claimCluster ⟨l, dev⟩ prev c x) := by
  refine (writeFatEntry_until h l c 0x0FFFFFFF).step fun ok x => ?_
  cases ok with
  | false => exact ⟨_, until_pure 0, fun dev y e => by simp only [claimCluster, e]⟩
  | true =>
    by_cases hprev : prev ≠ 0
    · refine ⟨_, ?_, fun dev y e => by simp only [claimCluster, e, if_pos hprev]; rfl⟩
      refine (writeFatEntry_until h l prev c).step fun ok x => ?_
      cases ok with
      | false => exact ⟨_, freeing_until h l c 0, fun dev y e => by simp only [e]⟩
      | true => exact ⟨_, until_pure c, fun dev y e => by simp only [e]⟩
    · exact ⟨_, until_pure c, fun dev y e => by simp only [claimCluster, e, if_neg hprev]⟩

theorem allocateScan_until (prev n c : ℕ) :
    Until dev₁ dev₂ lost fun dev x => some (allocateScan ⟨l, dev⟩ prev n c x) := by
  induction n generalizing c with
  | zero => exact until_pure 0
  | succ n ih =>
    refine (readFatEntry_until h l c).step fun entry x => ?_
    by_cases hfree : entry = fat32FreeCluster
    · exact ⟨_, claimCluster_until h l prev c, fun dev y e => by
        simp only [allocateScan, e, if_pos hfree]⟩
    · exact ⟨_, ih (c + 1), fun dev y e => by simp only [allocateScan, e, if_neg hfree]⟩

theorem allocateCluster_until (prev : ℕ) :
    Until dev₁ dev₂ lost fun dev x => some (allocateCluster ⟨l, dev⟩ prev x) :=
  allocateScan_until h l prev _ _

theorem walkSectors_until (test : Mem → ℕ → Verdict) (first n sec : ℕ) :
    Until dev₁ dev₂ lost fun dev x => some (walkSectors ⟨l, dev⟩ test first n sec x) := by
  induction n generalizing sec with
  | zero => exact until_pure Walk.next
  | succ n ih =>
    refine (h.until_read ((first + sec) % 2 ^ 32)).step fun b x => ?_
    cases b with
    | none => exact ⟨_, until_pure .stop, fun dev y e => by simp only [walkSectors, e]⟩
    | some b =>
      cases hwalk : walkEntries test b dirEntriesPerSec 0 with
      | stop => exact ⟨_, until_pure .stop, fun dev y e => by simp only [walkSectors, e, hwalk]⟩
      | hit ent => exact ⟨_, until_pure _, fun dev y e => by simp only [walkSectors, e, hwalk]; rfl⟩
      | next => exact ⟨_, ih (sec + 1), fun dev y e => by simp only [walkSectors, e, hwalk]⟩

theorem walkDir_until (test : Mem → ℕ → Verdict) (fuel current : ℕ) :
    Until dev₁ dev₂ lost fun dev x => walkDir ⟨l, dev⟩ test fuel current x := by
  induction fuel generalizing current with
  | zero => exact until_none
  | succ fuel ih =>
    by_cases hend : current = endOfChain
    · simp only [walkDir, if_pos hend]
      exact until_pure none
    · refine (walkSectors_until h l test (l.firstSector current) l.bpb.sectorsPerCluster 0).step
        fun walk x => ?_
      cases walk with
      | stop => exact ⟨_, until_pure none, fun dev y e => by simp only [walkDir, if_neg hend, e]⟩
      | hit hit =>
        exact ⟨_, until_pure (some hit), fun dev y e => by simp only [walkDir, if_neg hend, e]⟩
      | next =>
        refine ⟨_, ?_, fun dev y e => by simp only [walkDir, if_neg hend, e]; rfl⟩
        exact (nextCluster_until h l current).step fun c x =>
          ⟨_, ih c, fun dev y e => by simp only [e]⟩

theorem fat32Find_until (dir : ℕ) (target : List UInt8) :
    Until dev₁ dev₂ lost fun dev x => fat32Find ⟨l, dev⟩ dir target x :=
  (walkDir_until h l (findTest target) chainFuel dir).map (Option.map Hit.found)

theorem findFreeDirentSlot_until (dir : ℕ) :
    Until dev₁ dev₂ lost fun dev x => findFreeDirentSlot ⟨l, dev⟩ dir x :=
  (walkDir_until h l freeTest chainFuel dir).map (Option.map fun hit => (hit.sector, hit.entry))

theorem resolveLoop_until (n cur : ℕ) (start : List UInt8) :
    Until dev₁ dev₂ lost fun dev x => resolveLoop ⟨l, dev⟩ n cur start x := by
  induction n generalizing cur start with
  | zero => exact until_pure _
  | succ n ih =>
    simp only [resolveLoop]
    split_ifs with hstart hslash hempty
    · exact until_pure _
    · exact ih _ _
    · refine (fat32Find_until h l cur (to83 (start.takeWhile (· ≠ slash)))).bind
        (fun dev x e => by simp only [e]) fun found x => ?_
      cases found with
      | none => exact ⟨_, until_pure none, fun dev y e => by simp only [e]⟩
      | some found =>
        by_cases hdir : found.dirent.IsDir
        · exact ⟨_, ih _ _, fun dev y e => by simp only [e, if_pos hdir]; rfl⟩
        · exact ⟨_, until_pure none, fun dev y e => by simp only [e, if_neg hdir]⟩
    · exact until_pure _

theorem fat32Resolve_until (path : List UInt8) :
    Until dev₁ dev₂ lost fun dev x => fat32Resolve ⟨l, dev⟩ path x := by
  simp only [fat32Resolve]
  split_ifs
  · exact until_pure _
  · exact until_pure none
  · exact resolveLoop_until h l _ _ _
  · exact until_pure none
  · exact resolveLoop_until h l _ _ _

theorem insertEntry_until (parent : ℕ) (entry : Dirent) (cluster : ℕ) :
    Until dev₁ dev₂ lost fun dev x => insertEntry ⟨l, dev⟩ parent entry cluster x := by
  refine (findFreeDirentSlot_until h l parent).bind (fun dev x e => by simp only [insertEntry, e])
    fun slot x => ?_
  rcases slot with _ | ⟨dirSector, dirEntry⟩
  · exact ⟨_, freeing_until h l cluster false, fun dev y e => by simp only [insertEntry, e]⟩
  · refine ⟨_, ?_, fun dev y e => by simp only [insertEntry, e]; rfl⟩
    refine (h.until_read dirSector).step fun b x => ?_
    cases b with
    | none => exact ⟨_, freeing_until h l cluster false, fun dev y e => by simp only [e]⟩
    | some b =>
      refine ⟨_, ?_, fun dev y e => by simp only [e]; rfl⟩
      refine (h.until_write dirSector (putDirent b (dirEntry * dirEntrySize) entry)).step
        fun ok x => ?_
      cases ok with
      | false => exact ⟨_, freeing_until h l cluster false, fun dev y e => by simp only [e]⟩
      | true => exact ⟨_, until_pure true, fun dev y e => by simp only [e]⟩

theorem createEntry_until (parent : ℕ) (target : List UInt8) :
    Until dev₁ dev₂ lost fun dev x => createEntry ⟨l, dev⟩ parent target x := by
  refine (allocateCluster_until h l 0).step fun c x => ?_
  by_cases hc : c = 0
  · exact ⟨_, until_pure none, fun dev y e => by simp only [createEntry, e, if_pos hc]⟩
  · refine ⟨_, ?_, fun dev y e => by simp only [createEntry, e, if_neg hc]; rfl⟩
    refine (insertEntry_until h l parent (newDirent target attrArchive c) c).bind
      (fun dev x e => by simp only [e]) fun ok x => ?_
    cases ok with
    | false => exact ⟨_, until_pure none, fun dev y e => by simp only [e]⟩
    | true => exact ⟨_, until_pure _, fun dev y e => by simp only [e]; rfl⟩

theorem fat32Open_until (path : List UInt8) (mode : UInt8) (files : Files) :
    Until dev₁ dev₂ lost fun dev x => fat32Open ⟨l, dev⟩ path mode files x := by
  by_cases hvalid : l.Valid
  · simp only [fat32Open, not_not.mpr hvalid, if_false]
    refine (fat32Resolve_until h l path).bind (fun dev x e => by simp only [e]) fun resolved x => ?_
    rcases resolved with _ | ⟨parent, _ | target⟩
    · exact ⟨_, until_pure (none, files), fun dev y e => by simp only [e]⟩
    · exact ⟨_, until_pure (none, files), fun dev y e => by simp only [e]⟩
    · refine ⟨_, ?_, fun dev y e => by simp only [e]; rfl⟩
      refine (fat32Find_until h l parent target).bind (fun dev x e => by simp only [e])
        fun found x => ?_
      cases found with
      | some found => exact ⟨_, until_pure _, fun dev y e => by simp only [e]; rfl⟩
      | none =>
        by_cases hmode : mode ≠ charW ∧ mode ≠ charA
        · exact ⟨_, until_pure (none, files), fun dev y e => by simp only [e, if_pos hmode]⟩
        · refine ⟨_, ?_, fun dev y e => by simp only [e, if_neg hmode]; rfl⟩
          refine (createEntry_until h l parent target).bind (fun dev x e => by simp only [e])
            fun entry x => ?_
          cases entry with
          | none => exact ⟨_, until_pure (none, files), fun dev y e => by simp only [e]⟩
          | some entry => exact ⟨_, until_pure _, fun dev y e => by simp only [e]; rfl⟩
  · simp only [fat32Open, hvalid, not_false_eq_true, if_true]
    exact until_pure (none, files)

theorem skipClusters_until (n c : ℕ) :
    Until dev₁ dev₂ lost fun dev x => some (skipClusters ⟨l, dev⟩ n c x) := by
  induction n generalizing c with
  | zero => exact until_pure (some c)
  | succ n ih =>
    refine (nextCluster_until h l c).step fun c x => ?_
    by_cases hend : c = endOfChain
    · exact ⟨_, until_pure none, fun dev y e => by simp only [skipClusters, e, if_pos hend]⟩
    · exact ⟨_, ih c, fun dev y e => by simp only [skipClusters, e, if_neg hend]⟩

omit h in
def ReadState.parts (r : ReadState σ) : (File × List UInt8) × σ := ((r.file, r.bytes), r.s)

theorem readLoop_until (n size : ℕ) (file : File) (bytes : List UInt8) :
    Until dev₁ dev₂ lost fun dev x =>
      some (readLoop ⟨l, dev⟩ n size ⟨file, bytes, x⟩).parts := by
  induction n generalizing size file bytes with
  | zero => exact until_pure (file, bytes)
  | succ n ih =>
    by_cases hsize : size = 0
    · simp only [readLoop, if_pos hsize]
      exact until_pure (file, bytes)
    · simp only [readLoop, if_neg hsize]
      refine (skipClusters_until h l (file.currOffset / l.bytesPerCluster) file.currCluster).step
        fun target x => ?_
      cases target with
      | none => exact ⟨_, until_pure (file, bytes), fun dev y e => by simp only [e]; rfl⟩
      | some target =>
        refine ⟨_, ?_, fun dev y e => by simp only [e]; rfl⟩
        refine (h.until_read
          (l.sectorOf target (file.currOffset % l.bytesPerCluster / sectorSize))).step fun b x => ?_
        cases b with
        | none => exact ⟨_, until_pure (file, bytes), fun dev y e => by simp only [e]; rfl⟩
        | some b =>
          refine ⟨_, ?_, fun dev y e => by simp only [e]; rfl⟩
          split_ifs with hcluster
          · refine (nextCluster_until h l file.currCluster).step fun next x => ?_
            by_cases hend : next = endOfChain
            · exact ⟨_, until_pure _, fun dev y e =>
                by simp only [e, if_pos hend, ReadState.parts]; rfl⟩
            · exact ⟨_, ih _ _ _, fun dev y e => by simp only [e, if_neg hend]; rfl⟩
          · exact ih _ _ _

theorem fat32Read_until (file : File) (size : ℤ) :
    Until dev₁ dev₂ lost fun dev x =>
      some (((fat32Read ⟨l, dev⟩ file size x).1, (fat32Read ⟨l, dev⟩ file size x).2.1),
        (fat32Read ⟨l, dev⟩ file size x).2.2) := by
  simp only [fat32Read]
  split_ifs
  · exact until_pure (none, file)
  · exact (readLoop_until h l _ _ file []).step fun r x => ⟨_, until_pure (some r.2, r.1),
      fun dev y e => by rw [ReadState.parts, Prod.mk.injEq] at e; rw [← e.1, e.2]⟩

omit h in
def roundParts (r : Bool × WriteState σ) :
    (Bool × File × List UInt8 × ℕ × List (Event σ)) × σ :=
  ((r.1, r.2.file, r.2.data, r.2.written, r.2.trace), r.2.s)

omit h in
theorem roundParts_eq {r : Bool × WriteState σ} {ok : Bool} {file : File} {data : List UInt8}
    {written : ℕ} {trace : List (Event σ)} {y : σ}
    (hr : roundParts r = ((ok, file, data, written, trace), y)) :
    r = (ok, ⟨file, data, written, y, trace⟩) := by
  obtain ⟨b, w⟩ := r
  simp only [roundParts, Prod.mk.injEq] at hr
  obtain ⟨⟨rfl, rfl, rfl, rfl, rfl⟩, rfl⟩ := hr
  rfl

section Rounds
variable (file : File) (data : List UInt8) (written : ℕ) (trace : List (Event σ))

theorem ensureCluster_until :
    Until dev₁ dev₂ lost fun dev x =>
      some (roundParts (ensureCluster ⟨l, dev⟩ ⟨file, data, written, x, trace⟩)) := by
  by_cases hcurr : file.currCluster ≠ 0
  · simp only [ensureCluster, if_pos hcurr]
    exact until_pure (true, file, data, written, trace)
  · simp only [ensureCluster, if_neg hcurr]
    refine (allocateCluster_until h l 0).step fun c x => ?_
    by_cases hc : c = 0
    · exact ⟨_, until_pure _, fun dev y e => by simp only [e, if_pos hc, roundParts]; rfl⟩
    · exact ⟨_, until_pure _, fun dev y e => by simp only [e, if_neg hc, roundParts]; rfl⟩

theorem writeChunk_until :
    Until dev₁ dev₂ lost fun dev x =>
      some (roundParts (writeChunk ⟨l, dev⟩ ⟨file, data, written, x, trace⟩)) := by
  simp only [writeChunk]
  refine (h.until_read (l.sectorOf file.currCluster (file.currOffset / sectorSize))).step
    fun b x => ⟨_, ?_, fun dev y e => by simp only [e]; rfl⟩
  refine (h.until_write (l.sectorOf file.currCluster (file.currOffset / sectorSize))
    (write (b.getD fun _ => 0) (file.currOffset % sectorSize)
      (data.take (WriteState.toCopy ⟨file, data, written, x, trace⟩)))).step fun ok x => ?_
  cases ok with
  | false => exact ⟨_, until_pure _, fun dev y e => by simp only [e, roundParts]; rfl⟩
  | true => exact ⟨_, until_pure _, fun dev y e => by simp only [e, roundParts]; rfl⟩

theorem advance_until :
    Until dev₁ dev₂ lost fun dev x =>
      some (roundParts (advance ⟨l, dev⟩ ⟨file, data, written, x, trace⟩)) := by
  by_cases hinside : file.currOffset < l.bytesPerCluster
  · simp only [advance, if_pos hinside]
    exact until_pure (true, file, data, written, trace)
  · simp only [advance, if_neg hinside]
    refine (nextCluster_until h l file.currCluster).step fun next x => ?_
    by_cases hend : next = endOfChain
    · refine ⟨_, ?_, fun dev y e => by simp only [e, if_pos hend]; rfl⟩
      refine (allocateCluster_until h l file.currCluster).step fun c x => ?_
      by_cases hc : c = 0
      · exact ⟨_, until_pure _, fun dev y e => by simp only [e, if_pos hc, roundParts]; rfl⟩
      · exact ⟨_, until_pure _, fun dev y e => by simp only [e, if_neg hc, roundParts]; rfl⟩
    · exact ⟨_, until_pure _, fun dev y e => by simp only [e, if_neg hend, roundParts]; rfl⟩

theorem writeRound_until :
    Until dev₁ dev₂ lost fun dev x =>
      some (roundParts (writeRound ⟨l, dev⟩ ⟨file, data, written, x, trace⟩)) := by
  refine (ensureCluster_until h l file data written trace).step fun r x => ?_
  obtain ⟨ok, file, data, written, trace⟩ := r
  cases ok with
  | false => exact ⟨_, until_pure (false, file, data, written, trace), fun dev y e => by
      simp only [writeRound, roundParts_eq e]; rfl⟩
  | true =>
    refine ⟨_, ?_, fun dev y e => by simp only [writeRound, roundParts_eq e]; rfl⟩
    refine (writeChunk_until h l file data written trace).step fun r x => ?_
    obtain ⟨ok, file, data, written, trace⟩ := r
    cases ok with
    | false => exact ⟨_, until_pure (false, file, data, written, trace), fun dev y e => by
        simp only [roundParts_eq e]; rfl⟩
    | true => exact ⟨_, advance_until h l file data written trace, fun dev y e => by
        simp only [roundParts_eq e]⟩

theorem writeLoop_until (n : ℕ) :
    Until dev₁ dev₂ lost fun dev x =>
      some (roundParts (true, writeLoop ⟨l, dev⟩ n ⟨file, data, written, x, trace⟩)) := by
  induction n generalizing file data written trace with
  | zero => exact until_pure (true, file, data, written, trace)
  | succ n ih =>
    by_cases hdata : data = []
    · simp only [writeLoop, if_pos hdata]
      exact until_pure (true, file, data, written, trace)
    · simp only [writeLoop, if_neg hdata]
      refine (writeRound_until h l file data written trace).step fun r x => ?_
      obtain ⟨ok, file, data, written, trace⟩ := r
      cases ok with
      | false => exact ⟨_, until_pure (true, file, data, written, trace), fun dev y e => by
          simp only [roundParts_eq e]; rfl⟩
      | true => exact ⟨_, ih file data written trace, fun dev y e => by
          simp only [roundParts_eq e]⟩

end Rounds

theorem fat32Write_until (file : File) (data : List UInt8) :
    Until dev₁ dev₂ lost fun dev x =>
      some (((fat32Write ⟨l, dev⟩ file data x).1, (fat32Write ⟨l, dev⟩ file data x).2.file),
        (fat32Write ⟨l, dev⟩ file data x).2.s) := by
  simp only [fat32Write]
  split_ifs
  · exact until_pure (-1, file)
  · refine (writeLoop_until h l file data 0 [] data.length).step fun r x => ?_
    obtain ⟨-, file, data, written, trace⟩ := r
    refine ⟨_, until_pure ((written : ℤ), file), fun dev y e => ?_⟩
    have hw := Prod.mk.inj (roundParts_eq e)
    simp only [hw.2]

theorem zeroSectors_until (first n i : ℕ) :
    Until dev₁ dev₂ lost fun dev x => some (zeroSectors ⟨l, dev⟩ first n i x) := by
  induction n generalizing i with
  | zero => exact until_pure true
  | succ n ih =>
    refine (h.until_write ((first + i) % 2 ^ 32) fun _ => 0).step fun ok x => ?_
    cases ok with
    | false => exact ⟨_, until_pure false, fun dev y e => by simp only [zeroSectors, e]⟩
    | true => exact ⟨_, ih (i + 1), fun dev y e => by simp only [zeroSectors, e]⟩

theorem initDirectory_until (parent cluster : ℕ) :
    Until dev₁ dev₂ lost fun dev x => some (initDirectory ⟨l, dev⟩ parent cluster x) := by
  refine (zeroSectors_until h l (l.firstSector cluster) l.bpb.sectorsPerCluster 0).step
    fun ok x => ?_
  cases ok with
  | false => exact ⟨_, until_pure false, fun dev y e => by simp only [initDirectory, e]⟩
  | true =>
    refine ⟨_, ?_, fun dev y e => by simp only [initDirectory, e]; rfl⟩
    refine (h.until_read (l.firstSector cluster)).step fun b x => ?_
    cases b with
    | none => exact ⟨_, until_pure false, fun dev y e => by simp only [e]⟩
    | some b => exact ⟨_, h.until_write _ _, fun dev y e => by simp only [e]; rfl⟩

theorem fat32Mkdir_until (path : List UInt8) :
    Until dev₁ dev₂ lost fun dev x => fat32Mkdir ⟨l, dev⟩ path x := by
  by_cases hvalid : l.Valid
  · simp only [fat32Mkdir, not_not.mpr hvalid, if_false]
    refine (fat32Resolve_until h l path).bind (fun dev x e => by simp only [e]) fun resolved x => ?_
    rcases resolved with _ | ⟨parent, _ | name⟩
    · exact ⟨_, until_pure false, fun dev y e => by simp only [e]⟩
    · exact ⟨_, until_pure false, fun dev y e => by simp only [e]⟩
    · refine ⟨_, ?_, fun dev y e => by simp only [e]; rfl⟩
      refine (fat32Find_until h l parent name).bind (fun dev x e => by simp only [e])
        fun found x => ?_
      cases found with
      | some found => exact ⟨_, until_pure false, fun dev y e => by simp only [e]⟩
      | none =>
        refine ⟨_, ?_, fun dev y e => by simp only [e]; rfl⟩
        refine (allocateCluster_until h l 0).step fun c x => ?_
        by_cases hc : c = 0
        · exact ⟨_, until_pure false, fun dev y e => by simp only [e, if_pos hc]⟩
        · refine ⟨_, ?_, fun dev y e => by simp only [e, if_neg hc]; rfl⟩
          refine (initDirectory_until h l parent c).step fun ok x => ?_
          cases ok with
          | false => exact ⟨_, freeing_until h l c false, fun dev y e => by simp only [e]⟩
          | true => exact ⟨_, insertEntry_until h l parent _ c, fun dev y e => by
              simp only [e]; rfl⟩
  · simp only [fat32Mkdir, hvalid, not_false_eq_true, if_true]
    exact until_pure false

omit h in
def EntryUntil (dev₁ dev₂ : BlockDev σ) (lost : σ → Prop)
    (f : BlockDev σ → Dirent → Listing → σ → Option (Listing × σ)) : Prop :=
  ∀ de out, Until dev₁ dev₂ lost fun dev x => f dev de out x

omit h in
def listParts (o : Option (Bool × Listing × σ)) : Option ((Bool × Listing) × σ) :=
  o.map fun r => ((r.1, r.2.1), r.2.2)

omit h in
theorem listParts_none {o : Option (Bool × Listing × σ)} (ho : listParts o = none) : o = none := by
  simpa [listParts] using ho

omit h in
theorem listParts_some {o : Option (Bool × Listing × σ)} {b : Bool} {out : Listing} {y : σ}
    (ho : listParts o = some ((b, out), y)) : o = some (b, out, y) := by
  obtain ⟨r, hr, heq⟩ := Option.map_eq_some_iff.mp ho
  simp only [Prod.mk.injEq] at heq
  obtain ⟨⟨rfl, rfl⟩, rfl⟩ := heq
  exact hr

section Listings
variable {f : BlockDev σ → Dirent → Listing → σ → Option (Listing × σ)}
  (hf : EntryUntil dev₁ dev₂ lost f)
include hf

omit h in
theorem listEntries_until (b : Mem) (n ent : ℕ) (out : Listing) :
    Until dev₁ dev₂ lost fun dev x => listParts (listEntries (f dev) b n ent out x) := by
  induction n generalizing ent out with
  | zero => exact until_pure (true, out)
  | succ n ih =>
    simp only [listEntries]
    cases listTest b (ent * dirEntrySize) with
    | stop => exact until_pure (false, out)
    | skip => exact ih (ent + 1) out
    | print =>
      exact (hf (direntAt b (ent * dirEntrySize)) out).bind (fun dev x e => by simp only [e]; rfl)
        fun out x => ⟨_, ih (ent + 1) out, fun dev y e => by simp only [e]⟩

theorem listSectors_until (first n sec : ℕ) (out : Listing) :
    Until dev₁ dev₂ lost fun dev x =>
      listParts (listSectors (f dev) ⟨l, dev⟩ first n sec out x) := by
  induction n generalizing sec out with
  | zero => exact until_pure (true, out)
  | succ n ih =>
    simp only [listSectors]
    refine (h.until_read ((first + sec) % 2 ^ 32)).step fun b x => ?_
    cases b with
    | none => exact ⟨_, until_pure (false, out), fun dev y e => by simp only [e]; rfl⟩
    | some b =>
      refine ⟨_, ?_, fun dev y e => by simp only [e]; rfl⟩
      refine (listEntries_until hf b dirEntriesPerSec 0 out).bind
        (fun dev x e => by simp only [listParts_none e]; rfl) fun r x => ?_
      obtain ⟨more, out⟩ := r
      cases more with
      | false => exact ⟨_, until_pure (false, out), fun dev y e => by
          simp only [listParts_some e]; rfl⟩
      | true => exact ⟨_, ih (sec + 1) out, fun dev y e => by simp only [listParts_some e]⟩

theorem listDir_until (fuel current : ℕ) (out : Listing) :
    Until dev₁ dev₂ lost fun dev x => listDir (f dev) ⟨l, dev⟩ fuel current out x := by
  induction fuel generalizing current out with
  | zero => exact until_none
  | succ fuel ih =>
    by_cases hend : current = endOfChain ∨ current < 2
    · simp only [listDir, if_pos hend]
      exact until_pure out
    · simp only [listDir, if_neg hend]
      refine (listSectors_until h l hf (l.firstSector current) l.bpb.sectorsPerCluster 0 out).bind
        (fun dev x e => by simp only [listParts_none e]) fun r x => ?_
      obtain ⟨more, out⟩ := r
      cases more with
      | false => exact ⟨_, until_pure out, fun dev y e => by simp only [listParts_some e]⟩
      | true =>
        refine ⟨_, ?_, fun dev y e => by simp only [listParts_some e]; rfl⟩
        exact (nextCluster_until h l current).step fun c x =>
          ⟨_, ih c out, fun dev y e => by simp only [e]⟩

end Listings

theorem fat32ListDirFlat_until (dir : ℕ) (indent : List UInt8) (out : Listing) :
    Until dev₁ dev₂ lost fun dev x => fat32ListDirFlat ⟨l, dev⟩ dir indent out x :=
  listDir_until h l (f := fun _ de out s => some (flatEntry indent de out, s))
    (fun _ _ => until_pure _) chainFuel dir out

theorem listLevels_until (left dir : ℕ) (path : List UInt8) (out : Listing) :
    Until dev₁ dev₂ lost fun dev x => listLevels ⟨l, dev⟩ left dir path out x := by
  induction left generalizing dir path out with
  | zero => exact until_pure _
  | succ left ih =>
    simp only [listLevels]
    refine listDir_until h l (f := fun dev de out s => _) (fun de out => ?_) chainFuel dir out
    by_cases hdir : de.IsDir
    · simp only [if_pos hdir]
      exact ih _ _ _
    · simp only [if_neg hdir]
      exact until_pure _

theorem apiCall_until (files : Files) (c : ApiCall) :
    Until dev₁ dev₂ lost fun dev x => apiCall ⟨l, dev⟩ files x c := by
  cases c with
  | «open» path mode =>
    exact (fat32Open_until h l path mode files).map fun r => (ApiReply.handle r.1, r.2)
  | read i size =>
    exact (fat32Read_until h l (files i) size).map fun r =>
      (ApiReply.bytes r.1, Function.update files i r.2)
  | write i data =>
    exact (fat32Write_until h l (files i) data).map fun r =>
      (ApiReply.count r.1, Function.update files i r.2)
  | close i => exact until_pure _
  | mkdir path => exact (fat32Mkdir_until h l path).map fun r => (ApiReply.done r, files)
  | find dir name => exact (fat32Find_until h l dir name).map fun r => (ApiReply.found r, files)
  | list dir indent =>
    exact (fat32ListDirFlat_until h l dir indent ⟨[], 0, 0⟩).map fun r =>
      (ApiReply.listing r, files)
  | tree dir path depth =>
    exact (listLevels_until h l (11 - depth) dir path ⟨[], 0, 0⟩).map fun r =>
      (ApiReply.listing r, files)

theorem apiRun_until (calls : List ApiCall) (files : Files) :
    Until dev₁ dev₂ lost fun dev x => apiRun ⟨l, dev⟩ calls files x := by
  induction calls generalizing files with
  | nil => exact until_pure ([], files)
  | cons c calls ih =>
    refine (apiCall_until h l files c).bind (fun dev x e => by simp only [apiRun, e]; rfl)
      fun r x => ⟨_, (ih r.2).map fun r' => (r.1 :: r'.1, r'.2), fun dev y e => ?_⟩
    simp only [apiRun, e, Option.bind_some]

omit l in
theorem partitionBoot_until (b : Mem) :
    Until dev₁ dev₂ lost fun dev x => some (partitionBoot dev b x) := by
  simp only [partitionBoot]
  split_ifs with hsig
  · cases findPartition b with
    | none => exact until_pure none
    | some lba =>
      refine (h.until_read lba).step fun boot x => ?_
      cases boot with
      | none => exact ⟨_, until_pure none, fun dev y e => by simp only [e]⟩
      | some boot => exact ⟨_, until_pure _, fun dev y e => by simp only [e]; rfl⟩
  · exact until_pure none

omit h l in
theorem fat32Mount_device (dev : BlockDev σ) (kmallocs : Bool) (x : σ) :
    fat32Mount dev kmallocs x =
      ((fat32Mount dev kmallocs x).1.map fun fs => ⟨fs.toLayout, dev⟩,
        (fat32Mount dev kmallocs x).2) := by
  simp only [fat32Mount]
  split
  · rfl
  · split
    · rfl
    · split_ifs <;> rfl

omit l in
theorem fat32Mount_until (kmallocs : Bool) :
    Until dev₁ dev₂ lost fun dev x =>
      some ((fat32Mount dev kmallocs x).1.map (·.toLayout), (fat32Mount dev kmallocs x).2) := by
  have hboot (b : Mem) : Until dev₁ dev₂ lost fun dev x =>
      some (if isFat32Direct b then (some b, x) else partitionBoot dev b x) := by
    split_ifs
    · exact until_pure (some b)
    · exact partitionBoot_until h b
  refine (h.until_read 0).step fun b x => ?_
  cases b with
  | none => exact ⟨_, until_pure none, fun dev y e => by simp only [fat32Mount, e]; rfl⟩
  | some b =>
    refine ⟨_, ?_, fun dev y e => by simp only [fat32Mount, e]; rfl⟩
    refine (hboot b).step fun boot x => ?_
    cases boot with
    | none => exact ⟨_, until_pure none, fun dev y e => by simp only [e]; rfl⟩
    | some boot =>
      refine ⟨_, ?_, fun dev y e => by simp only [e]; rfl⟩
      split_ifs
      · exact until_pure none
      · simp only [Option.map_some]
        exact until_pure _
      · simp only [Option.map_some]
        exact until_pure _

omit l in
theorem volumeSession_until (kmallocs : Bool) (calls : List ApiCall) (files : Files) :
    Until dev₁ dev₂ lost fun dev x => volumeSession dev kmallocs calls files x := by
  refine (fat32Mount_until h kmallocs).step fun layout x => ?_
  have hmount {dev : BlockDev σ} {y : σ} (e : ((fat32Mount dev kmallocs x).1.map (·.toLayout),
      (fat32Mount dev kmallocs x).2) = (layout, y)) :
      fat32Mount dev kmallocs x = (layout.map (⟨·, dev⟩), y) := by
    obtain ⟨rfl, rfl⟩ := Prod.mk.inj e
    rw [fat32Mount_device, Option.map_map, Option.map_map]
    rfl
  cases layout with
  | none => exact ⟨_, until_pure none, fun dev y e => by simp only [volumeSession, hmount e]; rfl⟩
  | some l =>
    exact ⟨_, (apiRun_until h l calls files).map some, fun dev y e => by
      simp only [volumeSession, hmount e, Option.map_some]⟩

end Locality

end XldKernel.Fat32
