import XldKernel.FatWriteRuns

/-!
# FAT32: writing to a device that fails now and then

Any read or write of a sector may fail. A failed access of the table never changes
it, an allocation either claims a cluster, changes nothing, or leaves a cluster
marked that no chain reaches, and a link that cannot be read counts as an end mark.
From what one round of `fat32_write` can do under all of these follows in which
clusters it writes.
-/

namespace XldKernel.Fat32
open ByteMemory BlockDevice LinkedPath

def Layout.faulty (l : Layout) : Fs Faulty := ⟨l, faultyDisk⟩

@[simp] theorem Layout.faulty_toLayout (l : Layout) : l.faulty.toLayout = l := rfl
@[simp] theorem Layout.faulty_dev (l : Layout) : l.faulty.dev = faultyDisk := rfl

variable {l : Layout} {m : Mem} {c : ℕ} {cs : List ℕ}

theorem read_faulty (s : ℕ) (d : Faulty) : ∃ d' : Faulty, d'.mem = d.mem ∧
    (faultyDisk.read s d = (none, d') ∨ faultyDisk.read s d = (some (sector d.mem s), d')) := by
  refine ⟨{ d with readFails := fun n => d.readFails (n + 1) }, rfl, ?_⟩
  simp only [faultyDisk]
  split_ifs
  · exact Or.inl rfl
  · exact Or.inr rfl

theorem write_faulty (s : ℕ) (buf : Mem) (d : Faulty) : ∃ d' : Faulty,
    (faultyDisk.write s buf d = (false, d') ∧ d'.mem = d.mem) ∨
    (faultyDisk.write s buf d = (true, d') ∧ d'.mem = putSector d.mem s buf) := by
  simp only [faultyDisk]
  split_ifs
  · exact ⟨_, Or.inl ⟨rfl, rfl⟩⟩
  · exact ⟨_, Or.inr ⟨rfl, rfl⟩⟩

theorem readFatEntry_faulty (l : Layout) (c : ℕ) (d : Faulty) : ∃ e d',
    readFatEntry l.faulty c d = (e, d') ∧ d'.mem = d.mem ∧
      (e = fat32BadCluster ∨ e = l.entry d.mem c) := by
  obtain ⟨d', hmem, hread⟩ :=
    read_faulty ((l.fatStart + c * 4 % 2 ^ 32 / sectorSize) % 2 ^ 32) d
  simp only [readFatEntry, Layout.faulty_toLayout, Layout.faulty_dev]
  rcases hread with hread | hread
  · exact ⟨_, d', by rw [hread], hmem, Or.inl rfl⟩
  · refine ⟨_, d', by rw [hread], hmem, Or.inr ?_⟩
    rw [load_sector, Layout.entry, Layout.fatAddr]

theorem writeFatEntry_faulty (l : Layout) (c v : ℕ) (d : Faulty) : ∃ d' : Faulty,
    (writeFatEntry l.faulty c v d = (false, d') ∧ d'.mem = d.mem) ∨
    (writeFatEntry l.faulty c v d = (true, d') ∧ d'.mem = l.setEntry d.mem c v) := by
  obtain ⟨d₁, hmem, hread⟩ :=
    read_faulty ((l.fatStart + c * 4 % 2 ^ 32 / sectorSize) % 2 ^ 32) d
  simp only [writeFatEntry, Layout.faulty_toLayout, Layout.faulty_dev]
  rcases hread with hread | hread
  · exact ⟨d₁, Or.inl ⟨by rw [hread], hmem⟩⟩
  · simp only [hread, load_sector]
    obtain ⟨d', ⟨hwrite, hmem'⟩ | ⟨hwrite, hmem'⟩⟩ := write_faulty _ _ d₁
    · exact ⟨d', Or.inl ⟨hwrite, hmem'.trans hmem⟩⟩
    · refine ⟨d', Or.inr ⟨hwrite, ?_⟩⟩
      rw [hmem', hmem, putSector_store _ (entryOffset_le c), Layout.setEntry, Layout.fatAddr]

theorem nextCluster_faulty (l : Layout) (c : ℕ) (d : Faulty) : ∃ c' d',
    nextCluster l.faulty c d = (c', d') ∧ d'.mem = d.mem ∧
      (c' = endOfChain ∨ c' = l.next d.mem c) := by
  obtain ⟨e, d', hread, hmem, he⟩ := readFatEntry_faulty l c d
  refine ⟨linkOf e, d', by rw [nextCluster, hread], hmem, ?_⟩
  rcases he with rfl | rfl
  · exact Or.inl rfl
  · exact Or.inr rfl

/-- What an allocation behind `prev` may return and leave on the disk. -/
inductive AllocOutcome (l : Layout) (m : Mem) (prev : ℕ) : ℕ → Mem → Prop
  | none : AllocOutcome l m prev 0 m
  | lost {y : ℕ} (hy : 2 ≤ y) (hend : y < scanEnd) (hfree : l.entry m y = 0) :
      AllocOutcome l m prev 0 (l.setEntry m y 0x0FFFFFFF)
  | claimed {y : ℕ} (hy : 2 ≤ y) (hend : y < scanEnd) (hfree : l.entry m y = 0) :
      AllocOutcome l m prev y (l.claim m prev y)

theorem AllocOutcome.of_ne_zero {prev : ℕ} {m' : Mem} (h : AllocOutcome l m prev c m')
    (h0 : c ≠ 0) :
    c < scanEnd ∧ l.entry m c = 0 ∧ m' = l.claim m prev c := by
  cases h with
  | none => exact absurd rfl h0
  | lost => exact absurd rfl h0
  | claimed _ hend hfree => exact ⟨hend, hfree, rfl⟩

inductive ClaimOutcome (l : Layout) (m : Mem) (prev y : ℕ) : ℕ → Mem → Prop
  | none : ClaimOutcome l m prev y 0 m
  | lost : ClaimOutcome l m prev y 0 (l.setEntry m y 0x0FFFFFFF)
  | claimed : ClaimOutcome l m prev y y (l.claim m prev y)

theorem ClaimOutcome.alloc {prev y : ℕ} {m' : Mem} (h : ClaimOutcome l m prev y c m') (hy : 2 ≤ y)
    (hend : y < scanEnd) (hfree : l.entry m y = 0) : AllocOutcome l m prev c m' := by
  cases h with
  | none => exact .none
  | lost => exact .lost hy hend hfree
  | claimed => exact .claimed hy hend hfree

theorem claimCluster_faulty (l : Layout) (prev : ℕ) {y : ℕ} {d : Faulty}
    (hfree : l.entry d.mem y = 0) : ∃ c d',
    claimCluster l.faulty prev y d = (c, d') ∧ ClaimOutcome l d.mem prev y c d'.mem := by
  obtain ⟨d₁, ⟨hmark, hmem₁⟩ | ⟨hmark, hmem₁⟩⟩ := writeFatEntry_faulty l y 0x0FFFFFFF d
  · refine ⟨0, d₁, by rw [claimCluster, hmark], ?_⟩
    rw [hmem₁]
    exact .none
  by_cases hprev : prev ≠ 0
  · obtain ⟨d₂, ⟨hlink, hmem₂⟩ | ⟨hlink, hmem₂⟩⟩ := writeFatEntry_faulty l prev y d₁
    · -- the mark is taken back, unless that fails as well
      obtain ⟨d₃, ⟨hback, hmem₃⟩ | ⟨hback, hmem₃⟩⟩ := writeFatEntry_faulty l y fat32FreeCluster d₂
      · refine ⟨0, d₃, by simp only [claimCluster, hmark, if_pos hprev, hlink, hback], ?_⟩
        rw [hmem₃, hmem₂, hmem₁]
        exact .lost
      · refine ⟨0, d₃, by simp only [claimCluster, hmark, if_pos hprev, hlink, hback], ?_⟩
        rw [hmem₃, hmem₂, hmem₁, fat32FreeCluster, setEntry_free l _ _ hfree]
        exact .none
    · refine ⟨y, d₂, by simp only [claimCluster, hmark, if_pos hprev, hlink], ?_⟩
      have hclaim : d₂.mem = l.claim d.mem prev y := by
        rw [hmem₂, hmem₁, Layout.claim, if_pos hprev]
      rw [hclaim]
      exact .claimed
  · refine ⟨y, d₁, by simp only [claimCluster, hmark, if_neg hprev], ?_⟩
    have hclaim : d₁.mem = l.claim d.mem prev y := by
      rw [hmem₁, Layout.claim, if_neg hprev]
    rw [hclaim]
    exact .claimed

theorem allocateScan_faulty (l : Layout) (prev n y : ℕ) (d : Faulty) (hy : 2 ≤ y)
    (hend : y + n ≤ scanEnd) : ∃ c d',
    allocateScan l.faulty prev n y d = (c, d') ∧ AllocOutcome l d.mem prev c d'.mem := by
  induction n generalizing y d with
  | zero => exact ⟨0, d, rfl, .none⟩
  | succ n ih =>
    obtain ⟨e, d₁, hread, hmem, he⟩ := readFatEntry_faulty l y d
    by_cases h0 : e = fat32FreeCluster
    · -- a failed read never shows a free cluster
      have hfree : l.entry d₁.mem y = 0 := by
        rcases he with rfl | rfl
        · exact absurd h0 (by decide)
        · rw [hmem]
          exact h0
      obtain ⟨c, d', hclaim, hout⟩ := claimCluster_faulty l prev hfree
      rw [hmem] at hout hfree
      exact ⟨c, d', by rw [allocateScan, hread]; simp only [if_pos h0, hclaim],
        hout.alloc hy (by omega) hfree⟩
    · obtain ⟨c, d', hrest, hout⟩ := ih (y + 1) d₁ (by omega) (by omega)
      rw [hmem] at hout
      exact ⟨c, d', by rw [allocateScan, hread]; simp only [if_neg h0, hrest], hout⟩

theorem allocateCluster_faulty (l : Layout) (prev : ℕ) (d : Faulty) : ∃ c d',
    allocateCluster l.faulty prev d = (c, d') ∧ AllocOutcome l d.mem prev c d'.mem :=
  allocateScan_faulty l prev (scanEnd - 2) 2 d le_rfl (by decide)

def Poised (l : Layout) (m : Mem) (f : File) : Prop :=
  (f.firstCluster = 0 ∧ f.currCluster = 0) ∨
    ∃ cs, Chain l m f.firstCluster cs ∧ f.currCluster ∈ cs

theorem Poised.chain {f : File} (h : Poised l m f) (hcurr : f.currCluster ≠ 0) :
    ∃ cs, Chain l m f.firstCluster cs ∧ f.currCluster ∈ cs := by
  rcases h with ⟨-, h0⟩ | h
  · exact absurd h0 hcurr
  · exact h

def OwnSector (l : Layout) : Event Faulty → Prop
  | .alloc _ => True
  | .data sec first d => ∃ cs, Chain l d.mem first cs ∧
      ∃ c ∈ cs, ∃ i < l.bpb.sectorsPerCluster, sec = l.sectorOf c i

def AllocsInside {σ : Type} (l : Layout) (trace : List (Event σ)) : Prop :=
  ∀ c, Event.alloc c ∈ trace → c ≠ 0 → l.InVolume c

theorem AllocsInside.mono {σ : Type} {t t' : List (Event σ)} (h : AllocsInside l t')
    (hpre : t <+: t') : AllocsInside l t :=
  fun c hc => h c (hpre.subset hc)

instance {σ : Type} (l : Layout) (trace : List (Event σ)) : Decidable (AllocsInside l trace) :=
  decidable_of_iff (∀ c ∈ allocs trace, c ≠ 0 → l.InVolume c)
    ⟨fun h c hc => h c (mem_allocs.mpr hc), fun h c hc => h c (mem_allocs.mp hc)⟩

structure Tracked (l : Layout) (w : WriteState Faulty) : Prop where
  poised : Poised l w.s.mem w.file
  own : ∀ e ∈ w.trace, OwnSector l e

theorem own_snoc {t : List (Event Faulty)} {last : Event Faulty} (h : ∀ e ∈ t, OwnSector l e)
    (hlast : OwnSector l last) : ∀ e ∈ t ++ [last], OwnSector l e := by
  intro e he
  rcases List.mem_append.mp he with hmem | hmem
  · exact h e hmem
  · rwa [List.mem_singleton.mp hmem]

theorem ensureCluster_le_writeRound {σ : Type} (fs : Fs σ) (w : WriteState σ) :
    (ensureCluster fs w).2.trace <+: (writeRound fs w).2.trace := by
  rw [writeRound]
  split
  · next w₁ heq => rw [heq]
  · next w₁ heq =>
    rw [heq]
    have h1 := writeChunk_trace fs w₁
    split
    · next w₂ heq₂ => rwa [heq₂] at h1
    · next w₂ heq₂ =>
      rw [heq₂] at h1
      exact h1.trans (advance_trace fs w₂)

theorem writeRound_le_writeLoop {σ : Type} (fs : Fs σ) (n : ℕ) {w : WriteState σ}
    (h : w.data ≠ []) :
    (writeRound fs w).2.trace <+: (writeLoop fs (n + 1) w).trace := by
  rw [writeLoop, if_neg h]
  split
  · next w₁ heq => rw [heq]
  · next w₁ heq =>
    rw [heq]
    exact writeLoop_trace fs w₁ n

section Rounds
variable (hg : l.Geometry)
include hg

theorem AllocOutcome.chain {prev : ℕ} {m' : Mem} (h : AllocOutcome l m prev 0 m')
    (hch : Chain l m c cs) : Chain l m' c cs := by
  cases h with
  | none => exact hch
  | @lost y hy hend hfree =>
    refine hch.congr fun x hx => entry_setEntry_scan hg hend (hch.range x hx).2 ?_ _
    rintro rfl
    exact hch.not_free hx hfree
  | claimed hy => exact absurd hy (by decide)

theorem entry_putSector {x i z : ℕ} (hx : l.InVolume x) (hi : i < l.bpb.sectorsPerCluster)
    (hz : z < l.clusters) (buf : Mem) :
    l.entry (putSector m (l.sectorOf x i) buf) z = l.entry m z := by
  apply entry_congr hg hz
  intro a ha
  apply putSector_apart
  have hle := hg.table_le
  have h2 := ha.2
  rw [sectorOf_eq hg hx hi]
  simp only [sectorSize] at *
  rw [Nat.mul_add, Nat.mul_add] at *
  omega

theorem Chain.putSector (hch : Chain l m c cs) {x i : ℕ} (hx : x ∈ cs)
    (hi : i < l.bpb.sectorsPerCluster) (buf : Mem) :
    Chain l (putSector m (l.sectorOf x i) buf) c cs :=
  hch.congr fun z hz => entry_putSector hg (hch.range x hx) hi (hch.range z hz).2 buf

theorem ensureCluster_faulty {w : WriteState Faulty} (hw : Tracked l w)
    (hallocs : AllocsInside l (ensureCluster l.faulty w).2.trace)
    (hoff : w.file.currOffset < l.bytesPerCluster) :
    Tracked l (ensureCluster l.faulty w).2 ∧
    ((ensureCluster l.faulty w).1 = true →
      (ensureCluster l.faulty w).2.file.currOffset < l.bytesPerCluster ∧
      (ensureCluster l.faulty w).2.file.currCluster ≠ 0) := by
  by_cases hcurr : w.file.currCluster ≠ 0
  · rw [ensureCluster, if_pos hcurr]
    exact ⟨hw, fun _ => ⟨hoff, hcurr⟩⟩
  · obtain ⟨c, d', halloc, hout⟩ := allocateCluster_faulty l 0 w.s
    have hown := own_snoc hw.own (show OwnSector l (.alloc c) from trivial)
    simp only [ensureCluster, if_neg hcurr, halloc] at hallocs ⊢
    by_cases h0 : c = 0
    · rw [if_pos h0]
      exact ⟨⟨Or.inl ⟨h0, not_not.mp hcurr⟩, hown⟩, fun h => absurd h (by simp)⟩
    · rw [if_neg h0] at hallocs ⊢
      have hv : l.InVolume c := hallocs c (by simp) h0
      refine ⟨⟨Or.inr ⟨[c], ?_, by simp⟩, hown⟩, fun _ => ⟨hg.bytes_pos, h0⟩⟩
      rw [(hout.of_ne_zero h0).2.2]
      exact Chain.fresh hg hv

theorem writeChunk_faulty {w : WriteState Faulty}
    (hch : Chain l w.s.mem w.file.firstCluster cs) (hmem : w.file.currCluster ∈ cs)
    (hoff : w.file.currOffset < l.bytesPerCluster) :
    Chain l (writeChunk l.faulty w).2.s.mem w.file.firstCluster cs ∧
    (writeChunk l.faulty w).2.file.currCluster = w.file.currCluster ∧
    (writeChunk l.faulty w).2.file.firstCluster = w.file.firstCluster ∧
    ((∀ e ∈ w.trace, OwnSector l e) → ∀ e ∈ (writeChunk l.faulty w).2.trace, OwnSector l e) := by
  have hi : w.file.currOffset / sectorSize < l.bpb.sectorsPerCluster := by
    rw [hg.bytes] at hoff
    exact Nat.div_lt_of_lt_mul hoff
  obtain ⟨d₁, hmem₁, hread⟩ :=
    read_faulty (l.sectorOf w.file.currCluster (w.file.currOffset / sectorSize)) w.s
  have hown : OwnSector l (.data (l.sectorOf w.file.currCluster (w.file.currOffset / sectorSize))
      w.file.firstCluster d₁) := by
    refine ⟨cs, ?_, _, hmem, _, hi, rfl⟩
    rwa [hmem₁]
  have hread' : ∃ buf, faultyDisk.read
      (l.sectorOf w.file.currCluster (w.file.currOffset / sectorSize)) w.s = (buf, d₁) := by
    rcases hread with h | h
    · exact ⟨_, h⟩
    · exact ⟨_, h⟩
  obtain ⟨buf, hbuf⟩ := hread'
  simp only [writeChunk, Layout.faulty_toLayout, Layout.faulty_dev, hbuf]
  obtain ⟨d₂, ⟨hwrite, hmem₂⟩ | ⟨hwrite, hmem₂⟩⟩ := write_faulty
    (l.sectorOf w.file.currCluster (w.file.currOffset / sectorSize))
    (write (buf.getD fun _ => 0) (w.file.currOffset % sectorSize) (w.data.take w.toCopy)) d₁
  · rw [hwrite]
    refine ⟨?_, rfl, rfl, fun h => own_snoc h hown⟩
    rw [hmem₂, hmem₁]
    exact hch
  · rw [hwrite]
    refine ⟨?_, rfl, rfl, fun h => own_snoc h hown⟩
    rw [hmem₂, hmem₁]
    exact hch.putSector hg hmem hi _

theorem advance_faulty {w : WriteState Faulty} (hw : Tracked l w) (hcurr : w.file.currCluster ≠ 0)
    (hallocs : AllocsInside l (advance l.faulty w).2.trace) :
    Tracked l (advance l.faulty w).2 ∧
    ((advance l.faulty w).1 = true →
      (advance l.faulty w).2.file.currOffset < l.bytesPerCluster) := by
  obtain ⟨cs, hch, hmem⟩ := hw.poised.chain hcurr
  by_cases hoff : w.file.currOffset < l.faulty.bytesPerCluster
  · rw [advance, if_pos hoff]
    exact ⟨hw, fun _ => hoff⟩
  obtain ⟨next, d₁, hnext, hmem₁, hlink⟩ := nextCluster_faulty l w.file.currCluster w.s
  simp only [advance, if_neg hoff, hnext] at hallocs ⊢
  by_cases hend : next = endOfChain
  · obtain ⟨c, d₂, halloc, hout⟩ := allocateCluster_faulty l w.file.currCluster d₁
    have hown := own_snoc hw.own (show OwnSector l (.alloc c) from trivial)
    rw [hmem₁] at hout
    simp only [if_pos hend, halloc] at hallocs ⊢
    by_cases h0 : c = 0
    · rw [if_pos h0]
      subst h0
      exact ⟨⟨Or.inr ⟨cs, hout.chain hg hch, hmem⟩, hown⟩, fun h => absurd h (by simp)⟩
    · rw [if_neg h0] at hallocs ⊢
      have hv : l.InVolume c := hallocs c (by simp) h0
      obtain ⟨pre, post, rfl⟩ := List.append_of_mem hmem
      obtain ⟨hscan, hfree, hclaim⟩ := hout.of_ne_zero h0
      refine ⟨⟨Or.inr ⟨pre ++ [w.file.currCluster, c], ?_, by simp⟩, hown⟩, fun _ => hg.bytes_pos⟩
      rw [hclaim]
      exact hch.relink hg hv hscan hfree
  · rw [if_neg hend]
    have hstep : next = l.next w.s.mem w.file.currCluster := hlink.resolve_left hend
    have hnextmem : next ∈ cs := by
      rcases hch.path.next_mem hmem with h | h
      · rwa [hstep]
      · exact absurd (hstep.trans h) hend
    refine ⟨⟨Or.inr ⟨cs, ?_, hnextmem⟩, hw.own⟩, fun _ => hg.bytes_pos⟩
    rw [hmem₁]
    exact hch

theorem writeRound_faulty {w : WriteState Faulty} (hw : Tracked l w)
    (hoff : w.file.currOffset < l.bytesPerCluster)
    (hallocs : AllocsInside l (writeRound l.faulty w).2.trace) :
    Tracked l (writeRound l.faulty w).2 ∧
    ((writeRound l.faulty w).1 = true →
      (writeRound l.faulty w).2.file.currOffset < l.bytesPerCluster) := by
  obtain ⟨htr₁, hgo₁⟩ := ensureCluster_faulty hg hw
    (hallocs.mono (ensureCluster_le_writeRound _ w)) hoff
  rw [writeRound] at hallocs ⊢
  rcases heq : ensureCluster l.faulty w with ⟨_ | _, w₁⟩
  · rw [heq] at htr₁
    exact ⟨htr₁, fun h => absurd h (by simp)⟩
  · rw [heq] at htr₁ hgo₁ hallocs
    obtain ⟨hoff₁, hcurr₁⟩ := hgo₁ rfl
    obtain ⟨cs, hch, hmem⟩ := htr₁.poised.chain hcurr₁
    obtain ⟨hch₂, hc₂, hf₂, hown₂⟩ := writeChunk_faulty hg hch hmem hoff₁
    have htr₂ : Tracked l (writeChunk l.faulty w₁).2 := by
      refine ⟨Or.inr ⟨cs, ?_, ?_⟩, hown₂ htr₁.own⟩
      · rwa [hf₂]
      · rwa [hc₂]
    dsimp only at hallocs ⊢
    rcases heq₂ : writeChunk l.faulty w₁ with ⟨_ | _, w₂⟩
    · rw [heq₂] at htr₂
      exact ⟨htr₂, fun h => absurd h (by simp)⟩
    · rw [heq₂] at htr₂ hc₂ hallocs
      exact advance_faulty hg htr₂ (by rw [hc₂]; exact hcurr₁) hallocs

theorem writeLoop_faulty {n : ℕ} {w : WriteState Faulty} (hw : Tracked l w)
    (hoff : w.file.currOffset < l.bytesPerCluster)
    (hallocs : AllocsInside l (writeLoop l.faulty n w).trace) :
    Tracked l (writeLoop l.faulty n w) := by
  induction n generalizing w with
  | zero => exact hw
  | succ n ih =>
    by_cases hdata : w.data = []
    · rwa [writeLoop, if_pos hdata]
    · obtain ⟨htr, hgo⟩ := writeRound_faulty hg hw hoff
        (hallocs.mono (writeRound_le_writeLoop _ n hdata))
      rw [writeLoop, if_neg hdata] at hallocs ⊢
      rcases heq : writeRound l.faulty w with ⟨_ | _, w₁⟩
      · rwa [heq] at htr
      · rw [heq] at htr hgo hallocs
        exact ih htr (hgo rfl) hallocs

end Rounds

theorem fat32Write_faulty (hg : l.Geometry) {f : File} {d : Faulty} {data : List UInt8}
    (hf : Poised l d.mem f) (hoff : f.currOffset < l.bytesPerCluster)
    (hallocs : AllocsInside l (fat32Write l.faulty f data d).2.trace) :
    Tracked l (fat32Write l.faulty f data d).2 := by
  have hstart : Tracked l ⟨f, data, 0, d, []⟩ := ⟨hf, by simp⟩
  rw [fat32Write] at hallocs ⊢
  split_ifs at hallocs ⊢
  · exact hstart
  · exact writeLoop_faulty hg hstart hoff hallocs

def StartsInside {σ : Type} (fs : Fs σ) : File → σ → List (List UInt8) → Prop
  | _, _, [] => True
  | f, s, buf :: bufs => f.currOffset < fs.bytesPerCluster ∧
      StartsInside fs (fat32Write fs f buf s).2.file (fat32Write fs f buf s).2.s bufs

instance {σ : Type} (fs : Fs σ) : ∀ f s bufs, Decidable (StartsInside fs f s bufs)
  | _, _, [] => inferInstanceAs (Decidable True)
  | f, s, buf :: bufs =>
    have :=
      instDecidableStartsInside fs (fat32Write fs f buf s).2.file (fat32Write fs f buf s).2.s bufs
    inferInstanceAs (Decidable (_ ∧ _))

theorem writeAll_faulty (hg : l.Geometry) {f : File} {d : Faulty} {bufs : List (List UInt8)}
    (hf : Poised l d.mem f) (hstart : StartsInside l.faulty f d bufs)
    (hallocs : AllocsInside l (writeAll l.faulty f d bufs).trace) :
    ∀ e ∈ (writeAll l.faulty f d bufs).trace, OwnSector l e := by
  induction bufs generalizing f d with
  | nil => simp [writeAll]
  | cons buf bufs ih =>
    have hfirst := fat32Write_faulty hg hf hstart.1 (hallocs.mono (List.prefix_append _ _))
    intro e he
    rcases List.mem_append.mp he with hmem | hmem
    · exact hfirst.own e hmem
    · exact ih hfirst.poised hstart.2 (fun c hc => hallocs c (List.mem_append_right _ hc)) e hmem

theorem Ready.poised {f : File} {pos : ℕ} (h : Ready l m f cs pos) : Poised l m f := by
  cases h with
  | empty hfirst hcurr => exact Or.inl ⟨hfirst, hcurr⟩
  | «at» h =>
    refine Or.inr ⟨cs, h.chain, ?_⟩
    rw [h.curr]
    exact posAddr_mem h.lt

/-- As long as no call starts behind the end of the current cluster, a handle opened
for writing writes only into its own chain, whatever fails. -/
theorem writes_own_chain (l : Layout) (hg : l.Geometry) (files : Files) (i : Fin maxOpenFiles)
    (entry : Dirent) (hfile : files i = openFile entry charW) (d : Faulty)
    (hwf : WellFormed l d.mem files) (bufs : List (List UInt8))
    (hstart : StartsInside l.faulty (files i) d bufs)
    (hallocs : AllocsInside l (writeAll l.faulty (files i) d bufs).trace) :
    ∀ e ∈ (writeAll l.faulty (files i) d bufs).trace, OwnSector l e := by
  obtain ⟨cs, hready⟩ := ready_opened hg hfile hwf
  exact writeAll_faulty hg hready.poised hstart hallocs

def twoFilesDisk : Mem :=
  putDirent (tinyLayout.claim helloDisk 0 4) 1056 ⟨to83 [66], attrArchive, 0, 4, 5⟩

def twoFilesCatalogue : Catalogue := ⟨[(2, [2])], [(2, [2]), (3, [3]), (4, [4])]⟩

def helloOpened : Files := Function.update noFiles 0 (openFile helloEntry charW)

theorem writes_own_chain_twoFiles :
    WellFormed tinyLayout twoFilesDisk helloOpened ∧
    ∀ e ∈ (writeAll tinyLayout.faulty (helloOpened 0) ⟨twoFilesDisk, fun n => n = 1, fun _ => false⟩
      [[1, 2], [3]]).trace, OwnSector tinyLayout e := by
  have hcheck : twoFilesCatalogue.Checks tinyLayout twoFilesDisk helloOpened := by decide +kernel
  have hwf := hcheck.wellFormed tinyLayout_geometry
  exact ⟨hwf, writes_own_chain tinyLayout tinyLayout_geometry helloOpened 0 helloEntry rfl _ hwf _
    (by decide +kernel) (by decide +kernel)⟩

/-- When the cluster behind a full one cannot be claimed, the handle stays behind the
end of its cluster, and the next call writes into the neighbour's. -/
theorem failed_extension_hits_neighbour :
    fat32Open tinyLayout.ram [65] charW noFiles twoFilesDisk =
      some ((some 0, helloOpened), twoFilesDisk) ∧
    WellFormed tinyLayout twoFilesDisk helloOpened ∧
    ∃ e ∈ (writeAll tinyLayout.faulty (helloOpened 0) ⟨twoFilesDisk, fun _ => false, fun n => n = 1⟩
      [List.replicate 512 1, [2]]).trace, ¬ OwnSector tinyLayout e := by
  have hcheck : twoFilesCatalogue.Checks tinyLayout twoFilesDisk helloOpened := by decide +kernel
  have hopen : (fat32Open tinyLayout.ram [65] charW noFiles twoFilesDisk).map (fun r => r.1.1) =
      some (some 0) := by decide +kernel
  obtain ⟨⟨⟨h, files'⟩, m⟩, hres, rfl⟩ := Option.map_eq_some_iff.mp hopen
  have hlook : lookup tinyLayout twoFilesDisk [65] = some (some helloEntry) := by decide +kernel
  obtain ⟨rfl, rfl⟩ := fat32Open_existing hlook hres
  refine ⟨hres, hcheck.wellFormed tinyLayout_geometry, ?_⟩
  have hsees : (4, 3, endOfChain) ∈ (writeAll tinyLayout.faulty (helloOpened 0)
      ⟨twoFilesDisk, fun _ => false, fun n => n = 1⟩ [List.replicate 512 1, [2]]).trace.map (fun
        | .alloc _ => (0, 0, 0)
        | .data sec first d => (sec, first, tinyLayout.next d.mem 3)) := by decide +kernel
  obtain ⟨e, he, heq⟩ := List.mem_map.mp hsees
  refine ⟨e, he, ?_⟩
  cases e with
  | alloc => simp at heq
  | data sec first d =>
    simp only [Prod.mk.injEq] at heq
    obtain ⟨rfl, rfl, hend⟩ := heq
    rintro ⟨cs, hch, c, hc, i, hi, hsec⟩
    have hown : Path (tinyLayout.next d.mem) 3 [3] endOfChain := ⟨rfl, hend⟩
    obtain rfl : cs = [3] :=
      hch.path.unique hown (end_notMem tinyLayout_geometry hch.range) (by decide)
    obtain rfl := List.mem_singleton.mp hc
    obtain rfl : i = 0 := Nat.lt_one_iff.mp hi
    exact absurd hsec (by decide)

end XldKernel.Fat32
