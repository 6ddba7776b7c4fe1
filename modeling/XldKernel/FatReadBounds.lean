import XldKernel.FatReading
import XldKernel.GuardedRun

/-!
# FAT32: which data sectors a read handle reads

`dataReads` follows the loop of `fat32_read` and notes every data sector that it
asks the device for. On a disk whose content is arbitrary, one call goes through
the clusters at the links `0, 1, …` from the current one, as many as its bytes
need and the chain has. What the loop does not look at is the number it starts
from: a first cluster or a link below 2, and the end mark that an earlier call
left in the handle.
-/

namespace XldKernel.Fat32
open ByteMemory BlockDevice GuardedRun

structure DataRead where
  cluster : ℕ
  sector : ℕ
  offset : ℕ
  count : ℕ

def dataReads {σ : Type} (fs : Fs σ) : ℕ → ℕ → File → σ → List DataRead
  | 0, _, _, _ => []
  | n + 1, size, file, s =>
    if size = 0 then []
    else
      let offset := file.currOffset
      match skipClusters fs (offset / fs.bytesPerCluster) file.currCluster s with
      | (none, _) => []
      | (some target, s) =>
        let sec := fs.sectorOf target (offset % fs.bytesPerCluster / sectorSize)
        let toCopy := min size (sectorSize - offset % sectorSize)
        ⟨target, sec, offset % sectorSize, toCopy⟩ ::
          match fs.dev.read sec s with
          | (none, _) => []
          | (some _, s) =>
            let file := file.readOn toCopy
            if fs.bytesPerCluster ≤ file.currOffset then
              match nextCluster fs file.currCluster s with
              | (next, s) =>
                if next = endOfChain then []
                else
                  dataReads fs n (size - toCopy)
                    { file with currOffset := 0, currCluster := next } s
            else dataReads fs n (size - toCopy) file s

def fat32ReadSectors {σ : Type} (fs : Fs σ) (file : File) (size : ℤ) (s : σ) : List DataRead :=
  if ¬ file.used ∨ file.mode ≠ .read then []
  else dataReads fs (readSize file size) (readSize file size) file s

variable {l : Layout} {m : Mem}

def Layout.after (l : Layout) (m : Mem) (k c : ℕ) : Option ℕ := (skipClusters l.ram k c m).1

@[simp] theorem Layout.after_zero (c : ℕ) : l.after m 0 c = some c := rfl

theorem Layout.after_succ (k c : ℕ) :
    l.after m (k + 1) c = if l.next m c = endOfChain then none else l.after m k (l.next m c) := by
  simp only [Layout.after, skipClusters, nextCluster_ram]
  split_ifs <;> rfl

def Layout.Linked (l : Layout) (m : Mem) : ℕ → ℕ → Prop :=
  Relation.ReflTransGen fun a b => l.next m a = b ∧ b ≠ endOfChain

theorem Layout.linked_of_after {k c d : ℕ} (h : l.after m k c = some d) : l.Linked m c d := by
  induction k generalizing c with
  | zero =>
    obtain rfl : c = d := Option.some_inj.mp h
    exact .refl
  | succ k ih =>
    rw [Layout.after_succ] at h
    by_cases hend : l.next m c = endOfChain
    · simp [hend] at h
    · rw [if_neg hend] at h
      exact .head ⟨rfl, hend⟩ (ih h)

theorem skipClusters_mem (n c : ℕ) : (skipClusters l.ram n c m).2 = m := by
  induction n generalizing c with
  | zero => rfl
  | succ n ih =>
    rw [skipClusters, nextCluster_ram]
    dsimp only
    split_ifs
    · rfl
    · exact ih _

theorem readLoop_mem (n size : ℕ) (r : ReadState Mem) : (readLoop l.ram n size r).s = r.s := by
  induction n generalizing size r with
  | zero => rfl
  | succ n ih =>
    have hskip := skipClusters_mem (l := l) (m := r.s)
      (r.file.currOffset / l.ram.bytesPerCluster) r.file.currCluster
    rw [readLoop]
    by_cases h0 : size = 0
    · rw [if_pos h0]
    rw [if_neg h0]
    dsimp only
    rcases hres : skipClusters l.ram (r.file.currOffset / l.ram.bytesPerCluster)
      r.file.currCluster r.s
      with ⟨_ | target, s⟩
    · rw [hres] at hskip
      exact hskip
    · rw [hres] at hskip
      obtain rfl : s = r.s := hskip
      simp only [Layout.ram_dev, ramDisk, nextCluster_ram]
      split_ifs
      · rfl
      · exact ih _ _
      · exact ih _ _

def File.readRound (l : Layout) (m : Mem) (f : File) (n : ℕ) : File :=
  if l.bytesPerCluster ≤ f.currOffset + n then
    { f.readOn n with currOffset := 0, currCluster := l.next m f.currCluster }
  else f.readOn n

def File.RunsOut (l : Layout) (m : Mem) (f : File) (n : ℕ) : Prop :=
  l.bytesPerCluster ≤ f.currOffset + n ∧ l.next m f.currCluster = endOfChain

instance (f : File) (n : ℕ) : Decidable (f.RunsOut l m n) := inferInstanceAs (Decidable (_ ∧ _))

def File.chunk (f : File) (size : ℕ) : ℕ := min size (sectorSize - f.currOffset % sectorSize)

def File.dataRead (l : Layout) (f : File) (size : ℕ) : DataRead :=
  ⟨f.currCluster, l.sectorOf f.currCluster (f.currOffset % l.bytesPerCluster / sectorSize),
    f.currOffset % sectorSize, f.chunk size⟩

theorem File.chunk_pos (f : File) {size : ℕ} (h0 : size ≠ 0) : 0 < f.chunk size := by
  have := Nat.mod_lt f.currOffset (show 0 < sectorSize by decide)
  simp only [File.chunk]
  omega

theorem File.chunk_le (f : File) (size : ℕ) : f.chunk size ≤ size := Nat.min_le_left _ _

section Rounds
variable (hl : l.Mounted)
include hl

theorem File.chunk_fits {f : File} (hlt : f.currOffset < l.bytesPerCluster) (size : ℕ) :
    f.currOffset + f.chunk size ≤ l.bytesPerCluster := by
  rw [hl.bytes] at hlt ⊢
  simp only [File.chunk, sectorSize] at hlt ⊢
  omega

theorem File.readOn_offset {f : File} (hlt : f.currOffset < l.bytesPerCluster) (size : ℕ) :
    (f.readOn (f.chunk size)).currOffset = f.currOffset + f.chunk size := by
  have hfits := File.chunk_fits hl hlt size
  have hbytes := hl.bytes_lt
  exact Nat.mod_eq_of_lt (by omega)

theorem readLoop_round (n : ℕ) {size : ℕ} {f : File} (bytes : List UInt8) (h0 : size ≠ 0)
    (hlt : f.currOffset < l.bytesPerCluster) :
    readLoop l.ram (n + 1) size ⟨f, bytes, m⟩ =
      let d := f.dataRead l size
      let r : ReadState Mem := ⟨f.readRound l m (f.chunk size),
        bytes ++ read (sector m d.sector) d.offset d.count, m⟩
      if f.RunsOut l m (f.chunk size) then r else readLoop l.ram n (size - f.chunk size) r := by
  rw [readLoop_succ n f bytes h0 hlt]
  change (if l.bytesPerCluster ≤ (f.readOn (f.chunk size)).currOffset then _ else _) = _
  rw [File.readOn_offset hl hlt]
  by_cases hend : l.bytesPerCluster ≤ f.currOffset + f.chunk size
  · rw [if_pos hend, File.readRound, if_pos hend]
    exact if_congr (and_iff_right hend).symm rfl rfl
  · have hgoes : ¬ f.RunsOut l m (f.chunk size) := fun h => hend h.1
    rw [if_neg hend, File.readRound, if_neg hend, if_neg hgoes]
    rfl

theorem dataReads_round (n : ℕ) {size : ℕ} {f : File} (h0 : size ≠ 0)
    (hlt : f.currOffset < l.bytesPerCluster) :
    dataReads l.ram (n + 1) size f m =
      f.dataRead l size :: if f.RunsOut l m (f.chunk size) then []
        else dataReads l.ram n (size - f.chunk size) (f.readRound l m (f.chunk size)) m := by
  have hread : ∀ s, l.ram.dev.read s m = (some (sector m s), m) := fun _ => rfl
  rw [dataReads, if_neg h0]
  simp only [Layout.ram_toLayout, Nat.div_eq_of_lt hlt, skipClusters, hread, nextCluster_ram]
  change _ :: (if l.bytesPerCluster ≤ (f.readOn (f.chunk size)).currOffset then _ else _) = _
  rw [File.readOn_offset hl hlt]
  by_cases hend : l.bytesPerCluster ≤ f.currOffset + f.chunk size
  · rw [if_pos hend, File.readRound, if_pos hend]
    exact congrArg _ (if_congr (and_iff_right hend).symm rfl rfl)
  · have hgoes : ¬ f.RunsOut l m (f.chunk size) := fun h => hend h.1
    rw [if_neg hend, File.readRound, if_neg hend, if_neg hgoes]
    rfl

theorem File.readRound_cases {f : File} (hlt : f.currOffset < l.bytesPerCluster) (size : ℕ) :
    (¬ f.RunsOut l m (f.chunk size) ∧
      f.readRound l m (f.chunk size) = f.readOn (f.chunk size) ∧
      f.currOffset + f.chunk size < l.bytesPerCluster) ∨
    (f.currOffset + f.chunk size = l.bytesPerCluster ∧
      f.readRound l m (f.chunk size) = { f.readOn (f.chunk size) with
        currOffset := 0, currCluster := l.next m f.currCluster }) := by
  have hfits := File.chunk_fits hl hlt size
  by_cases hend : l.bytesPerCluster ≤ f.currOffset + f.chunk size
  · exact Or.inr ⟨by omega, if_pos hend⟩
  · exact Or.inl ⟨fun h => hend h.1, if_neg hend, by omega⟩

theorem File.readRound_offset {f : File} (hlt : f.currOffset < l.bytesPerCluster) (size : ℕ) :
    (f.readRound l m (f.chunk size)).currOffset < l.bytesPerCluster := by
  rcases File.readRound_cases (m := m) hl hlt size with ⟨-, heq, hin⟩ | ⟨-, heq⟩
  · rw [heq, File.readOn_offset hl hlt]
    exact hin
  · rw [heq]
    exact hl.bytes_pos

theorem readLoop_bytes (n size : ℕ) {f : File} (bytes : List UInt8)
    (hlt : f.currOffset < l.bytesPerCluster) :
    (readLoop l.ram n size ⟨f, bytes, m⟩).bytes =
      bytes ++ (dataReads l.ram n size f m).flatMap
        fun d => read (sector m d.sector) d.offset d.count := by
  induction n generalizing size f bytes with
  | zero => simp [readLoop, dataReads]
  | succ n ih =>
    by_cases h0 : size = 0
    · simp [readLoop, dataReads, h0]
    rw [readLoop_round hl n bytes h0 hlt, dataReads_round hl n h0 hlt]
    dsimp only
    by_cases hout : f.RunsOut l m (f.chunk size)
    · simp [hout]
    · simp [hout, ih _ _ (File.readRound_offset hl hlt size)]

theorem readLoop_ne_nil {n size : ℕ} {f : File} (hlt : f.currOffset < l.bytesPerCluster)
    (hn : size ≤ n) (h0 : size ≠ 0) : (readLoop l.ram n size ⟨f, [], m⟩).bytes ≠ [] := by
  obtain ⟨n, rfl⟩ := Nat.exists_eq_succ_of_ne_zero (show n ≠ 0 by omega)
  have hcount : (f.dataRead l size).count ≠ 0 := (f.chunk_pos h0).ne'
  rw [readLoop_bytes hl _ _ _ hlt, dataReads_round hl n h0 hlt]
  simp [ByteMemory.read, hcount]

theorem dataReads_sector (n size : ℕ) {f : File} (hlt : f.currOffset < l.bytesPerCluster) :
    ∀ d ∈ dataReads l.ram n size f m,
      ∃ i < l.bpb.sectorsPerCluster, d.sector = l.sectorOf d.cluster i := by
  induction n generalizing size f with
  | zero => simp [dataReads]
  | succ n ih =>
    by_cases h0 : size = 0
    · simp [dataReads, h0]
    have hindex : f.currOffset % l.bytesPerCluster / sectorSize < l.bpb.sectorsPerCluster := by
      rw [Nat.mod_eq_of_lt hlt]
      exact Nat.div_lt_of_lt_mul (hl.bytes ▸ hlt)
    rw [dataReads_round hl n h0 hlt]
    intro d hd
    rcases List.mem_cons.mp hd with rfl | hd
    · exact ⟨_, hindex, rfl⟩
    · by_cases hout : f.RunsOut l m (f.chunk size)
      · simp [hout] at hd
      · rw [if_neg hout] at hd
        exact ih _ (File.readRound_offset hl hlt size) d hd

def File.Needs (l : Layout) (m : Mem) (f : File) (size c : ℕ) : Prop :=
  ∃ k, k * l.bytesPerCluster < f.currOffset + size ∧ l.after m k f.currCluster = some c

omit hl in
theorem File.needs_here {f : File} {size c : ℕ} (hin : f.currOffset + size ≤ l.bytesPerCluster)
    (h0 : size ≠ 0) : f.Needs l m size c ↔ f.currCluster = c := by
  constructor
  · rintro ⟨k, hk, hc⟩
    obtain rfl : k = 0 := by
      by_contra hpos
      have := Nat.le_mul_of_pos_left l.bytesPerCluster (Nat.pos_of_ne_zero hpos)
      omega
    exact Option.some_inj.mp hc
  · rintro rfl
    exact ⟨0, by omega, rfl⟩

omit hl in
theorem File.needs_next {f : File} {size n c : ℕ} (hend : f.currOffset + n = l.bytesPerCluster)
    (hn : n < size) :
    f.Needs l m size c ↔ f.currCluster = c ∨ (l.next m f.currCluster ≠ endOfChain ∧
      ∃ k, k * l.bytesPerCluster < size - n ∧ l.after m k (l.next m f.currCluster) = some c) := by
  constructor
  · rintro ⟨k, hk, hc⟩
    cases k with
    | zero => exact Or.inl (Option.some_inj.mp hc)
    | succ k =>
      rw [Layout.after_succ] at hc
      by_cases hlast : l.next m f.currCluster = endOfChain
      · simp [hlast] at hc
      · rw [if_neg hlast] at hc
        rw [Nat.succ_mul] at hk
        exact Or.inr ⟨hlast, k, by omega, hc⟩
  · rintro (rfl | ⟨hlast, k, hk, hc⟩)
    · exact ⟨0, by omega, rfl⟩
    · refine ⟨k + 1, ?_, ?_⟩
      · rw [Nat.succ_mul]
        omega
      · rw [Layout.after_succ, if_neg hlast, hc]

theorem mem_dataReads {n size : ℕ} {f : File} (hlt : f.currOffset < l.bytesPerCluster)
    (hn : size ≤ n) (h0 : size ≠ 0) (c : ℕ) :
    (∃ d ∈ dataReads l.ram n size f m, d.cluster = c) ↔ f.Needs l m size c := by
  induction n generalizing size f with
  | zero => omega
  | succ n ih =>
    have hchunk := f.chunk_pos h0
    have hle := f.chunk_le size
    have hnext := File.readRound_offset (m := m) hl hlt size
    have hhere : (f.dataRead l size).cluster = f.currCluster := rfl
    rw [dataReads_round hl n h0 hlt]
    simp only [List.mem_cons, exists_eq_or_imp, hhere]
    by_cases hall : f.chunk size = size
    · -- the round copies the last bytes
      rw [File.needs_here (hall ▸ File.chunk_fits hl hlt size) h0, hall, Nat.sub_self]
      have hnone : dataReads l.ram n 0 (f.readRound l m size) m = [] := by
        cases n <;> simp [dataReads]
      simp [hnone]
    · rcases File.readRound_cases (m := m) hl hlt size with ⟨hgoes, heq, hin⟩ | ⟨hend, heq⟩
      · rw [if_neg hgoes, ih hnext (by omega) (by omega), heq]
        have hsum : f.currOffset + f.chunk size + (size - f.chunk size) = f.currOffset + size := by
          omega
        simp only [File.Needs, File.readOn_offset hl hlt, hsum]
        refine or_iff_right_of_imp ?_
        rintro rfl
        exact ⟨0, by omega, rfl⟩
      · rw [File.needs_next hend (by omega)]
        by_cases hlast : l.next m f.currCluster = endOfChain
        · simp [File.RunsOut, hend, hlast]
        · have hgoes : ¬ f.RunsOut l m (f.chunk size) := fun h => hlast h.2
          rw [if_neg hgoes, ih hnext (by omega) (by omega), heq]
          simp [File.Needs, hlast]

omit hl in
structure ReadsChain (l : Layout) (m : Mem) (c : ℕ) (f : File) : Prop where
  used : f.used = true
  mode : f.mode = .read
  first : f.firstCluster = c
  offset : f.currOffset < l.bytesPerCluster
  cluster : f.currCluster = endOfChain ∨ l.Linked m c f.currCluster

theorem ReadsChain.readRound {c : ℕ} {f : File} (hf : ReadsChain l m c f)
    (hcur : l.Linked m c f.currCluster) (size : ℕ) :
    ReadsChain l m c (f.readRound l m (f.chunk size)) ∧
      (¬ f.RunsOut l m (f.chunk size) →
        l.Linked m c (f.readRound l m (f.chunk size)).currCluster) := by
  have hnext := File.readRound_offset (m := m) hl hf.offset size
  rcases File.readRound_cases (m := m) hl hf.offset size with ⟨-, heq, -⟩ | ⟨hend, heq⟩
  · rw [heq] at hnext ⊢
    exact ⟨⟨hf.used, hf.mode, hf.first, hnext, Or.inr hcur⟩, fun _ => hcur⟩
  · have hlink : l.next m f.currCluster ≠ endOfChain → l.Linked m c (l.next m f.currCluster) :=
      fun hne => hcur.tail ⟨rfl, hne⟩
    rw [heq] at hnext ⊢
    refine ⟨⟨hf.used, hf.mode, hf.first, hnext, ?_⟩, ?_⟩
    · dsimp only
      exact (eq_or_ne _ _).imp_right hlink
    · intro hgoes
      dsimp only
      exact hlink fun h => hgoes ⟨hend.ge, h⟩

theorem readLoop_offset (n size : ℕ) {f : File} (bytes : List UInt8)
    (hlt : f.currOffset < l.bytesPerCluster) :
    (readLoop l.ram n size ⟨f, bytes, m⟩).file.currOffset < l.bytesPerCluster := by
  induction n generalizing size f bytes with
  | zero => exact hlt
  | succ n ih =>
    by_cases h0 : size = 0
    · rw [readLoop, if_pos h0]
      exact hlt
    have hnext := File.readRound_offset (m := m) hl hlt size
    rw [readLoop_round hl n bytes h0 hlt]
    dsimp only
    by_cases hout : f.RunsOut l m (f.chunk size)
    · rw [if_pos hout]
      exact hnext
    · rw [if_neg hout]
      exact ih _ _ hnext

theorem ReadsChain.readLoop {c : ℕ} (n size : ℕ) {f : File} (bytes : List UInt8)
    (hf : ReadsChain l m c f) (hcur : size ≠ 0 → l.Linked m c f.currCluster) :
    ReadsChain l m c (readLoop l.ram n size ⟨f, bytes, m⟩).file := by
  induction n generalizing size f bytes with
  | zero => exact hf
  | succ n ih =>
    by_cases h0 : size = 0
    · rw [Fat32.readLoop, if_pos h0]
      exact hf
    obtain ⟨hround, hlinked⟩ := hf.readRound hl (hcur h0) size
    rw [readLoop_round hl n bytes h0 hf.offset]
    dsimp only
    by_cases hout : f.RunsOut l m (f.chunk size)
    · rw [if_pos hout]
      exact hround
    · rw [if_neg hout]
      exact ih _ _ hround fun _ => hlinked hout

structure ReadsInside (l : Layout) (m : Mem) (c : ℕ) (f : File) (size : ℤ) : Prop where
  sectors : ∀ d ∈ fat32ReadSectors l.ram f size m, 2 ≤ d.cluster ∧ l.Linked m c d.cluster ∧
    ∃ i < l.bpb.sectorsPerCluster, d.sector = l.sectorOf d.cluster i
  ended : f.currCluster = endOfChain → (fat32Read l.ram f size m).1 = some []

/-- The call asks for no byte of the file, or the handle does not stand at the end mark and
no cluster that the bytes need is 0 or 1. -/
def DataClusters (l : Layout) (m : Mem) (f : File) (size : ℤ) : Prop :=
  readSize f size = 0 ∨ (f.currCluster ≠ endOfChain ∧
    ∀ k c, k * l.bytesPerCluster < f.currOffset + readSize f size →
      (skipClusters l.ram k f.currCluster m).1 = some c → 2 ≤ c)

theorem ReadsChain.inside_iff {c : ℕ} {f : File} (hf : ReadsChain l m c f) (size : ℤ) :
    ReadsInside l m c f size ↔ DataClusters l m f size := by
  have hopen : ¬ (¬ f.used ∨ f.mode ≠ .read) := by simp [hf.used, hf.mode]
  by_cases h0 : readSize f size = 0
  · refine iff_of_true ⟨?_, fun _ => ?_⟩ (Or.inl h0)
    · simp [fat32ReadSectors, h0, dataReads]
    · rw [fat32Read, if_neg hopen]
      simp [h0, Fat32.readLoop]
  have hmem := mem_dataReads (m := m) hl hf.offset le_rfl h0
  have hsectors : fat32ReadSectors l.ram f size m =
      dataReads l.ram (readSize f size) (readSize f size) f m := if_neg hopen
  constructor
  · intro hin
    refine Or.inr ⟨fun hend => ?_, fun k d hk hd => ?_⟩
    · -- at the end mark a byte is still copied
      have hnil := hin.ended hend
      rw [fat32Read, if_neg hopen] at hnil
      exact readLoop_ne_nil hl hf.offset le_rfl h0 (Option.some_inj.mp hnil)
    · obtain ⟨r, hr, rfl⟩ := (hmem d).mpr ⟨k, hk, hd⟩
      exact (hin.sectors r (hsectors ▸ hr)).1
  · rintro (h | ⟨hne, hdata⟩)
    · exact absurd h h0
    · refine ⟨fun d hd => ?_, fun h => absurd h hne⟩
      rw [hsectors] at hd
      obtain ⟨k, hk, hafter⟩ := (hmem d.cluster).mp ⟨d, hd, rfl⟩
      have hcur := hf.cluster.resolve_left hne
      exact ⟨hdata k _ hk hafter, hcur.trans (Layout.linked_of_after hafter),
        dataReads_sector hl _ _ hf.offset d hd⟩

theorem ReadsChain.read {c : ℕ} {f : File} (hf : ReadsChain l m c f) {size : ℤ}
    (hdata : DataClusters l m f size) :
    ReadsChain l m c (fat32Read l.ram f size m).2.1 ∧ (fat32Read l.ram f size m).2.2 = m := by
  have hopen : ¬ (¬ f.used ∨ f.mode ≠ .read) := by simp [hf.used, hf.mode]
  rw [fat32Read, if_neg hopen]
  refine ⟨hf.readLoop hl _ _ [] fun h0 => ?_, readLoop_mem _ _ _⟩
  exact hf.cluster.resolve_left (hdata.resolve_left h0).1

end Rounds

def readStep (l : Layout) (p : File × Mem) (size : ℤ) : Option (File × Mem) :=
  some (fat32Read l.ram p.1 size p.2).2

theorem fat32Mount_boot (h : fat32Mount ramDisk true m = (some l.ram, m)) :
    ∃ boot, GoodBoot boot ∧ bootLayout boot = l := by
  obtain ⟨boot, hgood, hlayout⟩ := fat32Mount_layout h
  exact ⟨boot, hgood, hlayout.symm⟩

theorem fat32Mount_mounted (h : fat32Mount ramDisk true m = (some l.ram, m)) : l.Mounted := by
  obtain ⟨boot, hgood, rfl⟩ := fat32Mount_boot h
  exact bootLayout_mounted hgood

theorem openFile_readsChain (hl : l.Mounted) (m : Mem) (e : Dirent) {mode : UInt8}
    (hmode : mode ≠ charW ∧ mode ≠ charA) : ReadsChain l m e.cluster (openFile e mode) :=
  ⟨rfl, if_neg (by tauto), rfl, hl.bytes_pos, Or.inr .refl⟩

/-- As long as every call meets the condition the handle stays on its chain, and the next call
reads inside the chain if and only if it meets the condition too. -/
theorem reads_inside_iff (m : Mem) (l : Layout)
    (hmount : fat32Mount ramDisk true m = (some l.ram, m)) (path : List UInt8) (mode : UInt8)
    (hmode : mode ≠ charW ∧ mode ≠ charA) (files files' : Files) (i : Fin maxOpenFiles) (m' : Mem)
    (hopen : fat32Open l.ram path mode files m = some ((some i, files'), m')) (sizes : List ℤ)
    (hok : Allowed (readStep l) (fun p size => DataClusters l p.2 p.1 size) (files' i, m') sizes)
    (f : File) (m₁ : Mem) (hrun : run (readStep l) (files' i, m') sizes = some (f, m₁)) (size : ℤ) :
    ReadsInside l m₁ (files' i).firstCluster f size ↔ DataClusters l m₁ f size := by
  have hl := fat32Mount_mounted hmount
  obtain ⟨rfl, e, -, hfile⟩ := fat32Open_read hmode hopen
  have hstart : ReadsChain l m' (files' i).firstCluster (files' i) := by
    rw [hfile]
    exact openFile_readsChain hl m' e hmode
  have hkept : ∀ (p : File × Mem) n q,
      (ReadsChain l m' (files' i).firstCluster p.1 ∧ p.2 = m') → DataClusters l p.2 p.1 n →
      readStep l p n = some q → ReadsChain l m' (files' i).firstCluster q.1 ∧ q.2 = m' := by
    rintro ⟨f, m⟩ n q ⟨hf, rfl⟩ hdata hstep
    rw [← Option.some_inj.mp hstep]
    exact hf.read hl hdata
  obtain ⟨hf, rfl⟩ := run_invariant hkept hok ⟨hstart, rfl⟩ hrun
  exact ReadsChain.inside_iff hl hf size

def shortDisk : Mem :=
  tinyBoot (putDirent (putDirent (tinyLayout.claim tinyDisk 0 3) 1024
    ⟨to83 [65], attrArchive, 0, 3, 1000⟩) 1056 ⟨to83 [66], attrArchive, 0, 0, 5⟩)

theorem tinyLayout_mount {m : Mem} (hdirect : isFat32Direct (sector m 0) = true)
    (hbpb : bpbAt (sector m 0) = ⟨512, 1, 1, 1, 1, 2⟩) :
    fat32Mount ramDisk true m = (some tinyLayout.ram, m) := by
  have hlayout : bootLayout (sector m 0) = tinyLayout := by
    simp only [bootLayout, hbpb]
    rfl
  rw [← hlayout]
  refine fat32Mount_direct hdirect ?_
  rw [GoodBoot, hbpb]
  decide

theorem shortDisk_mount : fat32Mount ramDisk true shortDisk = (some tinyLayout.ram, shortDisk) := by
  refine tinyLayout_mount (by decide +kernel) ?_
  simp only [bpbAt, Bpb.mk.injEq]
  decide +kernel

theorem shortDisk_open {name : UInt8} {e : Dirent}
    (h : (fat32Open tinyLayout.ram [name] 114 noFiles shortDisk).map
      (fun r => (r.1.1, r.1.1.map r.1.2)) = some (some 0, some (openFile e 114))) :
    ∃ files', fat32Open tinyLayout.ram [name] 114 noFiles shortDisk =
      some ((some 0, files'), shortDisk) ∧ files' 0 = openFile e 114 := by
  obtain ⟨⟨⟨i, files'⟩, m'⟩, hres, hi⟩ := Option.map_eq_some_iff.mp h
  obtain ⟨rfl, hfile⟩ := Prod.mk.inj hi
  obtain rfl : m' = shortDisk := (fat32Open_read (by decide) hres).1
  exact ⟨files', hres, Option.some_inj.mp hfile⟩

theorem shortDisk_openA : ∃ files', fat32Open tinyLayout.ram [65] 114 noFiles shortDisk =
    some ((some 0, files'), shortDisk) ∧
      files' 0 = openFile ⟨to83 [65], attrArchive, 0, 3, 1000⟩ 114 :=
  shortDisk_open (by decide +kernel)

theorem shortDisk_openB : ∃ files', fat32Open tinyLayout.ram [66] 114 noFiles shortDisk =
    some ((some 0, files'), shortDisk) ∧
      files' 0 = openFile ⟨to83 [66], attrArchive, 0, 0, 5⟩ 114 :=
  shortDisk_open (by decide +kernel)

theorem shortDisk_dataA : DataClusters tinyLayout shortDisk
    (openFile ⟨to83 [65], attrArchive, 0, 3, 1000⟩ 114) 512 := by
  have hsize : readSize (openFile ⟨to83 [65], attrArchive, 0, 3, 1000⟩ 114) 512 = 512 := by decide
  refine Or.inr ⟨by decide, fun k c hk hc => ?_⟩
  rw [hsize] at hk
  change k * 512 < 0 + 512 at hk
  obtain rfl : k = 0 := by omega
  obtain rfl : 3 = c := Option.some_inj.mp hc
  decide

theorem reads_inside_iff_short :
    ∃ files', fat32Open tinyLayout.ram [65] 114 noFiles shortDisk =
        some ((some 0, files'), shortDisk) ∧
      DataClusters tinyLayout shortDisk (files' 0) 512 ∧
      ReadsInside tinyLayout shortDisk 3 (files' 0) 512 := by
  obtain ⟨files', hopen, hfile⟩ := shortDisk_openA
  have hiff := reads_inside_iff shortDisk tinyLayout shortDisk_mount [65] 114 (by decide) noFiles
    files' 0 shortDisk hopen [] trivial (files' 0) shortDisk rfl 512
  refine ⟨files', hopen, ?_⟩
  rw [hfile] at hiff ⊢
  exact ⟨shortDisk_dataA, hiff.mpr shortDisk_dataA⟩

/-- The second call on `A` reads sector `0xFFFFFFFF`, and the first on `B` the boot sector. -/
theorem reads_outside :
    fat32Mount ramDisk true shortDisk = (some tinyLayout.ram, shortDisk) ∧
    (∃ files' f, fat32Open tinyLayout.ram [65] 114 noFiles shortDisk =
        some ((some 0, files'), shortDisk) ∧
      run (readStep tinyLayout) (files' 0, shortDisk) [512] = some (f, shortDisk) ∧
      f.currCluster = endOfChain ∧
      (fat32ReadSectors tinyLayout.ram f 512 shortDisk).map (fun d => (d.cluster, d.sector)) =
        [(0xFFFFFFFF, 0xFFFFFFFF)] ∧
      (fat32Read tinyLayout.ram f 512 shortDisk).1.map List.length = some 488 ∧
      ¬ ReadsInside tinyLayout shortDisk (files' 0).firstCluster f 512) ∧
    ∃ files', fat32Open tinyLayout.ram [66] 114 noFiles shortDisk =
        some ((some 0, files'), shortDisk) ∧
      (fat32ReadSectors tinyLayout.ram (files' 0) 5 shortDisk).map
        (fun d => (d.cluster, d.sector)) =
        [(0, 0)] ∧
      ¬ ReadsInside tinyLayout shortDisk (files' 0).firstCluster (files' 0) 5 := by
  obtain ⟨filesA, hopenA, hfileA⟩ := shortDisk_openA
  obtain ⟨filesB, hopenB, hfileB⟩ := shortDisk_openB
  have hl := fat32Mount_mounted shortDisk_mount
  have hread := (openFile_readsChain hl shortDisk ⟨to83 [65], attrArchive, 0, 3, 1000⟩
    (show (114 : UInt8) ≠ charW ∧ 114 ≠ charA by decide)).read hl shortDisk_dataA
  refine ⟨shortDisk_mount, ⟨filesA, (fat32Read tinyLayout.ram (filesA 0) 512 shortDisk).2.1, hopenA,
    ?_, ?_, ?_, ?_, ?_⟩, filesB, hopenB, ?_, ?_⟩
  · rw [hfileA]
    exact congrArg some (Prod.ext rfl hread.2)
  · rw [hfileA]
    decide +kernel
  · rw [hfileA]
    decide +kernel
  · rw [hfileA]
    decide +kernel
  · rw [hfileA]
    intro hin
    have hnil := hin.ended (by decide +kernel)
    revert hnil
    decide +kernel
  · rw [hfileB]
    decide +kernel
  · rw [hfileB]
    intro hin
    have hfirst : ∃ d ∈ fat32ReadSectors tinyLayout.ram
        (openFile ⟨to83 [66], attrArchive, 0, 0, 5⟩ 114) 5 shortDisk, d.cluster < 2 := by
      decide +kernel
    obtain ⟨d, hd, hlt⟩ := hfirst
    exact absurd (hin.sectors d hd).1 (by omega)

end XldKernel.Fat32
