import XldKernel.FatWriteRuns

/-!
# FAT32: writing to a file that was opened for appending

`fat32_open` with mode `a` sets `file_pos` to the size of the file, but leaves
the cluster and the offset that `fat32_write` goes by at the start of the chain.
So the buffers are laid over the first bytes of the file.
-/

namespace XldKernel.Fat32
open ByteMemory BlockDevice LinkedPath UniformBlocks

def grownChain (l : Layout) (m : Mem) (old : List ℕ) (len : ℕ) : List ℕ :=
  old ++ (l.freeClusters m).take (len / l.bytesPerCluster + 1 - old.length)

/-- The new bytes are the first `size` bytes of the file over and over, and where they end
the grown chain goes on with these for `size` more positions behind the old ones. -/
structure Repeats (l : Layout) (m : Mem) (old : List ℕ) (size : ℕ) (data : List UInt8) : Prop where
  room : size + data.length ≤ (grownChain l m old data.length).length * l.bytesPerCluster
  bytes : ∀ q < data.length, data.getD q 0 = chainByte l m old (q % size)
  behind : ∀ q, size ≤ q → data.length ≤ q → q < size + data.length →
    chainByte l m (grownChain l m old data.length) q = chainByte l m old (q % size)

def Appended (l : Layout) (m : Mem) (old : List ℕ) (size : ℕ) (data : List UInt8)
    (r : WriteRun Mem) : Prop :=
  ∃ new, FileChain l r.s r.file.firstCluster new ∧
    (chainData l m old).take size ++ data <+: chainData l r.s new

variable {l : Layout} {m m' : Mem} {old new : List ℕ} {data : List UInt8}

theorem FileChain.unique (hg : l.Geometry) {c : ℕ} {cs cs' : List ℕ} (h : FileChain l m c cs)
    (h' : FileChain l m c cs') : cs = cs' := by
  rcases h with ⟨h0, rfl⟩ | h <;> rcases h' with ⟨h0', rfl⟩ | h'
  · rfl
  · exact absurd h0 h'.start_ne_zero
  · exact absurd h0' h.start_ne_zero
  · exact h.unique hg h'

theorem Stretched.ext_eq {pos : ℕ} (h : Stretched l m m' old new pos) :
    new = grownChain l m old pos := by
  obtain ⟨ks, rfl, hfree⟩ := h.taken
  have hlen := h.length
  rw [List.length_append] at hlen
  have hks : pos / l.bytesPerCluster + 1 - old.length = ks.length := by omega
  rw [grownChain, hks, hfree, List.take_left]

theorem Wrote.overlay (hg : l.Geometry) (hrange : ∀ x ∈ new, l.InVolume x) (hnodup : new.Nodup)
    (hwrote : Wrote l m m' old new 0 data) :
    chainData l m' new = data ++ (chainData l m new).drop data.length := by
  have hroom := hwrote.room
  rw [Nat.zero_add] at hroom
  have hlen : ∀ m, (chainData l m new).length = new.length * l.bytesPerCluster := fun m =>
    chainData_length hg.mounted
  have hstart := hwrote.data_eq hg hrange
  rw [List.drop_zero] at hstart
  have hrest : (chainData l m' new).drop data.length = (chainData l m new).drop data.length := by
    apply List.ext_getElem?
    intro j
    rw [List.getElem?_drop, List.getElem?_drop]
    by_cases hj : data.length + j < new.length * l.bytesPerCluster
    · rw [chainData_getElem? hg.mounted hj, chainData_getElem? hg.mounted hj,
        hwrote.data_frame hg hrange hnodup hj (by omega)]
    · rw [List.getElem?_eq_none (by rw [hlen]; omega), List.getElem?_eq_none (by rw [hlen]; omega)]
  rw [← List.take_append_drop data.length (chainData l m' new), hstart, hrest]

theorem chainData_prefix (hext : old <+: new) : chainData l m old <+: chainData l m new := by
  obtain ⟨ks, rfl⟩ := hext
  rw [chainData, chainData, List.flatMap_append]
  exact List.prefix_append _ _

def Layout.HasRoom (l : Layout) (m : Mem) (cs : List ℕ) (len : ℕ) : Prop :=
  len / l.bytesPerCluster < cs.length + (l.freeClusters m).length

theorem Stretched.room {cs cs' : List ℕ} {pos len : ℕ} (h : Stretched l m m' cs cs' pos)
    (hroom : l.HasRoom m cs len) : l.HasRoom m' cs' len := by
  obtain ⟨ks, rfl, hfree⟩ := h.taken
  rw [Layout.HasRoom] at hroom ⊢
  rw [hfree, List.length_append] at hroom
  rw [List.length_append]
  omega

theorem allocateCluster_free (prev : ℕ) (hfree : l.freeClusters m ≠ []) :
    ∃ y, l.InVolume y ∧ y < scanEnd ∧ l.entry m y = 0 ∧
      (∀ b, 2 ≤ b → b < y → l.entry m b ≠ 0) ∧
      allocateCluster l.ram prev m = (y, l.claim m prev y) := by
  obtain ⟨c, hc⟩ := List.exists_mem_of_ne_nil _ hfree
  obtain ⟨hlt, hc2, hc0⟩ : c < min l.clusters scanEnd ∧ 2 ≤ c ∧ l.entry m c = 0 := by
    simpa [Layout.freeClusters] using hc
  rcases allocateCluster_ram l prev m with ⟨-, hall⟩ | ⟨y, hy2, hend, hy0, hmin, hres⟩
  · exact absurd hc0 (hall c hc2 (hlt.trans_le (min_le_right _ _)))
  · refine ⟨y, ⟨hy2, ?_⟩, hend, hy0, hmin, hres⟩
    by_contra hout
    have hcy : c < y := (hlt.trans_le (min_le_left _ _)).trans_le (not_lt.mp hout)
    exact hmin c hc2 hcy hc0

theorem AllocsIn.append {σ : Type} {t : List (Event σ)} (h : AllocsIn l t) {e : Event σ}
    (he : ∀ c, e = .alloc c → l.InVolume c) : AllocsIn l (t ++ [e]) := by
  intro c hc
  rcases List.mem_append.mp hc with hc | hc
  · exact h c hc
  · exact he c (List.mem_singleton.mp hc).symm

theorem writeChunk_allocsIn {σ : Type} (fs : Fs σ) {w : WriteState σ} (h : AllocsIn l w.trace) :
    AllocsIn l (writeChunk fs w).2.trace := by
  simp only [writeChunk]
  split
  · exact h.append fun c hc => absurd hc (by simp)
  · exact h.append fun c hc => absurd hc (by simp)

theorem advance_allocsIn {w : WriteState Mem} (h : AllocsIn l w.trace)
    (hfree : ¬ w.file.currOffset < l.bytesPerCluster →
      l.next w.s w.file.currCluster = endOfChain → l.freeClusters w.s ≠ []) :
    AllocsIn l (advance l.ram w).2.trace := by
  by_cases hin : w.file.currOffset < l.bytesPerCluster
  · rwa [advance, Layout.ram_toLayout, if_pos hin]
  by_cases hnext : l.next w.s w.file.currCluster = endOfChain
  · obtain ⟨y, hy, -, -, -, hres⟩ := allocateCluster_free w.file.currCluster (hfree hin hnext)
    have hy0 : y ≠ 0 := by
      have h2 := hy.1
      omega
    simp only [advance, Layout.ram_toLayout, if_neg hin, nextCluster_ram, hnext, if_true, hres,
      if_neg hy0]
    exact h.append fun c hc => (Event.alloc.inj hc) ▸ hy
  · simpa only [advance, Layout.ram_toLayout, if_neg hin, nextCluster_ram, if_neg hnext] using h

section Room
variable (hg : l.Geometry) {cs : List ℕ} {pos : ℕ} {w : WriteState Mem}
include hg

theorem writeRound_allocsIn (hat : At l w.s w.file cs pos) (h : AllocsIn l w.trace)
    (hroom : l.HasRoom w.s cs (pos + w.toCopy)) : AllocsIn l (writeRound l.ram w).2.trace := by
  have hfits := toCopy_fits hg hat
  have hcurr := hat.chain.range _ (posAddr_mem hat.lt)
  have hne : w.file.currCluster ≠ 0 := by
    rw [hat.curr]
    have h2 := hcurr.1
    omega
  have hensure : ensureCluster l.ram w = (true, w) := if_pos hne
  obtain ⟨w₁, hchunk, hfile, -, -, hs₁⟩ := writeChunk_ram hg hat
  have htrace := writeChunk_allocsIn l.ram h
  simp only [writeRound, hensure, hchunk] at htrace ⊢
  have hlen : (w.data.take w.toCopy).length ≤ w.toCopy := List.length_take_le _ _
  have hentry : ∀ d < l.clusters, l.entry w₁.s d = l.entry w.s d := by
    intro d hd
    rw [hat.off] at hfits
    rw [hs₁, entry_write hg hd (by omega)]
  refine advance_allocsIn htrace fun hout hnext hnil => ?_
  have hoff : w₁.file.currOffset = w.file.currOffset + w.toCopy := by
    rw [hfile]
    rfl
  have hfull : pos % l.bytesPerCluster + w.toCopy = l.bytesPerCluster := by
    rw [← hat.off]
    omega
  have hidx : pos / l.bytesPerCluster < cs.length :=
    Nat.div_lt_of_lt_mul (by simpa only [Nat.mul_comm] using hat.lt)
  have hnone : l.freeClusters w.s = [] := (freeClusters_congr hentry).symm.trans hnil
  rw [Layout.HasRoom, (pos_boundary hg.bytes_pos hfull).2.1, hnone, List.length_nil] at hroom
  -- the next cluster of the chain is no end mark
  have hlink := hat.chain.path.next_getElem hroom
  have hcurr₁ : w₁.file.currCluster = cs[pos / l.bytesPerCluster] := by
    rw [hfile, File.moved, hat.curr, List.getD_eq_getElem _ _ hidx]
  rw [Layout.next, hcurr₁, hentry _ (hat.chain.range _ (List.getElem_mem hidx)).2] at hnext
  exact end_notMem hg hat.chain.range ((hlink.symm.trans hnext) ▸ List.getElem_mem hroom)

theorem writeLoop_allocsIn {n : ℕ} (hat : At l w.s w.file cs pos) (h : AllocsIn l w.trace)
    (hroom : l.HasRoom w.s cs (pos + w.data.length)) :
    AllocsIn l (writeLoop l.ram n w).trace := by
  induction n generalizing w cs pos with
  | zero => exact h
  | succ n ih =>
    by_cases hnil : w.data = []
    · rwa [writeLoop, if_pos hnil]
    have hle : w.toCopy ≤ w.data.length := Nat.min_le_left _ _
    have hpart : l.HasRoom w.s cs (pos + w.toCopy) :=
      (Nat.div_le_div_right (by omega)).trans_lt hroom
    have hround := writeRound_allocsIn hg hat h hpart
    obtain ⟨w₁, cs₁, k, -, hk, heq, hat₁, -, -, hd₁, -, hstretch⟩ :=
      writeRound_ram hg hat hnil hround
    rw [heq] at hround
    rw [writeLoop, if_neg hnil, heq]
    refine ih hat₁ hround ?_
    have hlen : pos + k + w₁.data.length = pos + w.data.length := by
      rw [hd₁, List.length_drop]
      omega
    rw [hlen]
    exact hstretch.room hroom

theorem fat32Write_allocsIn {f : File} {data : List UInt8} (hready : Ready l m f cs pos)
    (hroom : data ≠ [] → l.HasRoom m cs (pos + data.length)) :
    AllocsIn l (fat32Write l.ram f data m).2.trace := by
  have hnone : AllocsIn l ([] : List (Event Mem)) := fun c hc => absurd hc (by simp)
  by_cases hnil : data = []
  · rw [hnil, fat32Write_nil]
    exact hnone
  rw [fat32Write]
  split_ifs
  · exact hnone
  cases hready with
  | «at» hat => exact writeLoop_allocsIn hg (w := ⟨f, data, 0, m, []⟩) hat hnone (hroom hnil)
  | empty hfirst hcurr =>
    have hlt := hroom hnil
    rw [Layout.HasRoom, List.length_nil] at hlt
    have hfree : l.freeClusters m ≠ [] := by
      rintro h
      rw [h, List.length_nil] at hlt
      exact Nat.not_lt_zero _ hlt
    obtain ⟨y, hy, hend, hy0, hmin, hres⟩ := allocateCluster_free 0 hfree
    have hne : y ≠ 0 := by
      have h2 := hy.1
      omega
    obtain ⟨n, hn⟩ : ∃ n, data.length = n + 1 :=
      Nat.exists_eq_succ_of_ne_zero fun h => hnil (List.length_eq_zero_iff.mp h)
    have htake := freeClusters_claim hg (x := 0) (by have := hy.2; omega) (by simp) hy hend hy0
    dsimp only
    rw [hn, writeLoop_first hcurr hres hne hnil]
    refine writeLoop_allocsIn hg (Chain.fresh_at hg hy f) ?_ ?_
    · exact hnone.append fun c hc => (Event.alloc.inj hc) ▸ hy
    · rw [freeClusters_first hy hend hy0 hmin, List.length_cons] at hlt
      rw [Nat.zero_add (_ + 1)] at hlt
      rw [Layout.HasRoom, htake, List.length_singleton, Nat.add_comm 1]
      exact hlt

theorem writeAll_allocsIn {f : File} {bufs : List (List UInt8)} (hused : f.used = true)
    (hmode : f.mode = .write) (hready : Ready l m f cs pos)
    (hroom : bufs.flatten ≠ [] → l.HasRoom m cs (pos + bufs.flatten.length)) :
    AllocsIn l (writeAll l.ram f m bufs).trace := by
  induction bufs generalizing f m cs pos with
  | nil => exact fun c hc => absurd hc (by simp [writeAll])
  | cons buf bufs ih =>
    rw [List.flatten_cons, List.length_append] at hroom
    by_cases hbuf : buf = []
    · subst hbuf
      simp only [writeAll, fat32Write_nil, List.nil_append]
      exact ih hused hmode hready (by simpa using hroom)
    have hwhole := hroom (by simp [hbuf])
    have hfirst : AllocsIn l (fat32Write l.ram f buf m).2.trace :=
      fat32Write_allocsIn hg hready fun _ => (Nat.div_le_div_right (by omega)).trans_lt hwhole
    obtain ⟨-, cs₁, hready₁, -, hused₁, hmode₁, -, hstretch⟩ :=
      fat32Write_ram hg hused hmode hready hfirst
    have hrest := ih hused₁ hmode₁ hready₁ fun _ => by
      rw [Nat.add_assoc]
      exact (hstretch (Or.inr hbuf)).room hwhole
    intro c hc
    rcases List.mem_append.mp hc with hc | hc
    · exact hfirst c hc
    · exact hrest c hc

end Room

theorem repeats_iff (hg : l.Geometry) {size : ℕ} (hpos : 0 < size) (hnil : data ≠ [])
    (hsize : size ≤ old.length * l.bytesPerCluster) :
    ((∀ q < data.length, data[q]? =
        (chainData l m (grownChain l m old data.length))[q % size]?) ∧
      ∀ q, size ≤ q → data.length ≤ q → q < size + data.length →
        (chainData l m (grownChain l m old data.length))[q]? =
          (chainData l m (grownChain l m old data.length))[q % size]?) ↔
      Repeats l m old size data := by
  have hext : old <+: grownChain l m old data.length := List.prefix_append _ _
  have hlen := List.length_pos_iff.mpr hnil
  have hin : ∀ q, q % size < old.length * l.bytesPerCluster := fun q =>
    (Nat.mod_lt q hpos).trans_le hsize
  have hwhole : ∀ q, q % size < (grownChain l m old data.length).length * l.bytesPerCluster :=
    fun q => (hin q).trans_le (Nat.mul_le_mul_right _ hext.length_le)
  have hfirst : ∀ q, (chainData l m (grownChain l m old data.length))[q % size]? =
      some (chainByte l m old (q % size)) := fun q => by
    rw [chainData_getElem? hg.mounted (hwhole q), chainByte_prefix hext (hin q)]
  have hdata : ∀ q < data.length, data[q]? = some (data.getD q 0) := fun q hq => by
    rw [List.getElem?_eq_getElem hq, List.getD_eq_getElem _ _ hq]
  simp only [hfirst]
  constructor
  · rintro ⟨hbytes, hbehind⟩
    have hroom : size + data.length ≤
        (grownChain l m old data.length).length * l.bytesPerCluster := by
      have hlast := hbehind (size + data.length - 1) (by omega) (by omega) (by omega)
      obtain ⟨hlt, -⟩ := List.getElem?_eq_some_iff.mp hlast
      rw [chainData_length hg.mounted] at hlt
      omega
    refine ⟨hroom, fun q hq => ?_, fun q hs hd hq => ?_⟩
    · exact Option.some_inj.mp ((hdata q hq).symm.trans (hbytes q hq))
    · have hq' := hbehind q hs hd hq
      rw [chainData_getElem? hg.mounted (by omega)] at hq'
      exact Option.some_inj.mp hq'
  · intro h
    have hroom := h.room
    refine ⟨fun q hq => by rw [hdata q hq, h.bytes q hq], fun q hs hd hq => ?_⟩
    rw [chainData_getElem? hg.mounted (by omega), h.behind q hs hd hq]

theorem appended_iff (hg : l.Geometry) (size : ℕ) (bufs : List (List UInt8)) {f : File}
    (hused : f.used = true) (hmode : f.mode = .write) (hready : Ready l m f old 0)
    (hsize : size ≤ old.length * l.bytesPerCluster)
    (hroom : bufs.flatten ≠ [] → l.HasRoom m old bufs.flatten.length) :
    Appended l m old size bufs.flatten (writeAll l.ram f m bufs) ↔
      size = 0 ∨ bufs.flatten = [] ∨ Repeats l m old size bufs.flatten := by
  have hallocs := writeAll_allocsIn hg hused hmode hready (by simpa using hroom)
  obtain ⟨-, new, hready', hwrote, -, hstretch⟩ := writeAll_ram hg hused hmode hready hallocs
  rw [Nat.zero_add] at hstretch
  have hover := hwrote.overlay hg hready'.range hready'.nodup
  have hlen : (chainData l m old).length = old.length * l.bytesPerCluster :=
    chainData_length hg.mounted
  have hpre : chainData l m old <+: chainData l m new := chainData_prefix hwrote.ext
  have htake : (chainData l m old).take size = (chainData l m new).take size := by
    obtain ⟨rest, hrest⟩ := hpre
    rw [← hrest, List.take_append_of_le_length (by omega)]
  have happ : Appended l m old size bufs.flatten (writeAll l.ram f m bufs) ↔
      (chainData l m new).take size ++ bufs.flatten <+:
        bufs.flatten ++ (chainData l m new).drop bufs.flatten.length := by
    rw [← hover, ← htake]
    constructor
    · rintro ⟨new', hchain, h⟩
      rwa [hchain.unique hg hready'.fileChain] at h
    · exact fun h => ⟨new, hready'.fileChain, h⟩
  rw [happ]
  by_cases hzero : size = 0
  · subst hzero
    simp
  by_cases hnil : bufs.flatten = []
  · simp [hnil, List.take_prefix]
  have hnew := (hstretch (Or.inr hnil)).ext_eq
  have hlong : size ≤ (chainData l m new).length := by
    have hle := hpre.length_le
    omega
  rw [Lists.extend_prefix_overlay (by omega) hlong, hnew,
    repeats_iff hg (by omega) hnil hsize]
  simp [hzero, hnil]

def blankEntry : Dirent := ⟨to83 [65], attrArchive, 0, 3, 0⟩

def blankDisk : Mem := putDirent (tinyLayout.claim tinyDisk 0 3) 1024 blankEntry

end XldKernel.Fat32
