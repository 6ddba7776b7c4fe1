import XldKernel.FatSlots
import XldKernel.FatFile
import XldKernel.UniformBlocks
import XldKernel.Lists

/-!
# FAT32: what writing does to a volume without faults

A position in a file is a position in the concatenated data of its chain.
`Wrote` says that bytes were laid along a chain that may have grown: it names
every byte outside the first table that changed and every table entry that may
have. One round of the loop of `fat32_write` is such a change, and changes of
this kind compose.
-/

namespace XldKernel.Fat32
open ByteMemory BlockDevice LinkedPath UniformBlocks

def Layout.posAddr (l : Layout) (cs : List ℕ) (pos : ℕ) : ℕ :=
  l.clusterAddr (cs.getD (pos / l.bytesPerCluster) 0) + pos % l.bytesPerCluster

variable {l : Layout} {m m' m₁ m₂ : Mem} {cs cs' cs₁ cs₂ : List ℕ} {pos : ℕ}

theorem posAddr_prefix (hpre : cs <+: cs') (hpos : pos < cs.length * l.bytesPerCluster) :
    l.posAddr cs' pos = l.posAddr cs pos := by
  obtain ⟨t, rfl⟩ := hpre
  have hidx : pos / l.bytesPerCluster < cs.length :=
    Nat.div_lt_of_lt_mul (by rwa [Nat.mul_comm] at hpos)
  rw [Layout.posAddr, Layout.posAddr, List.getD_append _ _ _ _ hidx]

theorem posAddr_mem (hpos : pos < cs.length * l.bytesPerCluster) :
    cs.getD (pos / l.bytesPerCluster) 0 ∈ cs := by
  have hidx : pos / l.bytesPerCluster < cs.length :=
    Nat.div_lt_of_lt_mul (by rwa [Nat.mul_comm] at hpos)
  rw [List.getD_eq_getElem _ _ hidx]
  exact List.getElem_mem hidx

section Positions
variable (hg : l.Geometry)
include hg

theorem posAddr_inCluster (cs : List ℕ) (pos : ℕ) :
    l.InCluster (cs.getD (pos / l.bytesPerCluster) 0) (l.posAddr cs pos) := by
  have hlt := Nat.mod_lt pos hg.bytes_pos
  simp only [Layout.InCluster, Layout.posAddr]
  omega

theorem posAddr_inj (hrange : ∀ x ∈ cs, l.InVolume x) (hnodup : cs.Nodup) {p q : ℕ}
    (hp : p < cs.length * l.bytesPerCluster) (hq : q < cs.length * l.bytesPerCluster)
    (heq : l.posAddr cs p = l.posAddr cs q) : p = q := by
  have hpm := posAddr_mem hp
  have hqm := posAddr_mem hq
  have hpc := posAddr_inCluster hg cs p
  rw [heq] at hpc
  have hsame := inCluster_inj hg (hrange _ hpm) (hrange _ hqm) hpc (posAddr_inCluster hg cs q)
  have hpi : p / l.bytesPerCluster < cs.length :=
    Nat.div_lt_of_lt_mul (by rwa [Nat.mul_comm] at hp)
  have hqi : q / l.bytesPerCluster < cs.length :=
    Nat.div_lt_of_lt_mul (by rwa [Nat.mul_comm] at hq)
  have hdiv : p / l.bytesPerCluster = q / l.bytesPerCluster := by
    rw [List.getD_eq_getElem _ _ hpi, List.getD_eq_getElem _ _ hqi] at hsame
    exact (List.Nodup.getElem_inj_iff hnodup).mp hsame
  have hmod : p % l.bytesPerCluster = q % l.bytesPerCluster := by
    simp only [Layout.posAddr, hsame] at heq
    omega
  rw [← Nat.div_add_mod p l.bytesPerCluster, hdiv, hmod, Nat.div_add_mod]

end Positions

structure Wrote (l : Layout) (m m' : Mem) (cs cs' : List ℕ) (pos : ℕ) (bs : List UInt8) : Prop where
  ext : cs <+: cs'
  room : pos + bs.length ≤ cs'.length * l.bytesPerCluster
  bytes : ∀ j < bs.length, m' (l.posAddr cs' (pos + j)) = bs.getD j 0
  frame : ∀ x, ¬ l.InTable x → (∀ j < bs.length, x ≠ l.posAddr cs' (pos + j)) → m' x = m x
  entries : ∀ d, l.InVolume d → d ∉ cs' → l.entry m' d = l.entry m d
  fresh : ∀ d ∈ cs', d ∉ cs → l.entry m d = 0

theorem Wrote.refl (hpos : pos ≤ cs.length * l.bytesPerCluster) : Wrote l m m cs cs pos [] where
  ext := List.prefix_rfl
  room := by simpa using hpos
  bytes := by simp
  frame _ _ _ := rfl
  entries _ _ _ := rfl
  fresh d hd hno := absurd hd hno

theorem Wrote.trans (hg : l.Geometry) (hrange : ∀ x ∈ cs₂, l.InVolume x) (hnodup : cs₂.Nodup)
    {bs₁ bs₂ : List UInt8} (h₁ : Wrote l m m₁ cs cs₁ pos bs₁)
    (h₂ : Wrote l m₁ m₂ cs₁ cs₂ (pos + bs₁.length) bs₂) :
    Wrote l m m₂ cs cs₂ pos (bs₁ ++ bs₂) where
  ext := h₁.ext.trans h₂.ext
  room := by
    have hroom := h₂.room
    rw [List.length_append]
    omega
  bytes := by
    intro j hj
    rw [List.length_append] at hj
    by_cases hfst : j < bs₁.length
    · -- the second change wrote other positions
      have hin₁ : pos + j < cs₁.length * l.bytesPerCluster := by
        have hroom := h₁.room
        omega
      have hin₂ : pos + j < cs₂.length * l.bytesPerCluster :=
        hin₁.trans_le (Nat.mul_le_mul_right _ h₂.ext.length_le)
      have hkeep := h₂.frame (l.posAddr cs₂ (pos + j))
        (not_inTable_of_inCluster hg (posAddr_inCluster hg cs₂ (pos + j))) (by
          intro k hk heq
          have hroom := h₂.room
          have := posAddr_inj hg hrange hnodup hin₂ (by omega) heq
          omega)
      rw [hkeep, posAddr_prefix h₂.ext hin₁, h₁.bytes j hfst, List.getD_append _ _ _ _ hfst]
    · have hsnd := h₂.bytes (j - bs₁.length) (by omega)
      rw [List.getD_append_right _ _ _ _ (by omega), ← hsnd]
      congr 2
      omega
  frame := by
    intro x hx hno
    rw [List.length_append] at hno
    rw [h₂.frame x hx, h₁.frame x hx]
    · intro j hj
      have hroom := h₁.room
      rw [← posAddr_prefix h₂.ext (by omega)]
      exact hno j (by omega)
    · intro j hj
      have := hno (bs₁.length + j) (by omega)
      rwa [← Nat.add_assoc] at this
  entries := by
    intro d hd hno
    rw [h₂.entries d hd hno, h₁.entries d hd (fun hmem => hno (h₂.ext.subset hmem))]
  fresh := by
    intro d hd hno
    by_cases hmem : d ∈ cs₁
    · exact h₁.fresh d hmem hno
    · rw [← h₁.entries d (hrange d hd) hmem]
      exact h₂.fresh d hd hmem

/-- The free clusters of the volume that the scan of `allocate_cluster` can find. -/
def Layout.freeClusters (l : Layout) (m : Mem) : List ℕ :=
  (List.range (min l.clusters scanEnd)).filter fun c => 2 ≤ c ∧ l.entry m c = 0

structure Stretched (l : Layout) (m m' : Mem) (cs cs' : List ℕ) (pos : ℕ) : Prop where
  taken : ∃ ks, cs' = cs ++ ks ∧ l.freeClusters m = ks ++ l.freeClusters m'
  length : cs'.length = max cs.length (pos / l.bytesPerCluster + 1)

theorem Stretched.same (hpos : pos < cs.length * l.bytesPerCluster)
    (hfree : l.freeClusters m' = l.freeClusters m) : Stretched l m m' cs cs pos := by
  have hidx : pos / l.bytesPerCluster < cs.length :=
    Nat.div_lt_of_lt_mul (by rwa [Nat.mul_comm] at hpos)
  exact ⟨⟨[], by simp, by simp [hfree]⟩, by omega⟩

theorem Stretched.trans {p q : ℕ} (h₁ : Stretched l m m₁ cs cs₁ p)
    (h₂ : Stretched l m₁ m₂ cs₁ cs₂ q) (hle : p ≤ q) : Stretched l m m₂ cs cs₂ q := by
  obtain ⟨ks₁, hcs₁, hfree₁⟩ := h₁.taken
  obtain ⟨ks₂, hcs₂, hfree₂⟩ := h₂.taken
  have hdiv := Nat.div_le_div_right (c := l.bytesPerCluster) hle
  refine ⟨⟨ks₁ ++ ks₂, ?_, ?_⟩, ?_⟩
  · rw [hcs₂, hcs₁, List.append_assoc]
  · rw [hfree₁, hfree₂, List.append_assoc]
  · rw [h₂.length, h₁.length]
    omega

theorem freeClusters_congr (h : ∀ d < l.clusters, l.entry m' d = l.entry m d) :
    l.freeClusters m' = l.freeClusters m := by
  apply List.filter_congr
  intro c hc
  rw [h c ((List.mem_range.mp hc).trans_le (min_le_left _ _))]

theorem freeClusters_first {y : ℕ} (hy : l.InVolume y) (hend : y < scanEnd)
    (hfree : l.entry m y = 0) (hmin : ∀ b, 2 ≤ b → b < y → l.entry m b ≠ 0) :
    l.freeClusters m = y :: (l.freeClusters m).erase y := by
  apply Lists.filter_range_first (lt_min hy.2 hend)
  · simp [hy.1, hfree]
  · intro c hc
    by_cases h2 : 2 ≤ c
    · simp [hmin c h2 hc]
    · simp [h2]

theorem freeClusters_claim (hg : l.Geometry) {x y : ℕ} (hx : x < l.clusters)
    (hused : 2 ≤ x → l.entry m x ≠ 0) (hy : l.InVolume y) (hend : y < scanEnd)
    (hfree : l.entry m y = 0) :
    l.freeClusters (l.claim m x y) = (l.freeClusters m).erase y := by
  have hxy : x ≠ y := by
    rintro rfl
    exact hused hy.1 hfree
  apply Lists.filter_range_erase
  intro c hc
  have hlt : c < l.clusters := hc.trans_le (min_le_left _ _)
  by_cases hcy : c = y
  · subst hcy
    simp [entry_claim_new hg hy hx hxy]
  · by_cases hcx : c = x
    · subst hcx
      by_cases h2 : 2 ≤ c
      · have hc0 : c ≠ 0 := by omega
        have hy0 : y ≠ 0 := by
          have h2 := hy.1
          omega
        simp [hused h2, entry_claim_prev hc0 (hend.trans (by decide)), hy0]
      · simp [h2]
    · simp [entry_claim_other hg hy hx hlt hcy hcx, hcy]

structure At (l : Layout) (m : Mem) (f : File) (cs : List ℕ) (pos : ℕ) : Prop where
  chain : Chain l m f.firstCluster cs
  lt : pos < cs.length * l.bytesPerCluster
  curr : f.currCluster = cs.getD (pos / l.bytesPerCluster) 0
  off : f.currOffset = pos % l.bytesPerCluster

/-- Every allocation found a cluster of the volume. -/
def AllocsIn {σ : Type} (l : Layout) (trace : List (Event σ)) : Prop :=
  ∀ c, Event.alloc c ∈ trace → l.InVolume c

def allocs {σ : Type} (trace : List (Event σ)) : List ℕ :=
  trace.filterMap fun
    | .alloc c => some c
    | .data _ _ _ => none

theorem mem_allocs {σ : Type} {trace : List (Event σ)} {c : ℕ} :
    c ∈ allocs trace ↔ Event.alloc c ∈ trace := by
  rw [allocs, List.mem_filterMap]
  constructor
  · rintro ⟨e, he, hc⟩
    cases e with
    | alloc d =>
      obtain rfl := Option.some_inj.mp hc
      exact he
    | data => exact absurd hc (by simp)
  · intro h
    exact ⟨_, h, rfl⟩

instance {σ : Type} (l : Layout) (trace : List (Event σ)) : Decidable (AllocsIn l trace) :=
  decidable_of_iff (∀ c ∈ allocs trace, l.InVolume c)
    ⟨fun h c hc => h c (mem_allocs.mpr hc), fun h c hc => h c (mem_allocs.mp hc)⟩

def File.moved (f : File) (n : ℕ) : File :=
  { f with
    filePos := (f.filePos + n) % 2 ^ 32
    currOffset := f.currOffset + n
    fileSize := max f.fileSize ((f.filePos + n) % 2 ^ 32) }

structure File.Kept (f f' : File) : Prop where
  used : f'.used = f.used
  mode : f'.mode = f.mode
  first : f'.firstCluster = f.firstCluster

theorem File.Kept.trans {f f' f'' : File} (h : f.Kept f') (h' : f'.Kept f'') : f.Kept f'' :=
  ⟨h'.used.trans h.used, h'.mode.trans h.mode, h'.first.trans h.first⟩

theorem toCopy_pos {σ : Type} {w : WriteState σ} (hdata : w.data ≠ []) : 0 < w.toCopy := by
  have hlen := List.length_pos_iff.mpr hdata
  have hmod := Nat.mod_lt w.file.currOffset (show 0 < sectorSize by decide)
  simp only [WriteState.toCopy]
  omega

section Rounds
variable (hg : l.Geometry) {w w' : WriteState Mem}
include hg

theorem toCopy_fits (hat : At l w.s w.file cs pos) :
    w.file.currOffset + w.toCopy ≤ l.bytesPerCluster := by
  have hlt := Nat.mod_lt pos hg.bytes_pos
  rw [← hat.off] at hlt
  have hbytes := hg.bytes
  simp only [WriteState.toCopy, sectorSize] at *
  omega

theorem writeChunk_ram (hat : At l w.s w.file cs pos) :
    ∃ w', writeChunk l.ram w = (true, w') ∧ w'.file = w.file.moved w.toCopy ∧
      w'.data = w.data.drop w.toCopy ∧ w'.written = w.written + w.toCopy ∧
      w'.s = write w.s (l.posAddr cs pos) (w.data.take w.toCopy) := by
  have hfits := toCopy_fits hg hat
  have hlt := Nat.mod_lt pos hg.bytes_pos
  have hcurr := hat.chain.range _ (posAddr_mem hat.lt)
  have haddr : sectorSize * l.sectorOf w.file.currCluster (w.file.currOffset / sectorSize) +
      w.file.currOffset % sectorSize = l.posAddr cs pos := by
    rw [hat.curr, hat.off, data_addr hg hcurr hlt, Layout.posAddr]
  have hnowrap : (w.file.currOffset + w.toCopy) % 2 ^ 32 = w.file.currOffset + w.toCopy := by
    have := hg.bytes_lt
    exact Nat.mod_eq_of_lt (by omega)
  have hroom : w.file.currOffset % sectorSize + (w.data.take w.toCopy).length ≤ sectorSize := by
    simp only [List.length_take, WriteState.toCopy, sectorSize]
    omega
  have hput := putSector_write w.s
    (s := l.sectorOf w.file.currCluster (w.file.currOffset / sectorSize)) hroom
  rw [haddr] at hput
  simp only [writeChunk, Layout.ram, ramDisk, Option.getD_some, hnowrap, hput]
  exact ⟨_, rfl, rfl, rfl, rfl, rfl⟩

omit hg in
theorem posAddr_add {n j : ℕ} (hn : pos % l.bytesPerCluster + n ≤ l.bytesPerCluster) (hj : j < n) :
    l.posAddr cs (pos + j) = l.posAddr cs pos + j := by
  obtain ⟨hdiv, hmod⟩ := pos_inside (show pos % l.bytesPerCluster + j < l.bytesPerCluster by omega)
  rw [Layout.posAddr, Layout.posAddr, hdiv, hmod, Nat.add_assoc]

theorem entry_write {bs : List UInt8} {d : ℕ} (hd : d < l.clusters)
    (hn : pos % l.bytesPerCluster + bs.length ≤ l.bytesPerCluster) :
    l.entry (write m (l.posAddr cs pos) bs) d = l.entry m d := by
  apply entry_congr hg hd
  intro x hx
  apply write_apart
  by_contra hin
  have hcl : l.InCluster (cs.getD (pos / l.bytesPerCluster) 0) x := by
    simp only [Layout.InCluster, Layout.posAddr] at *
    omega
  exact not_inTable_of_inCluster hg hcl hx

theorem wrote_of_write {bs : List UInt8}
    (hlt : pos < cs.length * l.bytesPerCluster)
    (hn : pos % l.bytesPerCluster + bs.length ≤ l.bytesPerCluster) :
    Wrote l m (write m (l.posAddr cs pos) bs) cs cs pos bs := by
  have hpos := hg.bytes_pos
  have hin : ∀ x, l.posAddr cs pos ≤ x → x < l.posAddr cs pos + bs.length →
      ∃ j < bs.length, x = l.posAddr cs (pos + j) := by
    intro x h1 h2
    refine ⟨x - l.posAddr cs pos, by omega, ?_⟩
    rw [posAddr_add hn (by omega)]
    omega
  have hkeep : ∀ x, (∀ j < bs.length, x ≠ l.posAddr cs (pos + j)) →
      write m (l.posAddr cs pos) bs x = m x := by
    intro x hno
    apply write_apart
    by_contra hx
    obtain ⟨j, hj, heq⟩ := hin x (by omega) (by omega)
    exact hno j hj heq
  refine ⟨List.prefix_rfl, ?_, ?_, fun x _ hno => hkeep x hno, ?_, fun d hd hno => absurd hd hno⟩
  · have hidx : pos / l.bytesPerCluster + 1 ≤ cs.length :=
      Nat.div_lt_of_lt_mul (by rwa [Nat.mul_comm] at hlt)
    have hle := Nat.mul_le_mul_right l.bytesPerCluster hidx
    have hdm := Nat.div_add_mod pos l.bytesPerCluster
    rw [Nat.add_mul, Nat.one_mul, Nat.mul_comm] at hle
    omega
  · intro j hj
    have hcond : l.posAddr cs pos ≤ l.posAddr cs pos + j ∧
        l.posAddr cs pos + j < l.posAddr cs pos + bs.length := by omega
    rw [posAddr_add hn hj, write, if_pos hcond, Nat.add_sub_cancel_left]
  · exact fun d hd _ => entry_write hg hd.2 hn

theorem wrote_of_claim {x y : ℕ} (hx : x < l.clusters) (hxcs : x = 0 ∨ x ∈ cs)
    (hy : l.InVolume y) (hfree : l.entry m y = 0)
    (hpos : pos ≤ (cs ++ [y]).length * l.bytesPerCluster) :
    Wrote l m (l.claim m x y) cs (cs ++ [y]) pos [] := by
  refine ⟨List.prefix_append cs [y], by simpa using hpos, by simp, ?_, ?_, ?_⟩
  · intro z hz _
    exact claim_apart hg hy hx hz
  · intro d hd hno
    simp only [List.mem_append, List.mem_singleton, not_or] at hno
    refine entry_claim_other hg hy hx hd.2 hno.2 ?_
    intro hdx
    rcases hxcs with h0 | hmem
    · have h1 := hd.1
      omega
    · exact hno.1 (hdx ▸ hmem)
  · intro d hd hno
    simp only [List.mem_append, List.mem_singleton, hno, false_or] at hd
    rw [hd]
    exact hfree

omit hg in
theorem Chain.at_inside {f : File} {n : ℕ} (hch : Chain l m f.firstCluster cs)
    (hlt : pos < cs.length * l.bytesPerCluster)
    (hcurr : f.currCluster = cs.getD (pos / l.bytesPerCluster) 0)
    (hoff : f.currOffset = pos % l.bytesPerCluster + n)
    (hin : pos % l.bytesPerCluster + n < l.bytesPerCluster) : At l m f cs (pos + n) := by
  obtain ⟨hdiv, hmod⟩ := pos_inside hin
  have hidx : pos / l.bytesPerCluster < cs.length :=
    Nat.div_lt_of_lt_mul (by rwa [Nat.mul_comm] at hlt)
  refine ⟨hch, ?_, by rw [hdiv, hcurr], by rw [hmod, hoff]⟩
  have hdm := Nat.div_add_mod pos l.bytesPerCluster
  have hnext := Nat.mul_le_mul_right l.bytesPerCluster (Nat.succ_le_of_lt hidx)
  rw [Nat.succ_mul, Nat.mul_comm] at hnext
  omega

theorem Chain.at_next {f : File} {n : ℕ} (hch : Chain l m f.firstCluster cs)
    (hfull : pos % l.bytesPerCluster + n = l.bytesPerCluster)
    (hmore : pos / l.bytesPerCluster + 1 < cs.length)
    {x : ℕ} (hx : x = cs[pos / l.bytesPerCluster + 1]) :
    At l m { f with currCluster := x, currOffset := 0 } cs (pos + n) := by
  obtain ⟨hnew, hdiv, hmod⟩ := pos_boundary hg.bytes_pos hfull
  refine ⟨hch, ?_, ?_, hmod.symm⟩
  · rw [hnew]
    exact Nat.mul_lt_mul_of_pos_right hmore hg.bytes_pos
  · rw [hdiv, List.getD_eq_getElem _ _ hmore, hx]

theorem Chain.claim_last {c i x y : ℕ} (hch : Chain l m c cs) (hlast : i + 1 = cs.length)
    (hx : x = cs[i]) (hy : l.InVolume y) (hend : y < scanEnd) (hfree : l.entry m y = 0) :
    Chain l (l.claim m x y) c (cs ++ [y]) := by
  have hsplit : cs = cs.take i ++ [x] := by
    rw [hx, List.take_append_getElem (by omega), hlast, List.take_length]
  rw [hsplit] at hch
  have hgrown := hch.relink hg hy hend hfree
  rwa [List.append_cons, ← hsplit] at hgrown

omit hg in
theorem advance_linked {σ : Type} (fs : Fs σ) {w : WriteState σ} {next : ℕ} {s : σ}
    (hout : ¬ w.file.currOffset < fs.bytesPerCluster)
    (hnext : nextCluster fs w.file.currCluster w.s = (next, s)) (hne : next ≠ endOfChain) :
    advance fs w =
      (true, { w with s := s, file := { w.file with currCluster := next, currOffset := 0 } }) := by
  simp only [advance, if_neg hout, hnext, if_neg hne]

theorem advance_ram {n : ℕ} (hch : Chain l w.s w.file.firstCluster cs)
    (hlt : pos < cs.length * l.bytesPerCluster)
    (hcurr : w.file.currCluster = cs.getD (pos / l.bytesPerCluster) 0)
    (hoff : w.file.currOffset = pos % l.bytesPerCluster + n)
    (hle : pos % l.bytesPerCluster + n ≤ l.bytesPerCluster)
    (hallocs : AllocsIn l (advance l.ram w).2.trace) :
    ∃ w' cs', advance l.ram w = (true, w') ∧ At l w'.s w'.file cs' (pos + n) ∧
      Wrote l w.s w'.s cs cs' (pos + n) [] ∧ w.file.Kept w'.file ∧
      w'.data = w.data ∧ w'.written = w.written ∧ Stretched l w.s w'.s cs cs' (pos + n) := by
  have hidx : pos / l.bytesPerCluster < cs.length :=
    Nat.div_lt_of_lt_mul (by rwa [Nat.mul_comm] at hlt)
  by_cases hin : w.file.currOffset < l.bytesPerCluster
  · -- still inside the cluster
    have hat := hch.at_inside hlt hcurr hoff (by rwa [← hoff])
    exact ⟨w, cs, if_pos hin, hat, Wrote.refl hat.lt.le, ⟨rfl, rfl, rfl⟩, rfl, rfl,
      .same hat.lt rfl⟩
  · -- at the boundary, where the position is the start of the next cluster
    have hfull : pos % l.bytesPerCluster + n = l.bytesPerCluster := by
      rw [hoff] at hin
      omega
    rw [List.getD_eq_getElem _ _ hidx] at hcurr
    by_cases hmore : pos / l.bytesPerCluster + 1 < cs.length
    · have hnext := hch.path.next_getElem hmore
      have hne : cs[pos / l.bytesPerCluster + 1] ≠ endOfChain := fun h =>
        end_notMem hg hch.range (h ▸ List.getElem_mem hmore)
      rw [← hcurr] at hnext
      have hadv := advance_linked l.ram hin (nextCluster_ram l w.file.currCluster w.s)
        (hnext ▸ hne)
      rw [hnext] at hadv
      have hat : At l w.s { w.file with
          currCluster := cs[pos / l.bytesPerCluster + 1], currOffset := 0 } cs (pos + n) :=
        hch.at_next hg hfull hmore rfl
      rw [hadv]
      exact ⟨_, cs, rfl, hat, Wrote.refl hat.lt.le, ⟨rfl, rfl, rfl⟩, rfl, rfl, .same hat.lt rfl⟩
    · have hlast : pos / l.bytesPerCluster + 1 = cs.length := by omega
      have hnext := hch.path.next_last hlast
      rw [← hcurr] at hnext
      simp only [advance, nextCluster_ram, Layout.ram_toLayout, if_neg hin, hnext, if_true]
        at hallocs ⊢
      have hmem : w.file.currCluster ∈ cs := by
        rw [hcurr]
        exact List.getElem_mem hidx
      rcases allocateCluster_ram l w.file.currCluster w.s with
        ⟨hres, -⟩ | ⟨y, -, hend, hfree, hmin, hres⟩
      · -- a failed allocation is no cluster of the volume
        rw [hres, if_pos rfl] at hallocs
        exact absurd (hallocs 0 (by simp)).1 (by decide)
      · rw [hres] at hallocs ⊢
        have hy : l.InVolume y := by
          refine hallocs y ?_
          split_ifs <;> simp
        have hy0 : y ≠ 0 := by
          have h1 := hy.1
          omega
        have hext := hch.claim_last hg hlast hcurr hy hend hfree
        have hat : At l (l.claim w.s w.file.currCluster y)
            { w.file with currCluster := y, currOffset := 0 } (cs ++ [y]) (pos + n) :=
          hext.at_next hg hfull (by simp [hlast]) (by simp [hlast])
        rw [if_neg hy0]
        refine ⟨_, cs ++ [y], rfl, hat,
          wrote_of_claim hg (hch.range _ hmem).2 (Or.inr hmem) hy hfree hat.lt.le,
          ⟨rfl, rfl, rfl⟩, rfl, rfl, ⟨⟨[y], rfl, ?_⟩, ?_⟩⟩
        · rw [freeClusters_claim hg (hch.range _ hmem).2 (fun _ => hch.not_free hmem) hy hend hfree]
          exact freeClusters_first hy hend hfree hmin
        · rw [(pos_boundary hg.bytes_pos hfull).2.1, hlast, List.length_append,
            List.length_singleton]
          omega

theorem writeRound_ram (hat : At l w.s w.file cs pos) (hdata : w.data ≠ [])
    (hallocs : AllocsIn l (writeRound l.ram w).2.trace) :
    ∃ w' cs' n, 0 < n ∧ n ≤ w.data.length ∧ writeRound l.ram w = (true, w') ∧
      At l w'.s w'.file cs' (pos + n) ∧ Wrote l w.s w'.s cs cs' pos (w.data.take n) ∧
      w.file.Kept w'.file ∧ w'.data = w.data.drop n ∧ w'.written = w.written + n ∧
      Stretched l w.s w'.s cs cs' (pos + n) := by
  have hfits := toCopy_fits hg hat
  have hcurr := hat.chain.range _ (posAddr_mem hat.lt)
  have hne : w.file.currCluster ≠ 0 := by
    rw [hat.curr]
    have h1 := hcurr.1
    omega
  have hle : w.toCopy ≤ w.data.length := Nat.min_le_left _ _
  have hpos := toCopy_pos hdata
  have hlen : (w.data.take w.toCopy).length = w.toCopy := by
    rw [List.length_take]
    omega
  rw [hat.off] at hfits
  have hwrote : Wrote l w.s (write w.s (l.posAddr cs pos) (w.data.take w.toCopy)) cs cs pos
      (w.data.take w.toCopy) := wrote_of_write hg hat.lt (by omega)
  have hensure : ensureCluster l.ram w = (true, w) := if_pos hne
  obtain ⟨w₁, hchunk, hfile, hdata₁, hwritten₁, hs₁⟩ := writeChunk_ram hg hat
  simp only [writeRound, hensure, hchunk] at hallocs ⊢
  have hchain : Chain l w₁.s w₁.file.firstCluster cs := by
    rw [hfile, hs₁]
    exact hat.chain.congr fun x hx => entry_write hg (hat.chain.range x hx).2 (by omega)
  have hoff : w₁.file.currOffset = pos % l.bytesPerCluster + w.toCopy := by
    rw [hfile, ← hat.off]
    rfl
  have hfree : l.freeClusters w₁.s = l.freeClusters w.s := by
    rw [hs₁]
    exact freeClusters_congr fun d hd => entry_write hg hd (by omega)
  obtain ⟨w', cs', hadv, hat', hext, hkept, hd, hwr, hgrown⟩ := advance_ram hg hchain hat.lt
    (by rw [hfile]; exact hat.curr) hoff hfits hallocs
  refine ⟨w', cs', w.toCopy, hpos, hle, hadv, hat', ?_, ?_, by rw [hd, hdata₁],
    by rw [hwr, hwritten₁], (Stretched.same hat.lt hfree).trans hgrown (Nat.le_add_right _ _)⟩
  · rw [hs₁] at hext
    have htrans := hwrote.trans hg hat'.chain.range hat'.chain.nodup (by rw [hlen]; exact hext)
    rwa [List.append_nil] at htrans
  · rw [hfile] at hkept
    exact ⟨hkept.used, hkept.mode, hkept.first⟩

end Rounds

section Parts
variable {σ : Type} {fs : Fs σ} (R : WriteState σ → WriteState σ → Prop)
  (htrans : ∀ a b c, R a b → R b c → R a c) (hensure : ∀ w, R w (ensureCluster fs w).2)
  (hchunk : ∀ w, R w (writeChunk fs w).2) (hadvance : ∀ w, R w (advance fs w).2)
include htrans hensure hchunk hadvance

theorem writeRound_rel (w : WriteState σ) : R w (writeRound fs w).2 := by
  have h1 := hensure w
  simp only [writeRound]
  split
  · next w₁ heq => rwa [heq] at h1
  · next w₁ heq =>
    rw [heq] at h1
    have h2 := hchunk w₁
    split
    · next w₂ heq₂ =>
      rw [heq₂] at h2
      exact htrans _ _ _ h1 h2
    · next w₂ heq₂ =>
      rw [heq₂] at h2
      exact htrans _ _ _ (htrans _ _ _ h1 h2) (hadvance w₂)

theorem writeLoop_rel (hrefl : ∀ w, R w w) (n : ℕ) (w : WriteState σ) :
    R w (writeLoop fs n w) := by
  induction n generalizing w with
  | zero => exact hrefl w
  | succ n ih =>
    have h1 := writeRound_rel R htrans hensure hchunk hadvance w
    simp only [writeLoop]
    split_ifs
    · exact hrefl w
    · split
      · next w₁ heq => rwa [heq] at h1
      · next w₁ heq =>
        rw [heq] at h1
        exact htrans _ _ _ h1 (ih w₁)

end Parts

section Trace
variable {σ : Type} (fs : Fs σ) (w : WriteState σ)

theorem ensureCluster_trace : w.trace <+: (ensureCluster fs w).2.trace := by
  simp only [ensureCluster]
  split_ifs <;> simp

theorem writeChunk_trace : w.trace <+: (writeChunk fs w).2.trace := by
  simp only [writeChunk]
  split <;> simp

theorem advance_trace : w.trace <+: (advance fs w).2.trace := by
  simp only [advance]
  split_ifs <;> simp

theorem writeLoop_trace (n : ℕ) : w.trace <+: (writeLoop fs n w).trace :=
  writeLoop_rel (fun w w' => w.trace <+: w'.trace) (fun _ _ _ => .trans) (ensureCluster_trace fs)
    (writeChunk_trace fs) (advance_trace fs) (fun _ => List.prefix_rfl) n w

end Trace

theorem AllocsIn.mono {σ : Type} {t t' : List (Event σ)} (h : AllocsIn l t') (hpre : t <+: t') :
    AllocsIn l t :=
  fun c hc => h c (hpre.subset hc)

theorem writeLoop_ram (hg : l.Geometry) {w : WriteState Mem} {n : ℕ}
    (hat : At l w.s w.file cs pos) (hn : w.data.length ≤ n)
    (hallocs : AllocsIn l (writeLoop l.ram n w).trace) :
    ∃ cs', At l (writeLoop l.ram n w).s (writeLoop l.ram n w).file cs' (pos + w.data.length) ∧
      Wrote l w.s (writeLoop l.ram n w).s cs cs' pos w.data ∧
      w.file.Kept (writeLoop l.ram n w).file ∧
      (writeLoop l.ram n w).written = w.written + w.data.length ∧
      Stretched l w.s (writeLoop l.ram n w).s cs cs' (pos + w.data.length) := by
  induction n generalizing w cs pos with
  | zero =>
    have hnil : w.data = [] := List.length_eq_zero_iff.mp (by omega)
    rw [hnil]
    exact ⟨cs, hat, Wrote.refl hat.lt.le, ⟨rfl, rfl, rfl⟩, rfl, .same hat.lt rfl⟩
  | succ n ih =>
    by_cases hnil : w.data = []
    · rw [writeLoop, if_pos hnil, hnil]
      exact ⟨cs, hat, Wrote.refl hat.lt.le, ⟨rfl, rfl, rfl⟩, rfl, .same hat.lt rfl⟩
    · have hround : AllocsIn l (writeRound l.ram w).2.trace := by
        refine hallocs.mono ?_
        rw [writeLoop, if_neg hnil]
        split
        · next w₁ heq => rw [heq]
        · next w₁ heq =>
          rw [heq]
          exact writeLoop_trace l.ram w₁ n
      obtain ⟨w₁, cs₁, k, hk, hkle, heq, hat₁, hwrote₁, hkept₁, hd₁, hwr₁, hstretch₁⟩ :=
        writeRound_ram hg hat hnil hround
      rw [writeLoop, if_neg hnil, heq] at hallocs ⊢
      obtain ⟨cs', hat', hwrote', hkept', hwr', hstretch'⟩ := ih hat₁ (by
        rw [hd₁, List.length_drop]
        omega) hallocs
      have hlen : k + w₁.data.length = w.data.length := by
        rw [hd₁, List.length_drop]
        omega
      have htake : (w.data.take k).length = k := by
        rw [List.length_take]
        omega
      refine ⟨cs', ?_, ?_, hkept₁.trans hkept', ?_, ?_⟩
      · rw [← hlen, ← Nat.add_assoc]
        exact hat'
      · have htrans := hwrote₁.trans hg hat'.chain.range hat'.chain.nodup
          (by rw [htake]; exact hwrote')
        rwa [hd₁, List.take_append_drop] at htrans
      · rw [hwr', hwr₁]
        omega
      · rw [← hlen, ← Nat.add_assoc]
        exact hstretch₁.trans hstretch' (Nat.le_add_right _ _)

inductive Ready (l : Layout) (m : Mem) (f : File) : List ℕ → ℕ → Prop
  | empty (hfirst : f.firstCluster = 0) (hcurr : f.currCluster = 0) : Ready l m f [] 0
  | at {cs : List ℕ} {pos : ℕ} (h : At l m f cs pos) : Ready l m f cs pos

theorem Ready.range {f : File} (hr : Ready l m f cs pos) : ∀ x ∈ cs, l.InVolume x := by
  cases hr with
  | empty => simp
  | «at» h => exact h.chain.range

theorem Ready.nodup {f : File} (hr : Ready l m f cs pos) : cs.Nodup := by
  cases hr with
  | empty => exact List.nodup_nil
  | «at» h => exact h.chain.nodup

theorem Ready.pos_le {f : File} (hr : Ready l m f cs pos) :
    pos ≤ cs.length * l.bytesPerCluster := by
  cases hr with
  | empty => exact Nat.zero_le _
  | «at» h => exact h.lt.le

theorem Chain.ready (hg : l.Geometry) {e : Dirent} (hch : Chain l m e.cluster cs) (mode : UInt8) :
    Ready l m (openFile e mode) cs 0 := by
  refine .at ⟨hch, ?_, ?_, ?_⟩
  · exact Nat.mul_pos (List.length_pos_iff.mpr hch.nonempty) hg.bytes_pos
  · obtain ⟨c, cs, rfl⟩ := List.exists_cons_of_ne_nil hch.nonempty
    rw [Nat.zero_div]
    exact (path_cons.mp hch.path).1
  · exact (Nat.zero_mod _).symm

theorem writeLoop_first {f : File} {data : List UInt8} {y n : ℕ} (hcurr : f.currCluster = 0)
    (hres : allocateCluster l.ram 0 m = (y, l.claim m 0 y)) (hy0 : y ≠ 0) (hnil : data ≠ []) :
    writeLoop l.ram (n + 1) ⟨f, data, 0, m, []⟩ =
      writeLoop l.ram (n + 1) ⟨{ f with firstCluster := y, currCluster := y, currOffset := 0 },
        data, 0, l.claim m 0 y, [.alloc y]⟩ := by
  have hfirst : ensureCluster l.ram ⟨f, data, 0, m, []⟩ =
      (true, ⟨{ f with firstCluster := y, currCluster := y, currOffset := 0 }, data, 0,
        l.claim m 0 y, [.alloc y]⟩) := by
    simp [ensureCluster, hcurr, hres, hy0]
  have hagain :
      ensureCluster l.ram ⟨{ f with firstCluster := y, currCluster := y, currOffset := 0 },
      data, 0, l.claim m 0 y, [.alloc y]⟩ =
      (true, ⟨{ f with firstCluster := y, currCluster := y, currOffset := 0 }, data, 0,
        l.claim m 0 y, [.alloc y]⟩) := if_pos hy0
  rw [writeLoop, writeLoop, if_neg hnil, if_neg hnil, writeRound, writeRound, hfirst, hagain]

theorem Chain.fresh_at (hg : l.Geometry) {y : ℕ} (hy : l.InVolume y) (f : File) :
    At l (l.claim m 0 y) { f with firstCluster := y, currCluster := y, currOffset := 0 } [y] 0 := by
  have hpos := hg.bytes_pos
  refine ⟨Chain.fresh hg hy, by simpa using hpos, ?_, (Nat.zero_mod _).symm⟩
  rw [Nat.zero_div]
  rfl

theorem fat32Write_ram (hg : l.Geometry) {f : File} {data : List UInt8} (hused : f.used = true)
    (hmode : f.mode = .write) (hr : Ready l m f cs pos)
    (hallocs : AllocsIn l (fat32Write l.ram f data m).2.trace) :
    (fat32Write l.ram f data m).1 = data.length ∧
    ∃ cs', Ready l (fat32Write l.ram f data m).2.s (fat32Write l.ram f data m).2.file cs'
        (pos + data.length) ∧
      Wrote l m (fat32Write l.ram f data m).2.s cs cs' pos data ∧
      (fat32Write l.ram f data m).2.file.used = true ∧
      (fat32Write l.ram f data m).2.file.mode = .write ∧
      (f.firstCluster ≠ 0 →
        (fat32Write l.ram f data m).2.file.firstCluster = f.firstCluster) ∧
      (cs ≠ [] ∨ data ≠ [] →
        Stretched l m (fat32Write l.ram f data m).2.s cs cs' (pos + data.length)) := by
  have hopen : ¬ (¬ (f.used = true) ∨ f.mode ≠ .write) := by simp [hused, hmode]
  simp only [fat32Write, if_neg hopen] at hallocs ⊢
  cases hr with
  | «at» hat =>
    obtain ⟨cs', hat', hwrote, hkept, hwr, hgrown⟩ := writeLoop_ram hg
      (w := ⟨f, data, 0, m, []⟩) hat le_rfl hallocs
    exact ⟨by rw [hwr]; simp, cs', .at hat', hwrote, hkept.used.trans hused,
      hkept.mode.trans hmode, fun _ => hkept.first, fun _ => hgrown⟩
  | empty hfirst hcurr =>
    by_cases hnil : data = []
    · subst hnil
      exact ⟨rfl, [], .empty hfirst hcurr, Wrote.refl (Nat.zero_le _), hused, hmode, fun _ => rfl,
        fun h => absurd h (by simp)⟩
    · -- the first round allocates the first cluster and then goes on as from its start
      obtain ⟨n, hn⟩ : ∃ n, data.length = n + 1 :=
        Nat.exists_eq_succ_of_ne_zero fun h => hnil (List.length_eq_zero_iff.mp h)
      rcases allocateCluster_ram l 0 m with ⟨hres, -⟩ | ⟨y, hy2, hend, hfree, hmin, hres⟩
      · have hround : writeRound l.ram ⟨f, data, 0, m, []⟩ =
            (false, ⟨{ f with firstCluster := 0 }, data, 0, m, [.alloc 0]⟩) := by
          simp [writeRound, ensureCluster, hcurr, hres]
        rw [hn, writeLoop, if_neg hnil, hround] at hallocs
        exact absurd (hallocs 0 (by simp)).1 (by decide)
      · have hy0 : y ≠ 0 := by omega
        set w₀ : WriteState Mem := ⟨{ f with firstCluster := y, currCluster := y, currOffset := 0 },
          data, 0, l.claim m 0 y, [.alloc y]⟩ with hw₀
        rw [hn, writeLoop_first hcurr hres hy0 hnil] at hallocs ⊢
        have hy : l.InVolume y :=
          hallocs y ((writeLoop_trace l.ram w₀ (n + 1)).subset (by simp [hw₀]))
        have hat : At l w₀.s w₀.file [y] 0 := Chain.fresh_at hg hy f
        have hclaim : Wrote l m w₀.s [] [y] 0 [] :=
          wrote_of_claim hg (by have := hy.2; omega) (Or.inl rfl) hy hfree (Nat.zero_le _)
        have hgrow : Stretched l m w₀.s [] [y] 0 := by
          refine ⟨⟨[y], rfl, ?_⟩, by simp⟩
          rw [freeClusters_claim hg (by have := hy.2; omega) (by simp) hy hend hfree]
          exact freeClusters_first hy hend hfree hmin
        obtain ⟨cs', hat', hwrote, hkept, hwr, hgrown⟩ := writeLoop_ram hg hat hn.le hallocs
        have hboth := hclaim.trans hg hat'.chain.range hat'.chain.nodup hwrote
        have hlen : w₀.data.length = n + 1 := hn
        rw [hlen] at hat' hwr hgrown
        refine ⟨by rw [hwr]; simp [hw₀], cs', .at hat', hboth, hkept.used.trans hused,
          hkept.mode.trans hmode, fun h => absurd hfirst h,
          fun _ => hgrow.trans hgrown (Nat.zero_le _)⟩

end XldKernel.Fat32
