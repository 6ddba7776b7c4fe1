import XldKernel.FatFaults

/-!
# FAT32: links that cannot be read

`fat32_next_cluster` reports a link that it could not read as the end of the
chain, and `fat32_write` answers an end of the chain by hanging a new cluster
behind the current one. The chain of the file only grows as long as no read of a
link inside of it fails; at the last cluster a failed read does no harm.
-/

namespace XldKernel.Fat32
open ByteMemory BlockDevice LinkedPath
variable {l : Layout} {m : Mem} {c : ℕ} {cs old : List ℕ} {w : WriteState Faulty}

/-- Of the next `left` clusters from position `offset` of the first on, the links that
`len` more bytes pass are read: the `r`-th comes after the sectors of `r` clusters,
less those in front of `offset`, and after `r - 1` other links. -/
def LinksRead (l : Layout) (left offset len : ℕ) (fails : ℕ → Bool) : Prop :=
  ∀ r, 0 < r → r < left → r * l.bytesPerCluster ≤ offset + len →
    fails (r * (l.bpb.sectorsPerCluster + 1) - 1 - offset / sectorSize) = false

def LinksAhead (l : Layout) (f : File) (len : ℕ) (d : Faulty) : Prop :=
  ∀ rest, Chain l d.mem f.currCluster rest → LinksRead l rest.length f.currOffset len d.readFails

def Extends (l : Layout) (m : Mem) (f : File) (old : List ℕ) : Prop :=
  (f.firstCluster = 0 ∧ f.currCluster = 0 ∧ old = []) ∨
    ∃ pre rest, Chain l m f.firstCluster (pre ++ f.currCluster :: rest) ∧
      old <+: pre ++ f.currCluster :: rest

theorem linksRead_one (l : Layout) (offset len : ℕ) (fails : ℕ → Bool) :
    LinksRead l 1 offset len fails := by
  intro r h0 h1
  omega

theorem Chain.suffix {pre rest : List ℕ} {x : ℕ} (hch : Chain l m c (pre ++ x :: rest)) :
    Chain l m x (x :: rest) where
  path := ⟨rfl, hch.path.split.2⟩
  nonempty := by simp
  range z hz := hch.range z (List.mem_append_right _ hz)
  good z hz := hch.good z (List.mem_append_right _ hz)
  nodup := hch.nodup.of_append_right

theorem LinksAhead.of_chain (hg : l.Geometry) {f : File} {len : ℕ} {d : Faulty} {rest : List ℕ}
    (hch : Chain l d.mem f.currCluster rest)
    (h : LinksRead l rest.length f.currOffset len d.readFails) : LinksAhead l f len d := by
  intro rest' hch'
  rwa [hch'.unique hg hch]

theorem LinksAhead.of_short {f : File} {len : ℕ} (h : f.currOffset + len < l.bytesPerCluster)
    (d : Faulty) : LinksAhead l f len d := by
  intro rest _ r h0 _ hpass
  have hmul := Nat.mul_le_mul_right l.bytesPerCluster h0
  omega

theorem Extends.fileChain {f : File} (h : Extends l m f old) :
    ∃ new, FileChain l m f.firstCluster new ∧ old <+: new := by
  rcases h with ⟨hfirst, -, rfl⟩ | ⟨pre, rest, hch, hpre⟩
  · exact ⟨[], Or.inl ⟨hfirst, rfl⟩, List.prefix_rfl⟩
  · exact ⟨_, Or.inr hch, hpre⟩

theorem nextCluster_good {d : Faulty} (h : d.readFails 0 = false) (l : Layout) (c : ℕ) :
    nextCluster l.faulty c d = (l.next d.mem c, d.skip 1) := by
  simp only [nextCluster, readFatEntry, Layout.faulty_toLayout, Layout.faulty_dev, read_good h,
    load_sector, Layout.next, Layout.entry, Layout.fatAddr]

theorem writeChunk_done {σ : Type} {fs : Fs σ} {w : WriteState σ} (h : (writeChunk fs w).1 = true) :
    (writeChunk fs w).2.data = w.data.drop w.toCopy ∧
    (writeChunk fs w).2.file.currOffset = (w.file.currOffset + w.toCopy) % 2 ^ 32 := by
  simp only [writeChunk] at h ⊢
  split at h
  · simp at h
  · exact ⟨rfl, rfl⟩

theorem writeChunk_readFails (l : Layout) (w : WriteState Faulty) :
    (writeChunk l.faulty w).2.s.readFails = (w.s.skip 1).readFails := by
  simp only [writeChunk, Layout.faulty_dev, faultyDisk]
  split_ifs <;> rfl

/-- The end of a cluster is reached in its last sector. -/
theorem toCopy_cases (hg : l.Geometry) (hoff : w.file.currOffset < l.bytesPerCluster)
    (hdata : w.data ≠ []) :
    0 < w.toCopy ∧ w.toCopy ≤ w.data.length ∧ w.file.currOffset + w.toCopy < 2 ^ 32 ∧
    w.file.currOffset + w.toCopy ≤ l.bytesPerCluster ∧
    (w.file.currOffset + w.toCopy = l.bytesPerCluster →
      w.file.currOffset / sectorSize + 1 = l.bpb.sectorsPerCluster) ∧
    (w.toCopy < w.data.length →
      (w.file.currOffset + w.toCopy) / sectorSize = w.file.currOffset / sectorSize + 1) := by
  have hpos := List.length_pos_iff.mpr hdata
  have hbytes := hg.bytes
  have hlt := hg.bytes_lt
  simp only [WriteState.toCopy, sectorSize] at *
  omega

section Rounds
variable (hg : l.Geometry)
include hg

theorem ensureCluster_extends (hw : Extends l w.s.mem w.file old)
    (hoff : w.file.currOffset < l.bytesPerCluster)
    (hahead : LinksAhead l w.file w.data.length w.s)
    (hallocs : AllocsInside l (ensureCluster l.faulty w).2.trace) :
    Extends l (ensureCluster l.faulty w).2.s.mem (ensureCluster l.faulty w).2.file old ∧
    (ensureCluster l.faulty w).2.data = w.data ∧
    ((ensureCluster l.faulty w).1 = true →
      (ensureCluster l.faulty w).2.file.currCluster ≠ 0 ∧
      (ensureCluster l.faulty w).2.file.currOffset < l.bytesPerCluster ∧
      LinksAhead l (ensureCluster l.faulty w).2.file w.data.length
        (ensureCluster l.faulty w).2.s) := by
  by_cases hcurr : w.file.currCluster ≠ 0
  · rw [ensureCluster, if_pos hcurr]
    exact ⟨hw, rfl, fun _ => ⟨hcurr, hoff, hahead⟩⟩
  have hold : old = [] := by
    rcases hw with ⟨-, -, h⟩ | ⟨pre, rest, hch, -⟩
    · exact h
    · have h2 := (hch.range w.file.currCluster (by simp)).1
      exact absurd h2 (by rw [not_not.mp hcurr]; decide)
  obtain ⟨c, d', halloc, hout⟩ := allocateCluster_faulty l 0 w.s
  simp only [ensureCluster, if_neg hcurr, halloc] at hallocs ⊢
  by_cases h0 : c = 0
  · rw [if_pos h0]
    exact ⟨Or.inl ⟨h0, not_not.mp hcurr, hold⟩, rfl, fun h => absurd h (by simp)⟩
  · rw [if_neg h0] at hallocs ⊢
    have hch : Chain l d'.mem c [c] := by
      rw [(hout.of_ne_zero h0).2.2]
      exact Chain.fresh hg (hallocs c (by simp) h0)
    refine ⟨Or.inr ⟨[], [], hch, ?_⟩, rfl, fun _ => ⟨h0, hg.bytes_pos, ?_⟩⟩
    · rw [hold]
      exact List.nil_prefix
    · exact .of_chain hg hch (linksRead_one l _ _ _)

theorem LinksRead.stay {left offset n len : ℕ} {d : Faulty}
    (h : LinksRead l left offset len d.readFails) (hn : n ≤ len)
    (hin : offset + n < l.bytesPerCluster)
    (hsec : n < len → (offset + n) / sectorSize = offset / sectorSize + 1) :
    LinksRead l left (offset + n) (len - n) (d.skip 1).readFails := by
  intro r h0 hr hpass
  have hmul := Nat.mul_le_mul_right l.bytesPerCluster h0
  have hmul' := Nat.mul_le_mul_right (l.bpb.sectorsPerCluster + 1) h0
  have hsec' := hsec (by omega)
  have hlt : (offset + n) / sectorSize < l.bpb.sectorsPerCluster := by
    rw [hg.bytes] at hin
    exact Nat.div_lt_of_lt_mul hin
  have hidx : r * (l.bpb.sectorsPerCluster + 1) - 1 - (offset + n) / sectorSize + 1 =
      r * (l.bpb.sectorsPerCluster + 1) - 1 - offset / sectorSize := by omega
  rw [Faulty.skip_readFails, hidx]
  exact h r h0 hr (by omega)

omit hg in
theorem LinksRead.pass {left offset n len : ℕ} {d : Faulty}
    (h : LinksRead l (left + 1) offset len d.readFails) (hn : n ≤ len)
    (hend : offset + n = l.bytesPerCluster)
    (hsec : offset / sectorSize + 1 = l.bpb.sectorsPerCluster) :
    LinksRead l left 0 (len - n) (d.skip 2).readFails := by
  intro r h0 hr hpass
  have hmul := Nat.mul_le_mul_right (l.bpb.sectorsPerCluster + 1) h0
  have hidx : r * (l.bpb.sectorsPerCluster + 1) - 1 - 0 / sectorSize + 2 =
      (r + 1) * (l.bpb.sectorsPerCluster + 1) - 1 - offset / sectorSize := by
    rw [Nat.zero_div, Nat.succ_mul]
    omega
  rw [Faulty.skip_readFails, hidx]
  refine h (r + 1) (by omega) (by omega) ?_
  rw [Nat.succ_mul]
  omega

theorem advance_extends (hdata : w.data ≠ []) (hoff : w.file.currOffset < l.bytesPerCluster)
    {pre rest : List ℕ}
    (hch : Chain l w.s.mem w.file.firstCluster (pre ++ w.file.currCluster :: rest))
    (hold : old <+: pre ++ w.file.currCluster :: rest)
    (hlinks : LinksRead l (rest.length + 1) w.file.currOffset w.data.length w.s.readFails)
    {w₂ : WriteState Faulty} (hchunk : writeChunk l.faulty w = (true, w₂))
    (hallocs : AllocsInside l (advance l.faulty w₂).2.trace) :
    Extends l (advance l.faulty w₂).2.s.mem (advance l.faulty w₂).2.file old ∧
    ((advance l.faulty w₂).1 = true →
      (advance l.faulty w₂).2.file.currOffset < l.bytesPerCluster ∧
      LinksAhead l (advance l.faulty w₂).2.file (advance l.faulty w₂).2.data.length
        (advance l.faulty w₂).2.s) := by
  obtain ⟨hn0, hn, hwrap, hle, hlast, hsec⟩ := toCopy_cases hg hoff hdata
  obtain ⟨hch₂, hcurr₂, hfirst₂, -⟩ := writeChunk_faulty hg hch (by simp) hoff
  obtain ⟨hdata₂, hoff₂⟩ := writeChunk_done (show (writeChunk l.faulty w).1 = true by rw [hchunk])
  have hfails₂ := writeChunk_readFails l w
  rw [hchunk] at hch₂ hcurr₂ hfirst₂ hdata₂ hoff₂ hfails₂
  rw [Nat.mod_eq_of_lt hwrap] at hoff₂
  have hlen₂ : w₂.data.length = w.data.length - w.toCopy := by rw [hdata₂, List.length_drop]
  dsimp only at hcurr₂ hfirst₂
  rw [← hcurr₂] at hch₂ hold
  rw [← hfirst₂] at hch₂
  by_cases hin : w₂.file.currOffset < l.faulty.bytesPerCluster
  · rw [advance, if_pos hin]
    refine ⟨Or.inr ⟨pre, rest, hch₂, hold⟩, fun _ => ⟨hin, .of_chain hg hch₂.suffix ?_⟩⟩
    rw [hlen₂, hfails₂, hoff₂]
    exact hlinks.stay hg hn (by rwa [← hoff₂]) hsec
  have hend : w.file.currOffset + w.toCopy = l.bytesPerCluster := by
    rw [hoff₂] at hin
    exact le_antisymm hle (not_lt.mp hin)
  cases rest with
  | nil =>
    -- a failed read and the end mark are the same here
    obtain ⟨next, d₁, hnext, hmem₁, hlink⟩ := nextCluster_faulty l w₂.file.currCluster w₂.s
    have heoc : next = endOfChain := hlink.elim id fun h => h.trans hch₂.path.split.2
    obtain ⟨c, d₂, halloc, hout⟩ := allocateCluster_faulty l w₂.file.currCluster d₁
    rw [hmem₁] at hout
    simp only [advance, if_neg hin, hnext, if_pos heoc, halloc] at hallocs ⊢
    by_cases h0 : c = 0
    · rw [if_pos h0]
      subst h0
      exact ⟨Or.inr ⟨pre, [], hout.chain hg hch₂, hold⟩, fun h => absurd h (by simp)⟩
    · rw [if_neg h0] at hallocs ⊢
      obtain ⟨hscan, hfree, hclaim⟩ := hout.of_ne_zero h0
      have hnew := hch₂.relink hg (hallocs c (by simp) h0) hscan hfree
      rw [← hclaim] at hnew
      have hsplit : pre ++ [w₂.file.currCluster, c] = (pre ++ [w₂.file.currCluster]) ++
          c :: [] := by
        simp
      rw [hsplit] at hnew
      refine ⟨Or.inr ⟨_, [], hnew, hold.trans (List.prefix_append _ _)⟩,
        fun _ => ⟨hg.bytes_pos, .of_chain hg hnew.suffix (linksRead_one l _ _ _)⟩⟩
  | cons z zs =>
    have hread : w₂.s.readFails 0 = false := by
      have h1 := hlinks 1 one_pos (by simp) (by omega)
      have hidx : 1 * (l.bpb.sectorsPerCluster + 1) - 1 - w.file.currOffset / sectorSize = 1 := by
        have := hlast hend
        omega
      rw [hidx] at h1
      rw [hfails₂]
      exact h1
    have hnext : l.next w₂.s.mem w₂.file.currCluster = z := hch₂.path.split.2.1
    have hz : z ≠ endOfChain := by
      rintro rfl
      exact end_notMem hg hch₂.range (by simp)
    simp only [advance, if_neg hin, nextCluster_good hread, hnext, if_neg hz]
    have hsplit : pre ++ w₂.file.currCluster :: z :: zs = (pre ++ [w₂.file.currCluster]) ++
        z :: zs := by
      simp
    rw [hsplit] at hch₂ hold
    refine ⟨Or.inr ⟨_, zs, hch₂, hold⟩, fun _ => ⟨hg.bytes_pos, .of_chain hg hch₂.suffix ?_⟩⟩
    have hskip : (w₂.s.skip 1).readFails = (w.s.skip 2).readFails := by
      funext k
      rw [Faulty.skip_readFails, hfails₂]
      rfl
    rw [hlen₂, hskip]
    exact hlinks.pass hn hend (hlast hend)

theorem writeRound_extends (hw : Extends l w.s.mem w.file old) (hdata : w.data ≠ [])
    (hoff : w.file.currOffset < l.bytesPerCluster) (hahead : LinksAhead l w.file w.data.length w.s)
    (hallocs : AllocsInside l (writeRound l.faulty w).2.trace) :
    Extends l (writeRound l.faulty w).2.s.mem (writeRound l.faulty w).2.file old ∧
    ((writeRound l.faulty w).1 = true →
      (writeRound l.faulty w).2.file.currOffset < l.bytesPerCluster ∧
      LinksAhead l (writeRound l.faulty w).2.file (writeRound l.faulty w).2.data.length
        (writeRound l.faulty w).2.s) := by
  obtain ⟨hext₁, hdata₁, hgo₁⟩ := ensureCluster_extends hg hw hoff hahead
    (hallocs.mono (ensureCluster_le_writeRound _ w))
  rw [writeRound] at hallocs ⊢
  rcases heq : ensureCluster l.faulty w with ⟨_ | _, w₁⟩
  · rw [heq] at hext₁
    exact ⟨hext₁, fun h => absurd h (by simp)⟩
  · rw [heq] at hext₁ hdata₁ hgo₁ hallocs
    obtain ⟨hcurr₁, hoff₁, hahead₁⟩ := hgo₁ rfl
    obtain ⟨pre, rest, hch, hold⟩ : ∃ pre rest,
        Chain l w₁.s.mem w₁.file.firstCluster (pre ++ w₁.file.currCluster :: rest) ∧
        old <+: pre ++ w₁.file.currCluster :: rest := by
      rcases hext₁ with ⟨-, h0, -⟩ | h
      · exact absurd h0 hcurr₁
      · exact h
    dsimp only at hdata₁ hallocs ⊢
    rw [← hdata₁] at hdata hahead₁
    rcases heq₂ : writeChunk l.faulty w₁ with ⟨_ | _, w₂⟩
    · obtain ⟨hch₂, hcurr₂, hfirst₂, -⟩ := writeChunk_faulty hg hch (by simp) hoff₁
      rw [heq₂] at hch₂ hcurr₂ hfirst₂
      dsimp only at hcurr₂ hfirst₂
      rw [← hcurr₂] at hch₂ hold
      rw [← hfirst₂] at hch₂
      exact ⟨Or.inr ⟨pre, rest, hch₂, hold⟩, fun h => absurd h (by simp)⟩
    · rw [heq₂] at hallocs
      exact advance_extends hg hdata hoff₁ hch hold (hahead₁ _ hch.suffix) heq₂ hallocs

theorem writeLoop_extends {n : ℕ} (hw : Extends l w.s.mem w.file old)
    (hoff : w.file.currOffset < l.bytesPerCluster) (hahead : LinksAhead l w.file w.data.length w.s)
    (hallocs : AllocsInside l (writeLoop l.faulty n w).trace) :
    Extends l (writeLoop l.faulty n w).s.mem (writeLoop l.faulty n w).file old := by
  induction n generalizing w with
  | zero => exact hw
  | succ n ih =>
    by_cases hdata : w.data = []
    · rwa [writeLoop, if_pos hdata]
    · obtain ⟨hext, hgo⟩ := writeRound_extends hg hw hdata hoff hahead
        (hallocs.mono (writeRound_le_writeLoop _ n hdata))
      rw [writeLoop, if_neg hdata] at hallocs ⊢
      rcases heq : writeRound l.faulty w with ⟨_ | _, w₁⟩
      · rwa [heq] at hext
      · rw [heq] at hext hgo hallocs
        exact ih hext (hgo rfl).1 (hgo rfl).2 hallocs

end Rounds

theorem fat32Write_extends (hg : l.Geometry) {f : File} {d : Faulty} {data : List UInt8}
    (hf : Extends l d.mem f old) (hoff : f.currOffset < l.bytesPerCluster)
    (hahead : LinksAhead l f data.length d)
    (hallocs : AllocsInside l (fat32Write l.faulty f data d).2.trace) :
    Extends l (fat32Write l.faulty f data d).2.s.mem (fat32Write l.faulty f data d).2.file old := by
  rw [fat32Write] at hallocs ⊢
  split_ifs at hallocs ⊢
  · exact hf
  · exact writeLoop_extends hg (w := ⟨f, data, 0, d, []⟩) hf hoff hahead hallocs

def LinksKept (l : Layout) : File → Faulty → List (List UInt8) → Prop
  | _, _, [] => True
  | f, d, buf :: bufs => (f.currOffset < l.bytesPerCluster ∧ LinksAhead l f buf.length d) ∧
      LinksKept l (fat32Write l.faulty f buf d).2.file (fat32Write l.faulty f buf d).2.s bufs

theorem writeAll_extends (hg : l.Geometry) {f : File} {d : Faulty} {bufs : List (List UInt8)}
    (hf : Extends l d.mem f old) (hkept : LinksKept l f d bufs)
    (hallocs : AllocsInside l (writeAll l.faulty f d bufs).trace) :
    Extends l (writeAll l.faulty f d bufs).s.mem (writeAll l.faulty f d bufs).file old := by
  induction bufs generalizing f d with
  | nil => exact hf
  | cons buf bufs ih =>
    have hfirst := fat32Write_extends hg hf hkept.1.1 hkept.1.2
      (hallocs.mono (List.prefix_append _ _))
    exact ih hfirst hkept.2 fun c hc => hallocs c (List.mem_append_right _ hc)

def ChainKept (l : Layout) (m m' : Mem) (first first' : ℕ) : Prop :=
  ∃ old new, FileChain l m first old ∧ FileChain l m' first' new ∧ old <+: new

def StandsInChain (l : Layout) (m : Mem) (f : File) : Prop :=
  ∀ cs, FileChain l m f.firstCluster cs → (cs = [] ∧ f.currCluster = 0) ∨ f.currCluster ∈ cs

theorem openFile_stands (e : Dirent) (mode : UInt8) : StandsInChain l m (openFile e mode) := by
  rintro cs (⟨h0, rfl⟩ | hch)
  · exact Or.inl ⟨rfl, h0⟩
  · exact Or.inr hch.start_mem

theorem StandsInChain.extends {files : Files} {i : Fin maxOpenFiles} (hused : (files i).used = true)
    (hwf : WellFormed l m files) (hstands : StandsInChain l m (files i)) :
    ∃ old, FileChain l m (files i).firstCluster old ∧ Extends l m (files i) old := by
  by_cases h0 : (files i).firstCluster = 0
  · have hnone : FileChain l m (files i).firstCluster [] := Or.inl ⟨h0, rfl⟩
    rcases hstands [] hnone with ⟨-, hcurr⟩ | hmem
    · exact ⟨[], hnone, Or.inl ⟨h0, hcurr, rfl⟩⟩
    · simp at hmem
  · obtain ⟨cs, hch⟩ := hwf.linked.chain _ (.handle i hused h0)
    rcases hstands cs (Or.inr hch) with ⟨rfl, -⟩ | hmem
    · exact absurd rfl hch.nonempty
    · obtain ⟨pre, rest, rfl⟩ := List.append_of_mem hmem
      exact ⟨_, Or.inr hch, Or.inr ⟨pre, rest, hch, List.prefix_rfl⟩⟩

/-- As long as no call starts behind the end of the current cluster and no link inside
the chain that it has to follow is lost, writing never cuts the chain. -/
theorem writes_keep_chain (l : Layout) (hg : l.Geometry) (files : Files) (i : Fin maxOpenFiles)
    (d : Faulty) (hused : (files i).used = true) (hwf : WellFormed l d.mem files)
    (hstands : StandsInChain l d.mem (files i)) (bufs : List (List UInt8))
    (hkept : LinksKept l (files i) d bufs)
    (hallocs : AllocsInside l (writeAll l.faulty (files i) d bufs).trace) :
    ChainKept l d.mem (writeAll l.faulty (files i) d bufs).s.mem (files i).firstCluster
      (writeAll l.faulty (files i) d bufs).file.firstCluster := by
  obtain ⟨old, hold, hext⟩ := hstands.extends hused hwf
  obtain ⟨new, hnew, hpre⟩ := (writeAll_extends hg hext hkept hallocs).fileChain
  exact ⟨old, new, hold, hnew, hpre⟩

def longDisk : Mem := tinyLayout.claim helloDisk 3 4

theorem longDisk_checks : (⟨[(2, [2])], [(2, [2]), (3, [3, 4])]⟩ : Catalogue).Checks tinyLayout
    longDisk helloOpened := by
  decide +kernel

theorem longDisk_chain : Chain tinyLayout longDisk 3 [3, 4] :=
  Chain.mk' tinyLayout_geometry (by decide +kernel) (by simp) (by decide) (by decide +kernel)

theorem writes_keep_chain_long :
    ChainKept tinyLayout longDisk
      (writeAll tinyLayout.faulty (helloOpened 0) ⟨longDisk, fun n => n ≠ 1, fun _ => false⟩
        [List.replicate 512 1, [2]]).s.mem 3
      (writeAll tinyLayout.faulty (helloOpened 0) ⟨longDisk, fun n => n ≠ 1, fun _ => false⟩
        [List.replicate 512 1, [2]]).file.firstCluster := by
  have hwf := longDisk_checks.wellFormed tinyLayout_geometry
  refine writes_keep_chain tinyLayout tinyLayout_geometry helloOpened 0
    ⟨longDisk, fun n => n ≠ 1, fun _ => false⟩ rfl hwf (openFile_stands helloEntry charW) _ ?_
    (by decide +kernel)
  refine ⟨⟨by decide, .of_chain tinyLayout_geometry longDisk_chain ?_⟩,
    ⟨by decide +kernel, .of_short (by decide +kernel) _⟩, trivial⟩
  intro r h0 h2 _
  obtain rfl : r = 1 := by
    simp only [List.length_cons, List.length_nil] at h2
    omega
  decide

/-- The read of the link from cluster 3 to cluster 4 fails, and the new cluster 5 takes
the place of cluster 4. -/
theorem chain_cut :
    fat32Open tinyLayout.ram [65] charW noFiles longDisk =
      some ((some 0, helloOpened), longDisk) ∧
    WellFormed tinyLayout longDisk helloOpened ∧
    ¬ ChainKept tinyLayout longDisk
      (writeAll tinyLayout.faulty (helloOpened 0) ⟨longDisk, fun n => n = 1, fun _ => false⟩
        [List.replicate 512 1]).s.mem 3
      (writeAll tinyLayout.faulty (helloOpened 0) ⟨longDisk, fun n => n = 1, fun _ => false⟩
        [List.replicate 512 1]).file.firstCluster := by
  have hopen : (fat32Open tinyLayout.ram [65] charW noFiles longDisk).map (fun r => r.1.1) =
      some (some 0) := by decide +kernel
  obtain ⟨⟨⟨h, files'⟩, m⟩, hres, rfl⟩ := Option.map_eq_some_iff.mp hopen
  have hlook : lookup tinyLayout longDisk [65] = some (some helloEntry) := by decide +kernel
  obtain ⟨rfl, rfl⟩ := fat32Open_existing hlook hres
  refine ⟨hres, longDisk_checks.wellFormed tinyLayout_geometry, ?_⟩
  generalize hr : writeAll tinyLayout.faulty (helloOpened 0)
    ⟨longDisk, fun n => n = 1, fun _ => false⟩ [List.replicate 512 1] = r
  have hfirst : r.file.firstCluster = 3 := by
    rw [← hr]
    decide +kernel
  have hcut : Chain tinyLayout r.s.mem 3 [3, 5] := by
    refine Chain.mk' tinyLayout_geometry ?_ (by simp) (by decide) ?_
    · rw [← hr]
      decide +kernel
    · rw [← hr]
      decide +kernel
  rintro ⟨old, new, hold, hnew, hpre⟩
  rw [hfirst] at hnew
  obtain rfl := (hold.resolve_left (by simp)).unique tinyLayout_geometry longDisk_chain
  obtain rfl := (hnew.resolve_left (by simp)).unique tinyLayout_geometry hcut
  exact absurd hpre (by decide)

end XldKernel.Fat32
