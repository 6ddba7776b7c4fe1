import XldKernel.FatCreate
import XldKernel.FatMount
import XldKernel.UniformBlocks

/-!
# FAT32: reading a file in pieces

The data of a chain is the concatenation of its clusters, each the
concatenation of the sectors that the driver computes for it. Nothing is assumed
about where these sectors lie, so the sector numbers may wrap.
-/

namespace XldKernel.Fat32
open ByteMemory BlockDevice LinkedPath UniformBlocks

structure Layout.Mounted (l : Layout) : Prop where
  bytes : l.bytesPerCluster = sectorSize * l.bpb.sectorsPerCluster
  spc_pos : 0 < l.bpb.sectorsPerCluster
  spc_lt : l.bpb.sectorsPerCluster < 2 ^ 8

theorem bootLayout_mounted {boot : Mem} (h : GoodBoot boot) : (bootLayout boot).Mounted := by
  refine ⟨?_, Nat.pos_of_ne_zero h.2.1, load_lt boot 13 1⟩
  simp only [bootLayout, h.1, sectorSize]

def clusterData (l : Layout) (m : Mem) (c : ℕ) : List UInt8 :=
  (List.range l.bpb.sectorsPerCluster).flatMap fun i =>
    read m (sectorSize * l.sectorOf c i) sectorSize

def chainData (l : Layout) (m : Mem) (cs : List ℕ) : List UInt8 := cs.flatMap (clusterData l m)

def chainByte (l : Layout) (m : Mem) (cs : List ℕ) (pos : ℕ) : UInt8 :=
  m (sectorSize * l.sectorOf (cs.getD (pos / l.bytesPerCluster) 0)
    (pos % l.bytesPerCluster / sectorSize) + pos % sectorSize)

variable {l : Layout} {m : Mem} {cs : List ℕ} {pos : ℕ}

section Data
variable (hl : l.Mounted)
include hl

theorem Layout.Mounted.bytes_pos : 0 < l.bytesPerCluster := by
  rw [hl.bytes]
  exact Nat.mul_pos (by decide) hl.spc_pos

theorem mod_sector (pos : ℕ) : pos % l.bytesPerCluster % sectorSize = pos % sectorSize := by
  rw [hl.bytes, Nat.mod_mul_right_mod]

theorem clusterData_length (c : ℕ) : (clusterData l m c).length = l.bytesPerCluster := by
  rw [clusterData, length_flatMap (k := sectorSize) (by simp [ByteMemory.read]), List.length_range,
    hl.bytes, Nat.mul_comm]

theorem chainData_length : (chainData l m cs).length = cs.length * l.bytesPerCluster :=
  length_flatMap fun c _ => clusterData_length hl c

theorem clusterData_getElem? (c : ℕ) {off : ℕ} (hoff : off < l.bytesPerCluster) :
    (clusterData l m c)[off]? =
      some (m (sectorSize * l.sectorOf c (off / sectorSize) + off % sectorSize)) := by
  have hidx : off / sectorSize < l.bpb.sectorsPerCluster :=
    Nat.div_lt_of_lt_mul (by rwa [← hl.bytes])
  have hmod : off % sectorSize < sectorSize := Nat.mod_lt _ (by decide)
  rw [clusterData, getElem?_flatMap (show 0 < sectorSize by decide) (by simp [ByteMemory.read]),
    List.getElem?_range hidx, Option.bind_some, ByteMemory.read, List.getElem?_map,
    List.getElem?_range hmod, Option.map_some]

theorem chainData_getElem? (hpos : pos < cs.length * l.bytesPerCluster) :
    (chainData l m cs)[pos]? = some (chainByte l m cs pos) := by
  have hidx : pos / l.bytesPerCluster < cs.length :=
    Nat.div_lt_of_lt_mul (by rwa [Nat.mul_comm] at hpos)
  rw [chainData, getElem?_flatMap hl.bytes_pos (fun c _ => clusterData_length hl c),
    List.getElem?_eq_getElem hidx, Option.bind_some,
    clusterData_getElem? hl _ (Nat.mod_lt _ hl.bytes_pos), mod_sector hl, chainByte,
    List.getD_eq_getElem _ _ hidx]

theorem chainByte_add {j : ℕ} (hfit : pos % sectorSize + j < sectorSize) :
    chainByte l m cs (pos + j) =
      m (sectorSize * l.sectorOf (cs.getD (pos / l.bytesPerCluster) 0)
        (pos % l.bytesPerCluster / sectorSize) + pos % sectorSize + j) := by
  have hsec : (pos + j) / sectorSize = pos / sectorSize := by
    simp only [sectorSize] at *
    omega
  have hmod : (pos + j) % sectorSize = pos % sectorSize + j := by
    simp only [sectorSize] at *
    omega
  rw [chainByte, hl.bytes, ← Nat.div_div_eq_div_mul, ← Nat.div_div_eq_div_mul,
    Nat.mod_mul_right_div_self, Nat.mod_mul_right_div_self, hsec, hmod, Nat.add_assoc]

theorem chainData_chunk {n : ℕ} (hn : pos + n ≤ cs.length * l.bytesPerCluster)
    (hfit : pos % sectorSize + n ≤ sectorSize) :
    ((chainData l m cs).drop pos).take n =
      read m (sectorSize * l.sectorOf (cs.getD (pos / l.bytesPerCluster) 0)
        (pos % l.bytesPerCluster / sectorSize) + pos % sectorSize) n := by
  apply List.ext_getElem?
  intro j
  by_cases hj : j < n
  · rw [List.getElem?_take_of_lt hj, List.getElem?_drop, chainData_getElem? hl (by omega),
      chainByte_add hl (by omega), ByteMemory.read, List.getElem?_map, List.getElem?_range hj,
      Option.map_some]
  · rw [List.getElem?_eq_none, List.getElem?_eq_none]
    · simp only [ByteMemory.read, List.length_map, List.length_range]
      omega
    · simp only [List.length_take]
      omega

end Data

/-- The handle for reading stands at a position of its chain, or at its end. -/
structure ReadAt (l : Layout) (f : File) (cs : List ℕ) (pos : ℕ) : Prop where
  used : f.used = true
  mode : f.mode = .read
  filePos : f.filePos = pos
  size : f.fileSize ≤ cs.length * l.bytesPerCluster
  off : f.currOffset = pos % l.bytesPerCluster
  curr : pos < cs.length * l.bytesPerCluster → f.currCluster = cs.getD (pos / l.bytesPerCluster) 0

structure Heads (l : Layout) (m : Mem) (c : ℕ) (cs : List ℕ) : Prop extends Chain l m c cs where
  ends : endOfChain ∉ cs

variable {c : ℕ}

theorem Heads.advance {k : ℕ} (hch : Heads l m c cs) (hk : k < cs.length) :
    (k + 1 < cs.length ∧ l.next m (cs.getD k 0) = cs.getD (k + 1) 0 ∧
      cs.getD (k + 1) 0 ≠ endOfChain) ∨
    (k + 1 = cs.length ∧ l.next m (cs.getD k 0) = endOfChain) := by
  rw [List.getD_eq_getElem _ _ hk]
  rcases Nat.lt_or_eq_of_le (Nat.succ_le_of_lt hk) with hlt | heq
  · left
    rw [List.getD_eq_getElem _ _ hlt]
    refine ⟨hlt, hch.path.next_getElem hlt, ?_⟩
    intro hend
    exact hch.ends (hend ▸ List.getElem_mem hlt)
  · exact Or.inr ⟨heq, hch.path.next_last heq⟩

def File.readOn (f : File) (n : ℕ) : File :=
  { f with filePos := (f.filePos + n) % 2 ^ 32, currOffset := (f.currOffset + n) % 2 ^ 32 }

section Loop
variable (hl : l.Mounted)
include hl

theorem ReadAt.fits {f : File} (hat : ReadAt l f cs pos) (size : ℕ) :
    f.currOffset + min size (sectorSize - f.currOffset % sectorSize) ≤ l.bytesPerCluster := by
  have hlt := Nat.mod_lt pos hl.bytes_pos
  have hbytes := hl.bytes
  rw [hat.off]
  simp only [sectorSize] at *
  omega

theorem ReadAt.chunk {f : File} (hat : ReadAt l f cs pos) (m : Mem) (size : ℕ)
    (hsize : pos + size ≤ cs.length * l.bytesPerCluster) (hpos : 0 < size) :
    read (sector m (l.sectorOf f.currCluster (f.currOffset % l.bytesPerCluster / sectorSize)))
        (f.currOffset % sectorSize) (min size (sectorSize - f.currOffset % sectorSize)) =
      ((chainData l m cs).drop pos).take (min size (sectorSize - f.currOffset % sectorSize)) := by
  have hmod : f.currOffset % sectorSize = pos % sectorSize := by rw [hat.off, mod_sector hl]
  have hlt := Nat.mod_lt pos (show 0 < sectorSize by decide)
  rw [read_sector, hmod, chainData_chunk hl (by omega) (by omega), hat.curr (by omega), hat.off,
    Nat.mod_mod]

theorem Layout.Mounted.bytes_lt : l.bytesPerCluster < 2 ^ 17 := by
  have hlt := hl.spc_lt
  rw [hl.bytes, sectorSize]
  omega

theorem ReadAt.moved {f : File} (hat : ReadAt l f cs pos) {n : ℕ} (hsize : pos + n ≤ f.fileSize)
    (hwrap : f.fileSize < 2 ^ 32) (hlt : pos % l.bytesPerCluster + n < l.bytesPerCluster) :
    ReadAt l (f.readOn n) cs (pos + n) := by
  obtain ⟨hdiv, hmod⟩ := pos_inside hlt
  have hbytes := hl.bytes_lt
  refine ⟨hat.used, hat.mode, ?_, hat.size, ?_, ?_⟩
  · simp only [File.readOn, hat.filePos]
    omega
  · simp only [File.readOn, hat.off, hmod]
    omega
  · intro hpos
    rw [hdiv]
    exact hat.curr (by omega)

theorem ReadAt.turned {f : File} (hat : ReadAt l f cs pos) {n : ℕ} (next : ℕ)
    (hsize : pos + n ≤ f.fileSize) (hwrap : f.fileSize < 2 ^ 32)
    (hend : pos % l.bytesPerCluster + n = l.bytesPerCluster)
    (hnext : pos / l.bytesPerCluster + 1 < cs.length →
      next = cs.getD (pos / l.bytesPerCluster + 1) 0) :
    ReadAt l { f.readOn n with currOffset := 0, currCluster := next } cs (pos + n) := by
  obtain ⟨-, hdiv, hmod⟩ := pos_boundary hl.bytes_pos hend
  refine ⟨hat.used, hat.mode, ?_, hat.size, hmod.symm, ?_⟩
  · simp only [File.readOn, hat.filePos]
    omega
  · intro hpos
    rw [hdiv]
    apply hnext
    rw [← hdiv]
    exact Nat.div_lt_of_lt_mul (by rwa [Nat.mul_comm] at hpos)

omit hl in
theorem readLoop_succ (n : ℕ) {size : ℕ} (f : File) (bytes : List UInt8) (h0 : size ≠ 0)
    (hlt : f.currOffset < l.bytesPerCluster) :
    readLoop l.ram (n + 1) size ⟨f, bytes, m⟩ =
      let toCopy := min size (sectorSize - f.currOffset % sectorSize)
      let bytes := bytes ++ read (sector m (l.sectorOf f.currCluster
        (f.currOffset % l.bytesPerCluster / sectorSize))) (f.currOffset % sectorSize) toCopy
      if l.bytesPerCluster ≤ (f.readOn toCopy).currOffset then
        let next := l.next m f.currCluster
        if next = endOfChain then
          ⟨{ f.readOn toCopy with currOffset := 0, currCluster := next }, bytes, m⟩
        else readLoop l.ram n (size - toCopy)
          ⟨{ f.readOn toCopy with currOffset := 0, currCluster := next }, bytes, m⟩
      else readLoop l.ram n (size - toCopy) ⟨f.readOn toCopy, bytes, m⟩ := by
  have hread : ∀ s, l.ram.dev.read s m = (some (sector m s), m) := fun _ => rfl
  rw [readLoop, if_neg h0]
  simp only [Layout.ram_toLayout, Nat.div_eq_of_lt hlt, skipClusters, hread, nextCluster_ram,
    File.readOn]
  rfl

theorem readLoop_ram (hch : Heads l m c cs) (n size : ℕ) {f : File} (bytes : List UInt8)
    (hat : ReadAt l f cs pos) (hn : size ≤ n) (hsize : pos + size ≤ f.fileSize)
    (hwrap : f.fileSize < 2 ^ 32) :
    ∃ f', readLoop l.ram n size ⟨f, bytes, m⟩ =
        ⟨f', bytes ++ ((chainData l m cs).drop pos).take size, m⟩ ∧
      ReadAt l f' cs (pos + size) ∧ f'.fileSize = f.fileSize := by
  induction n generalizing size f bytes pos with
  | zero =>
    obtain rfl : size = 0 := by omega
    exact ⟨f, by simp [readLoop], hat, rfl⟩
  | succ n ih =>
    by_cases h0 : size = 0
    · subst h0
      exact ⟨f, by simp [readLoop], hat, rfl⟩
    have hroom := hat.size
    have hlt := Nat.mod_lt pos hl.bytes_pos
    have hfits := hat.fits hl size
    have hchunk := hat.chunk hl m size (by omega) (by omega)
    have hcopy : 0 < min size (sectorSize - f.currOffset % sectorSize) := by
      have := Nat.mod_lt f.currOffset (show 0 < sectorSize by decide)
      omega
    rw [readLoop_succ n f bytes h0 (by rw [hat.off]; exact hlt)]
    dsimp only
    rw [hchunk]
    generalize hc : min size (sectorSize - f.currOffset % sectorSize) = toCopy at *
    have hle : toCopy ≤ size := by omega
    have hoff : (f.readOn toCopy).currOffset = pos % l.bytesPerCluster + toCopy := by
      have := hl.bytes_lt
      simp only [File.readOn, hat.off] at hfits ⊢
      omega
    have hdata : ((chainData l m cs).drop pos).take toCopy ++
        ((chainData l m cs).drop (pos + toCopy)).take (size - toCopy) =
          ((chainData l m cs).drop pos).take size := by
      rw [← List.drop_drop, ← List.take_add, Nat.add_sub_cancel' hle]
    have hpos : pos + toCopy + (size - toCopy) = pos + size := by omega
    -- the rest of the loop, from wherever the handle stands behind this chunk
    have hgo : ∀ {f₁ : File}, ReadAt l f₁ cs (pos + toCopy) → f₁.fileSize = f.fileSize →
        ∃ f', readLoop l.ram n (size - toCopy)
            ⟨f₁, bytes ++ ((chainData l m cs).drop pos).take toCopy, m⟩ =
            ⟨f', bytes ++ ((chainData l m cs).drop pos).take size, m⟩ ∧
          ReadAt l f' cs (pos + size) ∧ f'.fileSize = f.fileSize := by
      intro f₁ hat₁ hfs₁
      obtain ⟨f', hres, hat', hfs⟩ := ih (size - toCopy)
        (bytes ++ ((chainData l m cs).drop pos).take toCopy) hat₁ (by omega) (by omega) (by omega)
      rw [hpos] at hat'
      refine ⟨f', ?_, hat', hfs.trans hfs₁⟩
      rw [hres, List.append_assoc, hdata]
    rw [hoff, hat.curr (by omega)]
    by_cases hturn : l.bytesPerCluster ≤ pos % l.bytesPerCluster + toCopy
    · have hend : pos % l.bytesPerCluster + toCopy = l.bytesPerCluster := by
        rw [hat.off] at hfits
        omega
      have hk : pos / l.bytesPerCluster < cs.length :=
        Nat.div_lt_of_lt_mul (by rw [Nat.mul_comm]; omega)
      rw [if_pos hturn]
      rcases hch.advance hk with ⟨-, hnext, hne⟩ | ⟨hlast, hnext⟩
      · rw [hnext, if_neg hne]
        exact hgo (hat.turned hl (n := toCopy) _ (by omega) hwrap hend fun _ => rfl) rfl
      · -- the file ends with the chain
        rw [hnext, if_pos rfl]
        have hfull := (pos_boundary hl.bytes_pos hend).1
        rw [hlast] at hfull
        have hall : toCopy = size := by omega
        have hat' := hat.turned hl endOfChain (n := toCopy) (by omega) hwrap hend
          fun hlt => by omega
        rw [hall] at hat' ⊢
        exact ⟨_, rfl, hat', rfl⟩
    · rw [if_neg hturn]
      exact hgo (hat.moved hl (n := toCopy) (by omega) hwrap (by omega)) rfl

theorem fat32Read_ram (hch : Heads l m c cs) {f : File} (hat : ReadAt l f cs pos)
    (hle : pos ≤ f.fileSize) (hwrap : f.fileSize < 2 ^ 32) {size : ℤ}
    (hsize : (pos : ℤ) + size < 2 ^ 32) :
    ∃ f', fat32Read l.ram f size m =
        (some ((((chainData l m cs).take f.fileSize).drop pos).take size.toNat), f', m) ∧
      ReadAt l f' cs (min (pos + size.toNat) f.fileSize) ∧ f'.fileSize = f.fileSize := by
  have hopen : ¬ (¬ (f.used = true) ∨ f.mode ≠ .read) := by simp [hat.used, hat.mode]
  have hcount : readSize f size = min size.toNat (f.fileSize - pos) := by
    rw [readSize, hat.filePos]
    split_ifs <;> omega
  obtain ⟨f', hres, hat', hfs⟩ := readLoop_ram hl hch (readSize f size) (readSize f size) []
    hat le_rfl (by omega) hwrap
  refine ⟨f', ?_, ?_, hfs⟩
  · rw [fat32Read, if_neg hopen]
    dsimp only
    rw [hres, hcount, List.nil_append, List.drop_take, List.take_take]
  · rw [hcount] at hat'
    have heq : pos + min size.toNat (f.fileSize - pos) = min (pos + size.toNat) f.fileSize := by
      omega
    rwa [heq] at hat'

end Loop

def readAll {σ : Type} (fs : Fs σ) : File → σ → List ℤ → List (Option (List UInt8))
  | _, _, [] => []
  | f, s, size :: sizes =>
    let r := fat32Read fs f size s
    r.1 :: readAll fs r.2.1 r.2.2 sizes

def SumsFit {σ : Type} (fs : Fs σ) : File → σ → List ℤ → Prop
  | _, _, [] => True
  | f, s, size :: sizes =>
    (f.filePos : ℤ) + size < 2 ^ 32 ∧
      SumsFit fs (fat32Read fs f size s).2.1 (fat32Read fs f size s).2.2 sizes

instance {σ : Type} (fs : Fs σ) : ∀ f s sizes, Decidable (SumsFit fs f s sizes)
  | _, _, [] => isTrue trivial
  | f, s, size :: sizes =>
    have := instDecidableSumsFit fs (fat32Read fs f size s).2.1 (fat32Read fs f size s).2.2 sizes
    inferInstanceAs (Decidable (_ ∧ _))

theorem readAll_ram (hl : l.Mounted) (hch : Heads l m c cs) {f : File} (hat : ReadAt l f cs pos)
    (hle : pos ≤ f.fileSize) (hwrap : f.fileSize < 2 ^ 32) {sizes : List ℤ}
    (hfit : SumsFit l.ram f m sizes) :
    readAll l.ram f m sizes =
      (pieces (((chainData l m cs).take f.fileSize).drop pos) (sizes.map Int.toNat)).map some := by
  induction sizes generalizing f pos with
  | nil => rfl
  | cons size sizes ih =>
    obtain ⟨hsum, hrest⟩ := hfit
    rw [hat.filePos] at hsum
    obtain ⟨f', hres, hat', hfs⟩ := fat32Read_ram hl hch hat hle hwrap hsum
    rw [hres] at hrest
    have htail := ih hat' (by omega) (by omega) hrest
    have hlen : ((chainData l m cs).take f.fileSize).length ≤ f.fileSize := by simp
    have hdrop : ((chainData l m cs).take f.fileSize).drop (min (pos + size.toNat) f.fileSize) =
        ((chainData l m cs).take f.fileSize).drop (pos + size.toNat) := by
      rcases Nat.le_total (pos + size.toNat) f.fileSize with h | h
      · rw [Nat.min_eq_left h]
      · rw [Nat.min_eq_right h, List.drop_eq_nil_of_le hlen, List.drop_eq_nil_of_le (hlen.trans h)]
    rw [hfs, hdrop] at htail
    rw [readAll, hres]
    dsimp only
    rw [htail, List.map_cons, pieces, List.map_cons, List.drop_drop]

theorem fat32Find_size {dir : ℕ} {target : List UInt8} {found : Found} {m' : Mem}
    (h : fat32Find l.ram dir target m = some (some found, m')) : found.dirent.size < 2 ^ 32 := by
  obtain ⟨⟨hit, s⟩, -, heq⟩ := Option.map_eq_some_iff.mp h
  obtain ⟨hhit, -⟩ := Prod.mk.inj heq
  obtain ⟨x, -, rfl⟩ := Option.map_eq_some_iff.mp hhit
  exact load_lt _ _ 4

theorem fat32Open_read {path : List UInt8} {mode : UInt8} {files files' : Files}
    {i : Fin maxOpenFiles} {m' : Mem} (hmode : mode ≠ charW ∧ mode ≠ charA)
    (h : fat32Open l.ram path mode files m = some ((some i, files'), m')) :
    m' = m ∧ ∃ e, e.size < 2 ^ 32 ∧ files' i = openFile e mode := by
  rcases fat32Open_cases h with hr | ⟨p, name, found, -, hfind, hr⟩ | ⟨_, _, _, _, hor, -⟩
  · simp at hr
  · obtain ⟨htake, rfl⟩ := Prod.mk.inj hr
    refine ⟨rfl, found.dirent, fat32Find_size hfind, ?_⟩
    rw [takeHandle_some htake.symm, Function.update_self]
  · rcases hor with h | h
    · exact absurd h hmode.1
    · exact absurd h hmode.2

theorem readAt_open {e : Dirent} {mode : UInt8} (hmode : mode ≠ charW ∧ mode ≠ charA)
    (hch : Heads l m e.cluster cs) (hlen : e.size ≤ cs.length * l.bytesPerCluster) :
    ReadAt l (openFile e mode) cs 0 := by
  have hno : ¬ (mode = charW ∨ mode = charA) := by tauto
  refine ⟨rfl, if_neg hno, if_neg hmode.2, ?_, (Nat.zero_mod _).symm, ?_⟩
  · simp only [openFile, if_neg hmode.1]
    exact hlen
  · intro _
    obtain ⟨c, cs, rfl⟩ := List.exists_cons_of_ne_nil hch.nonempty
    rw [Nat.zero_div]
    exact (path_cons.mp hch.path).1

/-- Chunked reading: a handle that was just opened for reading returns the data of its
chain, cut at the file size, however the request is divided. -/
theorem chunked_reading (l : Layout) (hl : l.Mounted) (m : Mem) (path : List UInt8) (mode : UInt8)
    (hmode : mode ≠ charW ∧ mode ≠ charA) (files files' : Files) (i : Fin maxOpenFiles) (m' : Mem)
    (hopen : fat32Open l.ram path mode files m = some ((some i, files'), m')) (cs : List ℕ)
    (hch : Heads l m' (files' i).firstCluster cs)
    (hlen : (files' i).fileSize ≤ cs.length * l.bytesPerCluster) (sizes : List ℤ)
    (hfit : SumsFit l.ram (files' i) m' sizes) :
    let data := (chainData l m' cs).take (files' i).fileSize
    (pieces data (sizes.map Int.toNat)).map List.length =
      counts (files' i).fileSize (sizes.map Int.toNat) ∧
    readAll l.ram (files' i) m' sizes = (pieces data (sizes.map Int.toNat)).map some ∧
    (pieces data (sizes.map Int.toNat)).flatten = data.take (sizes.map Int.toNat).sum := by
  intro data
  obtain ⟨-, e, hsize, hfile⟩ := fat32Open_read hmode hopen
  have hfs : (files' i).fileSize = e.size := by
    rw [hfile, openFile, if_neg hmode.1]
  have hat : ReadAt l (files' i) cs 0 := by
    rw [hfile] at hch ⊢
    exact readAt_open hmode hch (hfs ▸ hlen)
  refine ⟨?_, ?_, pieces_flatten _ _⟩
  · rw [pieces_lengths, List.length_take, chainData_length hl, Nat.min_eq_left hlen]
  · exact readAll_ram hl hch hat (Nat.zero_le _) (by omega) hfit

def helloEntry : Dirent := ⟨to83 [65], attrArchive, 0, 3, 5⟩

/-- The tiny disk with a file `A` of five bytes in cluster 3. -/
def helloDisk : Mem :=
  write (putDirent (tinyLayout.claim tinyDisk 0 3) 1024 helloEntry) 1536 [72, 69, 76, 76, 79]

theorem chunked_reading_hello :
    ∃ i files' m', fat32Open tinyLayout.ram [65] 114 noFiles helloDisk =
      some ((some i, files'), m') ∧
      readAll tinyLayout.ram (files' i) m' [2, -1, 10] =
        [some [72, 69], some [], some [76, 76, 79]] := by
  have hopen : (fat32Open tinyLayout.ram [65] 114 noFiles helloDisk).map
      (fun r => (r.1.1, r.1.1.map r.1.2)) =
        some (some 0, some (openFile helloEntry 114)) := by
    decide +kernel
  obtain ⟨⟨⟨h, files'⟩, m'⟩, hres, hi⟩ := Option.map_eq_some_iff.mp hopen
  obtain ⟨rfl, hfile⟩ := Prod.mk.inj hi
  have hf : files' 0 = openFile helloEntry 114 := Option.some_inj.mp hfile
  obtain rfl : m' = helloDisk := (fat32Open_read (by decide) hres).1
  have hread :=
    chunked_reading tinyLayout ⟨rfl, by decide, by decide⟩ helloDisk [65] 114 (by decide)
    noFiles files' 0 helloDisk hres [3] (by rw [hf]; exact ⟨by decide +kernel, by decide⟩)
    (by rw [hf]; decide) [2, -1, 10] (by rw [hf]; decide +kernel)
  refine ⟨0, files', helloDisk, hres, hread.2.1.trans ?_⟩
  rw [hf]
  decide +kernel

end XldKernel.Fat32
