import XldKernel.FatReading
import XldKernel.FatIntegrity

/-!
# FAT32: successive writes through one handle

On a volume without faults successive calls of `fat32_write` lay their buffers
along the chain of the handle, one behind the other, and touch nothing else.
-/

namespace XldKernel.Fat32
open ByteMemory BlockDevice LinkedPath

structure WriteRun (σ : Type) where
  results : List ℤ
  file : File
  s : σ
  trace : List (Event σ)

def writeAll {σ : Type} (fs : Fs σ) : File → σ → List (List UInt8) → WriteRun σ
  | f, s, [] => ⟨[], f, s, []⟩
  | f, s, buf :: bufs =>
    let r := fat32Write fs f buf s
    let rest := writeAll fs r.2.file r.2.s bufs
    ⟨r.1 :: rest.results, rest.file, rest.s, r.2.trace ++ rest.trace⟩

theorem fat32Write_nil {σ : Type} (fs : Fs σ) (f : File) (s : σ) :
    (fat32Write fs f [] s).2 = ⟨f, [], 0, s, []⟩ := by
  rw [fat32Write]
  split_ifs <;> rfl

variable {l : Layout} {m m' : Mem} {cs cs' : List ℕ} {pos : ℕ}

theorem Layout.Geometry.mounted (hg : l.Geometry) : l.Mounted := ⟨hg.bytes, hg.spc_pos, hg.spc_lt⟩

theorem writeAll_ram (hg : l.Geometry) {f : File} {bufs : List (List UInt8)} (hused : f.used = true)
    (hmode : f.mode = .write) (hr : Ready l m f cs pos)
    (hallocs : AllocsIn l (writeAll l.ram f m bufs).trace) :
    (writeAll l.ram f m bufs).results = bufs.map (fun b => (b.length : ℤ)) ∧
    ∃ cs', Ready l (writeAll l.ram f m bufs).s (writeAll l.ram f m bufs).file cs'
        (pos + bufs.flatten.length) ∧
      Wrote l m (writeAll l.ram f m bufs).s cs cs' pos bufs.flatten ∧
      (f.firstCluster ≠ 0 → (writeAll l.ram f m bufs).file.firstCluster = f.firstCluster) ∧
      (cs ≠ [] ∨ bufs.flatten ≠ [] →
        Stretched l m (writeAll l.ram f m bufs).s cs cs' (pos + bufs.flatten.length)) := by
  induction bufs generalizing f m cs pos with
  | nil =>
    refine ⟨rfl, cs, hr, Wrote.refl hr.pos_le, fun _ => rfl, fun hne => ?_⟩
    cases hr with
    | empty => exact absurd hne (by simp)
    | «at» hat => exact .same hat.lt rfl
  | cons buf bufs ih =>
    by_cases hbuf : buf = []
    · -- a call without bytes leaves everything as it is
      subst hbuf
      obtain ⟨hzero, hsame⟩ : (fat32Write l.ram f [] m).1 = 0 ∧
          (fat32Write l.ram f [] m).2 = ⟨f, [], 0, m, []⟩ :=
        ⟨by simp [fat32Write, hused, hmode, writeLoop], fat32Write_nil l.ram f m⟩
      simp only [writeAll, hzero, hsame, List.nil_append, List.flatten_cons] at hallocs ⊢
      obtain ⟨hres, hrest⟩ := ih hused hmode hr hallocs
      exact ⟨by simp [hres], hrest⟩
    have hfst : AllocsIn l (fat32Write l.ram f buf m).2.trace :=
      hallocs.mono (List.prefix_append _ _)
    obtain ⟨hres, cs₁, hr₁, hwrote₁, hused₁, hmode₁, hfirst₁, hstretch₁⟩ :=
      fat32Write_ram hg hused hmode hr hfst
    have hsnd : AllocsIn l (writeAll l.ram (fat32Write l.ram f buf m).2.file
        (fat32Write l.ram f buf m).2.s bufs).trace :=
      fun c hc => hallocs c (List.mem_append_right _ hc)
    obtain ⟨hres₂, cs₂, hr₂, hwrote₂, hfirst₂, hstretch₂⟩ := ih hused₁ hmode₁ hr₁ hsnd
    refine ⟨?_, cs₂, ?_, ?_, ?_, ?_⟩
    · simp only [writeAll, hres, hres₂, List.map_cons]
    · rw [List.flatten_cons, List.length_append, ← Nat.add_assoc]
      exact hr₂
    · exact hwrote₁.trans hg hr₂.range hr₂.nodup hwrote₂
    · intro h0
      have h1 := hfirst₁ h0
      exact (hfirst₂ (by rw [h1]; exact h0)).trans h1
    · intro _
      have hgrown := hstretch₁ (Or.inr hbuf)
      have hne₁ : cs₁ ≠ [] := by
        rintro rfl
        have hle := le_max_right cs.length ((pos + buf.length) / l.bytesPerCluster + 1)
        rw [← hgrown.length, List.length_nil] at hle
        exact Nat.not_succ_le_zero _ hle
      rw [List.flatten_cons, List.length_append, ← Nat.add_assoc]
      exact hgrown.trans (hstretch₂ (Or.inl hne₁)) (Nat.le_add_right _ _)

theorem posAddr_eq (hg : l.Geometry) (hrange : ∀ x ∈ cs, l.InVolume x)
    (hpos : pos < cs.length * l.bytesPerCluster) :
    l.posAddr cs pos = sectorSize * l.sectorOf (cs.getD (pos / l.bytesPerCluster) 0)
      (pos % l.bytesPerCluster / sectorSize) + pos % sectorSize := by
  have hdata := data_addr hg (hrange _ (posAddr_mem hpos)) (Nat.mod_lt pos hg.bytes_pos)
  rw [mod_sector hg.mounted] at hdata
  rw [hdata, Layout.posAddr]

theorem chainByte_eq (hg : l.Geometry) (hrange : ∀ x ∈ cs, l.InVolume x)
    (hpos : pos < cs.length * l.bytesPerCluster) :
    chainByte l m cs pos = m (l.posAddr cs pos) := by
  rw [chainByte, posAddr_eq hg hrange hpos]

theorem chainByte_prefix (hpre : cs <+: cs') (hpos : pos < cs.length * l.bytesPerCluster) :
    chainByte l m cs' pos = chainByte l m cs pos := by
  obtain ⟨t, rfl⟩ := hpre
  have hidx : pos / l.bytesPerCluster < cs.length :=
    Nat.div_lt_of_lt_mul (by rwa [Nat.mul_comm] at hpos)
  rw [chainByte, chainByte, List.getD_append _ _ _ _ hidx]

theorem sector_notMem (hg : l.Geometry) {c s k : ℕ} (hc : l.InVolume c)
    (hs : ∀ i < l.bpb.sectorsPerCluster, s ≠ l.sectorOf c i) (hk : k < sectorSize) :
    ¬ l.InCluster c (sectorSize * s + k) := by
  intro hin
  have hbytes := hg.bytes
  simp only [Layout.InCluster, Layout.clusterAddr, sectorSize] at *
  refine hs (s - (l.dataStart + (c - 2) * l.bpb.sectorsPerCluster)) (by omega) ?_
  rw [sectorOf_eq hg hc (by omega)]
  omega

namespace Wrote
variable {bs : List UInt8} (hg : l.Geometry) (h : Wrote l m m' cs cs' pos bs)
  (hrange : ∀ x ∈ cs', l.InVolume x) (hnodup : cs'.Nodup)
include hg h hrange

theorem data_eq : ((chainData l m' cs').drop pos).take bs.length = bs := by
  have hroom := h.room
  apply List.ext_getElem?
  intro j
  by_cases hj : j < bs.length
  · rw [List.getElem?_take_of_lt hj, List.getElem?_drop, chainData_getElem? hg.mounted (by omega),
      chainByte_eq hg hrange (by omega), h.bytes j hj, List.getD_eq_getElem _ _ hj,
      List.getElem?_eq_getElem hj]
  · rw [List.getElem?_eq_none (by simp; omega), List.getElem?_eq_none (by omega)]

include hnodup in
theorem data_frame {q : ℕ} (hq : q < cs'.length * l.bytesPerCluster)
    (hout : q < pos ∨ pos + bs.length ≤ q) : chainByte l m' cs' q = chainByte l m cs' q := by
  have hroom := h.room
  rw [chainByte_eq hg hrange hq, chainByte_eq hg hrange hq]
  refine h.frame _ (not_inTable_of_inCluster hg (posAddr_inCluster hg cs' q)) ?_
  intro j hj heq
  have := posAddr_inj hg hrange hnodup hq (by omega) heq
  omega

include hnodup in
theorem data_keep {q : ℕ} (hq : q < cs.length * l.bytesPerCluster)
    (hout : q < pos ∨ pos + bs.length ≤ q) : chainByte l m' cs q = chainByte l m cs q := by
  have hq' : q < cs'.length * l.bytesPerCluster :=
    hq.trans_le (Nat.mul_le_mul_right _ h.ext.length_le)
  rw [← chainByte_prefix h.ext hq, ← chainByte_prefix h.ext hq]
  exact h.data_frame hg hrange hnodup hq' hout

theorem sector_keep {s : ℕ} (htable : ¬ (l.fatStart ≤ s ∧ s < l.fatStart + l.bpb.sectorsPerFat))
    (hchain : ∀ c ∈ cs', ∀ i < l.bpb.sectorsPerCluster, s ≠ l.sectorOf c i) {k : ℕ}
    (hk : k < sectorSize) : sector m' s k = sector m s k := by
  have hroom := h.room
  apply h.frame
  · intro hin
    apply htable
    simp only [Layout.InTable, sectorSize] at *
    omega
  · intro j hj heq
    have hin := posAddr_inCluster hg cs' (pos + j)
    have hmem := posAddr_mem (show pos + j < cs'.length * l.bytesPerCluster by omega)
    rw [← heq] at hin
    exact sector_notMem hg (hrange _ hmem) (hchain _ hmem) hk hin

end Wrote

def FileChain (l : Layout) (m : Mem) (c : ℕ) (cs : List ℕ) : Prop :=
  (c = 0 ∧ cs = []) ∨ Chain l m c cs

theorem Ready.fileChain {f : File} (h : Ready l m f cs pos) : FileChain l m f.firstCluster cs := by
  cases h with
  | empty hfirst => exact Or.inl ⟨hfirst, rfl⟩
  | «at» h => exact Or.inr h.chain

theorem fat32Open_handle {path : List UInt8} {mode : UInt8} {files files' : Files}
    {i : Fin maxOpenFiles} (h : fat32Open l.ram path mode files m = some ((some i, files'), m')) :
    ∃ e, files' = Function.update files i (openFile e mode) := by
  rcases fat32Open_cases h with hr | ⟨p, name, found, -, -, hr⟩ | ⟨p, name, e, m₁, -, -, -, hr⟩
  · simp at hr
  · obtain ⟨htake, -⟩ := Prod.mk.inj hr
    exact ⟨found.dirent, takeHandle_some htake.symm⟩
  · obtain ⟨htake, -⟩ := Prod.mk.inj hr
    cases e with
    | none => simp [handOut] at htake
    | some e => exact ⟨e, takeHandle_some htake.symm⟩

theorem ready_opened (hg : l.Geometry) {files : Files} {i : Fin maxOpenFiles} {e : Dirent}
    (hfile : files i = openFile e charW) (hwf : WellFormed l m files) :
    ∃ cs, Ready l m (files i) cs 0 := by
  have hused : (files i).used = true := by rw [hfile, openFile]
  have hfirst : (files i).firstCluster = e.cluster := by rw [hfile, openFile]
  by_cases h0 : e.cluster = 0
  · exact ⟨[], .empty (by rw [hfirst, h0]) (by rw [hfile, openFile, h0])⟩
  · obtain ⟨cs, hch⟩ := hwf.linked.chain _ (.handle i hused (by rw [hfirst]; exact h0))
    rw [hfirst] at hch
    rw [hfile]
    exact ⟨cs, hch.ready hg charW⟩

structure LaidAlong (l : Layout) (m m' : Mem) (old new : List ℕ) (data : List UInt8) : Prop where
  ext : old <+: new
  starts : data <+: chainData l m' new
  beyond : ∀ q, data.length ≤ q → q < old.length * l.bytesPerCluster →
    chainByte l m' old q = chainByte l m old q
  outside : ∀ s, ¬ (l.fatStart ≤ s ∧ s < l.fatStart + l.bpb.sectorsPerFat) →
    (∀ c ∈ new, ∀ i < l.bpb.sectorsPerCluster, s ≠ l.sectorOf c i) →
    ∀ k < sectorSize, sector m' s k = sector m s k

/-- Chunked writing: the buffers are laid along the chain of a handle that was just
opened for writing, however they are divided. -/
theorem chunked_writing (l : Layout) (hg : l.Geometry) (m₀ m : Mem) (path : List UInt8)
    (files files' : Files) (i : Fin maxOpenFiles)
    (hopen : fat32Open l.ram path charW files m₀ = some ((some i, files'), m))
    (hwf : WellFormed l m files') (bufs : List (List UInt8))
    (hallocs : AllocsIn l (writeAll l.ram (files' i) m bufs).trace) :
    let r := writeAll l.ram (files' i) m bufs
    r.results = bufs.map (fun b => (b.length : ℤ)) ∧
    ∃ old new, FileChain l m (files' i).firstCluster old ∧
      FileChain l r.s r.file.firstCluster new ∧ LaidAlong l m r.s old new bufs.flatten := by
  intro r
  obtain ⟨e, hfiles⟩ := fat32Open_handle hopen
  have hfile : files' i = openFile e charW := by rw [hfiles, Function.update_self]
  obtain ⟨old, hready⟩ := ready_opened hg hfile hwf
  have hused : (files' i).used = true := by rw [hfile, openFile]
  have hmode : (files' i).mode = .write := by
    rw [hfile]
    simp [openFile]
  obtain ⟨hres, new, hready', hwrote, -⟩ := writeAll_ram hg hused hmode hready hallocs
  refine ⟨hres, old, new, hready.fileChain, hready'.fileChain, hwrote.ext, ?_, ?_, ?_⟩
  · have hdata := hwrote.data_eq hg hready'.range
    rw [List.drop_zero] at hdata
    rw [← hdata]
    exact List.take_prefix _ _
  · intro q hlen hq
    exact hwrote.data_keep hg hready'.range hready'.nodup hq (by omega)
  · intro s htable hchain k hk
    exact hwrote.sector_keep hg hready'.range htable hchain hk

theorem chunked_writing_hello :
    ∃ files' m, fat32Open tinyLayout.ram [65] charW noFiles helloDisk =
        some ((some 0, files'), m) ∧
      (writeAll tinyLayout.ram (files' 0) m [[1, 2], [3]]).results = [2, 1] := by
  have hopen : (fat32Open tinyLayout.ram [65] charW noFiles helloDisk).map (fun r => r.1.1) =
      some (some 0) := by decide +kernel
  obtain ⟨⟨⟨h, files'⟩, m⟩, hres, rfl⟩ := Option.map_eq_some_iff.mp hopen
  have hlook : lookup tinyLayout helloDisk [65] = some (some helloEntry) := by decide +kernel
  obtain ⟨rfl, rfl⟩ := fat32Open_existing hlook hres
  have hcheck : (⟨[(2, [2])], [(2, [2]), (3, [3])]⟩ : Catalogue).Checks tinyLayout helloDisk
      (Function.update noFiles 0 (openFile helloEntry charW)) := by decide +kernel
  have hwrite := chunked_writing tinyLayout tinyLayout_geometry _ _ [65] noFiles _ 0 hres
    (hcheck.wellFormed tinyLayout_geometry) [[1, 2], [3]] (by decide +kernel)
  exact ⟨_, _, hres, hwrite.1⟩

end XldKernel.Fat32
