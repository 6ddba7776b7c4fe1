import XldKernel.FatWriting
import XldKernel.FatNames

/-!
# FAT32: well-formed volumes

The directories of a volume are the root and what live entries reach from it. A
volume is well formed when every start cluster that something refers to heads a
chain and chains of different start clusters share no cluster. Changes of the
disk are classified by what they do to this tree: writing file data leaves it
alone, creating a file or a directory adds one entry.
-/

namespace XldKernel.Fat32
open ByteMemory BlockDevice LinkedPath

inductive DirCluster (l : Layout) (m : Mem) : ℕ → Prop
  | root : DirCluster l m l.bpb.rootCluster
  | sub {d a : ℕ} {cs : List ℕ} (hd : DirCluster l m d) (hch : Chain l m d cs)
      (ha : a ∈ liveSlots m (l.dirSlots cs)) (hname : (direntAt m a).name ∉ dotNames)
      (hdir : (direntAt m a).IsDir) : DirCluster l m (direntAt m a).cluster

def LiveEntry (l : Layout) (m : Mem) (a : ℕ) : Prop :=
  ∃ d cs, DirCluster l m d ∧ Chain l m d cs ∧ a ∈ liveSlots m (l.dirSlots cs) ∧
    (direntAt m a).name ∉ dotNames

/-- The start clusters that must head a chain. -/
inductive Head (l : Layout) (m : Mem) (files : Files) : ℕ → Prop
  | root : Head l m files l.bpb.rootCluster
  | entry {a : ℕ} (ha : LiveEntry l m a) (h2 : 2 ≤ (direntAt m a).cluster) :
      Head l m files (direntAt m a).cluster
  | handle (i : Fin maxOpenFiles) (hused : (files i).used = true)
      (hne : (files i).firstCluster ≠ 0) : Head l m files (files i).firstCluster

structure Linked (l : Layout) (m : Mem) (H : ℕ → Prop) : Prop where
  chain : ∀ c, H c → ∃ cs, Chain l m c cs
  disjoint : ∀ c d cs ds, H c → H d → c ≠ d → Chain l m c cs → Chain l m d ds → cs.Disjoint ds

structure WellFormed (l : Layout) (m : Mem) (files : Files) : Prop where
  subdir : ∀ a, LiveEntry l m a → (direntAt m a).IsDir → 2 ≤ (direntAt m a).cluster
  linked : Linked l m (Head l m files)

def EndsClean (l : Layout) (m : Mem) : Prop :=
  ∀ d cs pre a post, DirCluster l m d → Chain l m d cs → l.dirSlots cs = pre ++ a :: post →
    m a = 0 → ∀ b ∈ post, m b = 0

variable {l : Layout} {m m' : Mem} {files : Files} {c d : ℕ} {cs cs' : List ℕ}

theorem WellFormed.head_of_dir (hwf : WellFormed l m files) (hd : DirCluster l m d) :
    Head l m files d := by
  cases hd with
  | root => exact .root
  | sub hd hch ha hname hdir =>
    have hlive : LiveEntry l m _ := ⟨_, _, hd, hch, ha, hname⟩
    exact .entry hlive (hwf.subdir _ hlive hdir)

theorem WellFormed.dir_chain (hwf : WellFormed l m files) (hd : DirCluster l m d) :
    ∃ cs, Chain l m d cs :=
  hwf.linked.chain d (hwf.head_of_dir hd)

theorem Linked.mono {H H' : ℕ → Prop} (h : Linked l m H) (himp : ∀ c, H' c → H c) :
    Linked l m H' :=
  ⟨fun c hc => h.chain c (himp c hc),
    fun c d cs ds hc hd => h.disjoint c d cs ds (himp c hc) (himp d hd)⟩

theorem Linked.congr {H : ℕ → Prop} (h : Linked l m H)
    (heq : ∀ c, l.InVolume c → l.entry m' c = l.entry m c) : Linked l m' H := by
  have hback : ∀ c cs, Chain l m' c cs → Chain l m c cs := fun c cs hch =>
    hch.congr fun x hx => (heq x (hch.range x hx)).symm
  refine ⟨?_, ?_⟩
  · intro c hc
    obtain ⟨cs, hch⟩ := h.chain c hc
    exact ⟨cs, hch.congr fun x hx => heq x (hch.range x hx)⟩
  · intro c d cs ds hc hd hne hcs hds
    exact h.disjoint c d cs ds hc hd hne (hback c cs hcs) (hback d ds hds)

structure Grown (l : Layout) (m m' : Mem) (cs cs' : List ℕ) : Prop where
  fresh : ∀ x ∈ cs', x ∉ cs → l.entry m x = 0
  entries : ∀ x, l.InVolume x → x ∉ cs' → l.entry m' x = l.entry m x

theorem Wrote.grown {pos : ℕ} {bs : List UInt8} (h : Wrote l m m' cs cs' pos bs) :
    Grown l m m' cs cs' :=
  ⟨h.fresh, h.entries⟩

theorem Grown.disjoint {ds : List ℕ} (h : Grown l m m' cs cs') (hch : Chain l m c ds)
    (hold : ds.Disjoint cs) : ds.Disjoint cs' := by
  intro x hx hx'
  by_cases hin : x ∈ cs
  · exact hold hx hin
  · exact hch.not_free hx (h.fresh x hx' hin)

theorem Grown.chain {ds : List ℕ} (h : Grown l m m' cs cs') (hch : Chain l m c ds)
    (hold : ds.Disjoint cs) : Chain l m' c ds :=
  hch.congr fun x hx => h.entries x (hch.range x hx) (h.disjoint hch hold hx)

theorem Linked.grow (hg : l.Geometry) {H : ℕ → Prop} {f : ℕ} (h : Linked l m H)
    (hgrown : Grown l m m' cs cs') (hnew : Chain l m' f cs')
    (hold : ∀ c ds, H c → c ≠ f → Chain l m c ds → ds.Disjoint cs) :
    Linked l m' (fun c => H c ∨ c = f) := by
  have hapart : ∀ c ds, H c → c ≠ f → Chain l m c ds → ds.Disjoint cs' :=
    fun c ds hc hne hch => hgrown.disjoint hch (hold c ds hc hne hch)
  have hkeep : ∀ c ds, H c → c ≠ f → Chain l m c ds → Chain l m' c ds :=
    fun c ds hc hne hch => hgrown.chain hch (hold c ds hc hne hch)
  have hfrom : ∀ c ds, H c → c ≠ f → Chain l m' c ds → Chain l m c ds := by
    intro c ds hc hne hch
    obtain ⟨es, hes⟩ := h.chain c hc
    rw [hch.unique hg (hkeep c es hc hne hes)]
    exact hes
  refine ⟨?_, ?_⟩
  · intro c hc
    by_cases hcf : c = f
    · exact ⟨cs', hcf ▸ hnew⟩
    · obtain ⟨ds, hds⟩ := h.chain c (hc.resolve_right hcf)
      exact ⟨ds, hkeep c ds (hc.resolve_right hcf) hcf hds⟩
  · intro c d ds es hc hd hne hds hes
    by_cases hcf : c = f
    · subst hcf
      have hdH := hd.resolve_right (Ne.symm hne)
      rw [hds.unique hg hnew]
      exact (hapart d es hdH (Ne.symm hne) (hfrom d es hdH (Ne.symm hne) hes)).symm
    · have hcH := hc.resolve_right hcf
      by_cases hdf : d = f
      · subst hdf
        rw [hes.unique hg hnew]
        exact hapart c ds hcH hne (hfrom c ds hcH hne hds)
      · have hdH := hd.resolve_right hdf
        exact h.disjoint c d ds es hcH hdH hne (hfrom c ds hcH hcf hds) (hfrom d es hdH hdf hes)

def SameTree (l : Layout) (m m' : Mem) : Prop :=
  ∀ d, DirCluster l m d → ∃ cs, Chain l m d cs ∧ Chain l m' d cs ∧
    ∀ a ∈ l.dirSlots cs, ∀ i < dirEntrySize, m' (a + i) = m (a + i)

theorem SameTree.live (h : ∀ a ∈ l.dirSlots cs, ∀ i < dirEntrySize, m' (a + i) = m (a + i)) :
    liveSlots m' (l.dirSlots cs) = liveSlots m (l.dirSlots cs) := by
  apply liveSlots_congr
  intro a ha
  exact ⟨by simpa using h a ha 0 (by decide), h a ha 11 (by decide)⟩

theorem SameTree.dir_of (hg : l.Geometry) (h : SameTree l m m') (hd : DirCluster l m' d) :
    DirCluster l m d := by
  induction hd with
  | root => exact .root
  | sub hd hch ha hname hdir ih =>
    obtain ⟨cs, hcs, hcs', hsame⟩ := h _ ih
    obtain rfl := hch.unique hg hcs'
    have heq := direntAt_congr (hsame _ (mem_of_liveSlots ha))
    rw [SameTree.live hsame] at ha
    rw [heq] at hname hdir ⊢
    exact .sub ih hcs ha hname hdir

theorem SameTree.liveEntry_of (hg : l.Geometry) (h : SameTree l m m') {a : ℕ}
    (ha : LiveEntry l m' a) : LiveEntry l m a ∧ direntAt m' a = direntAt m a := by
  obtain ⟨d, cs, hd, hch, ha, hname⟩ := ha
  obtain ⟨ds, hds, hds', hsame⟩ := h d (h.dir_of hg hd)
  obtain rfl := hch.unique hg hds'
  have heq := direntAt_congr (hsame a (mem_of_liveSlots ha))
  rw [SameTree.live hsame] at ha
  rw [heq] at hname
  exact ⟨⟨d, cs, h.dir_of hg hd, hds, ha, hname⟩, heq⟩

theorem SameTree.head_of (hg : l.Geometry) (h : SameTree l m m') (hc : Head l m' files c) :
    Head l m files c := by
  cases hc with
  | root => exact .root
  | entry ha h2 =>
    obtain ⟨hold, heq⟩ := h.liveEntry_of hg ha
    rw [heq] at h2 ⊢
    exact .entry hold h2
  | handle i hused hne => exact .handle i hused hne

theorem SameTree.endsClean (hg : l.Geometry) (h : SameTree l m m') (hends : EndsClean l m) :
    EndsClean l m' := by
  intro d cs pre a post hd hch hsplit h0 b hb
  obtain ⟨ds, hds, hds', hsame⟩ := h d (h.dir_of hg hd)
  obtain rfl := hch.unique hg hds'
  have hbyte : ∀ x ∈ l.dirSlots cs, m' x = m x := fun x hx => by
    simpa using hsame x hx 0 (by decide)
  rw [hbyte a (by rw [hsplit]; simp)] at h0
  rw [hbyte b (by rw [hsplit]; simp [hb])]
  exact hends d cs pre a post (h.dir_of hg hd) hds hsplit h0 b hb

theorem slot_cluster (hg : l.Geometry) (hch : Chain l m d cs) {a i : ℕ} (ha : a ∈ l.dirSlots cs)
    (hi : i < dirEntrySize) : ∃ c ∈ cs, l.InCluster c (a + i) := by
  obtain ⟨c, hc, hslot⟩ := List.mem_flatMap.mp ha
  exact ⟨c, hc, slot_inCluster hg (hch.range c hc) hslot hi⟩

theorem Wrote.data_apart (hg : l.Geometry) {pos : ℕ} {bs : List UInt8}
    (hwrote : Wrote l m m' cs cs' pos bs) (hrange : ∀ x ∈ cs', l.InVolume x) {ds : List ℕ}
    (hds : Chain l m d ds) (hapart : ds.Disjoint cs) {x : ℕ} (hc : c ∈ ds) (hin : l.InCluster c x) :
    m' x = m x := by
  have hdisj := hwrote.grown.disjoint hds hapart
  apply hwrote.frame _ (not_inTable_of_inCluster hg hin)
  intro j hj heq
  have hpos : pos + j < cs'.length * l.bytesPerCluster := by
    have := hwrote.room
    omega
  have hmem := posAddr_mem hpos
  rw [heq] at hin
  have hsame := inCluster_inj hg (hds.range c hc) (hrange _ hmem) hin
    (posAddr_inCluster hg cs' (pos + j))
  exact hdisj hc (hsame ▸ hmem)

theorem Wrote.sameTree (hg : l.Geometry) (hwf : WellFormed l m files) {pos : ℕ} {bs : List UInt8}
    (hwrote : Wrote l m m' cs cs' pos bs) (hrange : ∀ x ∈ cs', l.InVolume x)
    (hdirs : ∀ d ds, DirCluster l m d → Chain l m d ds → ds.Disjoint cs) : SameTree l m m' := by
  intro d hd
  obtain ⟨ds, hds⟩ := hwf.dir_chain hd
  refine ⟨ds, hds, hwrote.grown.chain hds (hdirs d ds hd hds), ?_⟩
  intro a ha i hi
  obtain ⟨c, hc, hin⟩ := slot_cluster hg hds ha hi
  exact hwrote.data_apart hg hrange hds (hdirs d ds hd hds) hc hin

end XldKernel.Fat32
