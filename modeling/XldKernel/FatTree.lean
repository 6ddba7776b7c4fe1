import XldKernel.FatVolume
import XldKernel.Lists

/-!
# FAT32: adding one entry to the directory tree

`Inserted` describes the disk before and after an entry was written into the
first free slot of a reachable directory. All directories keep their chains and
their other slots. The directories and live entries afterwards are those of
before and the new one; a new directory holds only its dot entries.
-/

namespace XldKernel.Fat32
open ByteMemory BlockDevice LinkedPath

structure BareDir (l : Layout) (m : Mem) (c : ℕ) : Prop where
  dots : ∀ cs b, Chain l m c cs → b ∈ liveSlots m (l.dirSlots cs) → (direntAt m b).name ∈ dotNames
  ends : ∀ cs pre b post, Chain l m c cs → l.dirSlots cs = pre ++ b :: post → m b = 0 →
    ∀ x ∈ post, m x = 0

structure Inserted (l : Layout) (m m' : Mem) (p a : ℕ) (e : Dirent) : Prop where
  parent : DirCluster l m p
  keeps : ∀ d, DirCluster l m d → ∃ cs, Chain l m d cs ∧ Chain l m' d cs ∧
    ∀ b ∈ l.dirSlots cs, b ≠ a → ∀ i < dirEntrySize, m' (b + i) = m (b + i)
  elsewhere : ∀ d cs, DirCluster l m d → d ≠ p → Chain l m d cs → a ∉ l.dirSlots cs
  slot : ∀ cs, Chain l m p cs → ∃ pre post, l.dirSlots cs = pre ++ a :: post ∧
    (∀ b ∈ pre, m b ≠ 0 ∧ m b ≠ 0xE5) ∧ (m a = 0 → ∀ b ∈ post, m b = 0)
  free : m a = 0 ∨ m a = 0xE5
  entry : direntAt m' a = e
  live : m' a ≠ 0 ∧ m' a ≠ 0xE5 ∧ m' (a + 11) ≠ attrLfn
  name : e.name ∉ dotNames
  inner : e.IsDir → BareDir l m' e.cluster

namespace Inserted
variable {l : Layout} {m m' : Mem} {p a d : ℕ} {e : Dirent} {cs : List ℕ}
  (hg : l.Geometry) (h : Inserted l m m' p a e)
include hg h

theorem parent_live (hch : Chain l m p cs) :
    ∃ F G, liveSlots m (l.dirSlots cs) = F ++ G ∧ liveSlots m' (l.dirSlots cs) = F ++ a :: G := by
  obtain ⟨ds, hds, -, hsame⟩ := h.keeps p h.parent
  obtain rfl := hch.unique hg hds
  obtain ⟨pre, post, hsplit, hpre, hpost⟩ := h.slot cs hch
  have hnodup := dirSlots_nodup hg hch.range hch.nodup
  rw [hsplit] at hnodup hsame ⊢
  refine liveSlots_insert hpre h.free hpost ?_ h.live
  intro b hb
  have hne : b ≠ a := by
    intro hba
    have hnot := List.nodup_middle.mp hnodup
    exact (List.nodup_cons.mp hnot).1 (hba ▸ hb)
  have hmem : b ∈ pre ++ a :: post := by
    simp only [List.mem_append, List.mem_cons] at hb ⊢
    tauto
  exact ⟨by simpa using hsame b hmem hne 0 (by decide), hsame b hmem hne 11 (by decide)⟩

theorem other_live (hd : DirCluster l m d) (hne : d ≠ p) (hch : Chain l m d cs) :
    liveSlots m' (l.dirSlots cs) = liveSlots m (l.dirSlots cs) := by
  obtain ⟨ds, hds, -, hsame⟩ := h.keeps d hd
  obtain rfl := hch.unique hg hds
  have hout := h.elsewhere d cs hd hne hch
  apply SameTree.live
  intro b hb i hi
  exact hsame b hb (fun hba => hout (hba ▸ hb)) i hi

theorem mem_live {b : ℕ} (hd : DirCluster l m d) (hch : Chain l m d cs) :
    b ∈ liveSlots m' (l.dirSlots cs) ↔
      b ∈ liveSlots m (l.dirSlots cs) ∨ (d = p ∧ b = a) := by
  by_cases hdp : d = p
  · subst hdp
    obtain ⟨F, G, hold, hnew⟩ := h.parent_live hg hch
    rw [hold, hnew]
    simp only [List.mem_append, List.mem_cons]
    tauto
  · rw [h.other_live hg hd hdp hch]
    simp [hdp]

omit hg in
theorem not_live : a ∉ liveSlots m (l.dirSlots cs) := by
  intro ha
  obtain ⟨h0, h5, -⟩ := live_of_mem ha
  rcases h.free with hz | he
  · exact h0 hz
  · exact h5 he

theorem dirent_eq {b : ℕ} (hd : DirCluster l m d) (hch : Chain l m d cs)
    (hb : b ∈ liveSlots m (l.dirSlots cs)) : direntAt m' b = direntAt m b := by
  obtain ⟨ds, hds, -, hsame⟩ := h.keeps d hd
  obtain rfl := hch.unique hg hds
  refine direntAt_congr (hsame b (mem_of_liveSlots hb) ?_)
  intro hba
  exact h.not_live (hba ▸ hb)

theorem chain_back (hd : DirCluster l m d) (hch : Chain l m' d cs) : Chain l m d cs := by
  obtain ⟨ds, hds, hds', -⟩ := h.keeps d hd
  rw [hch.unique hg hds']
  exact hds

theorem dir_of (hd : DirCluster l m' d) : DirCluster l m d ∨ (e.IsDir ∧ d = e.cluster) := by
  induction hd with
  | root => exact Or.inl .root
  | sub hd hch ha hname hdir ih =>
    rcases ih with hold | ⟨hed, rfl⟩
    · have hch' := h.chain_back hg hold hch
      rcases (h.mem_live hg hold hch').mp ha with hlive | ⟨-, rfl⟩
      · rw [h.dirent_eq hg hold hch' hlive] at hname hdir ⊢
        exact Or.inl (.sub hold hch' hlive hname hdir)
      · rw [h.entry] at hdir ⊢
        exact Or.inr ⟨hdir, rfl⟩
    · exact absurd ((h.inner hed).dots _ _ hch ha) hname

theorem dir_to (hd : DirCluster l m d) : DirCluster l m' d := by
  induction hd with
  | root => exact .root
  | sub hd hch ha hname hdir ih =>
    obtain ⟨ds, hds, hds', -⟩ := h.keeps _ hd
    obtain rfl := hch.unique hg hds
    have heq := h.dirent_eq hg hd hch ha
    rw [← heq] at hname hdir ⊢
    exact .sub ih hds' ((h.mem_live hg hd hch).mpr (Or.inl ha)) hname hdir

theorem liveEntry_of {b : ℕ} (hb : LiveEntry l m' b) :
    (LiveEntry l m b ∧ direntAt m' b = direntAt m b) ∨ b = a := by
  obtain ⟨d, cs, hd, hch, hlive, hname⟩ := hb
  rcases h.dir_of hg hd with hold | ⟨hed, rfl⟩
  · have hch' := h.chain_back hg hold hch
    rcases (h.mem_live hg hold hch').mp hlive with hlive' | ⟨-, rfl⟩
    · have heq := h.dirent_eq hg hold hch' hlive'
      rw [heq] at hname
      exact Or.inl ⟨⟨d, cs, hold, hch', hlive', hname⟩, heq⟩
    · exact Or.inr rfl
  · exact absurd ((h.inner hed).dots _ _ hch hlive) hname

theorem liveEntry_new : LiveEntry l m' a := by
  obtain ⟨cs, hcs, hcs', -⟩ := h.keeps p h.parent
  refine ⟨p, cs, h.dir_to hg h.parent, hcs',
    (h.mem_live hg h.parent hcs).mpr (Or.inr ⟨rfl, rfl⟩), ?_⟩
  rw [h.entry]
  exact h.name

theorem endsClean (hends : EndsClean l m) : EndsClean l m' := by
  intro d cs pre b post hd hch hsplit h0 x hx
  rcases h.dir_of hg hd with hold | ⟨hed, rfl⟩
  · have hch' := h.chain_back hg hold hch
    obtain ⟨ds, hds, -, hsame⟩ := h.keeps d hold
    obtain rfl := hch'.unique hg hds
    have hbyte : ∀ y ∈ l.dirSlots cs, y ≠ a → m' y = m y := fun y hy hne => by
      simpa using hsame y hy hne 0 (by decide)
    have hba : b ≠ a := fun hba => h.live.1 (hba ▸ h0)
    rw [hbyte b (by rw [hsplit]; simp) hba] at h0
    have hxz := hends d cs pre b post hold hch' hsplit h0
    by_cases hxa : x = a
    · -- the slot was free and came after an end mark, yet no mark came before it
      subst hxa
      have hdp : d = p := by
        by_contra hne
        exact h.elsewhere d cs hold hne hch' (by rw [hsplit]; simp [hx])
      subst hdp
      obtain ⟨pre', post', hsplit', hpre', -⟩ := h.slot cs hch'
      have hnodup := dirSlots_nodup hg hch'.range hch'.nodup
      rw [hsplit] at hsplit' hnodup
      exact absurd h0 (hpre' b (Lists.mem_before hnodup hsplit' hx)).1
    · rw [hbyte x (by rw [hsplit]; simp [hx]) hxa]
      exact hxz x hx
  · exact (h.inner hed).ends cs pre b post hch hsplit h0 x hx

end Inserted

end XldKernel.Fat32
