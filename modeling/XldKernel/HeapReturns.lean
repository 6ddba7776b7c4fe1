import XldKernel.HeapSizes

/-!
# Requests on which `kmalloc` returns

When no free block is large enough, `kmalloc` of `kernel/src/kmalloc.c` adds a pool and
calls itself. It does not look at whether `add_pool` got any memory, and a new pool is
never joined with an old one before the next search. So the recursion ends only when a
block that is free now fits, or when the request fits into one pool and the page
allocator answers with a pool once more.
-/

namespace XldKernel.Kmalloc
open ByteMemory IntervalTiling LinkedPath GuardedRun

/-- A free block has room for the rounded request, or a pool that is still to come has. -/
def Served (pmalloc : ℕ → ℕ) (h : Heap) (free : List Block) (size : ℕ) : Prop :=
  (∃ b ∈ free, alignSize size ≤ b.size) ∨
    alignSize size ≤ poolSize - blockHeaderSize ∧ ∃ k, h.pmallocs ≤ k ∧ pmalloc k ≠ 0

variable {pmalloc : ℕ → ℕ} {P : ℕ → Prop} {h : Heap} {free live : List Block} {size : ℕ}

theorem alignSize_le_pool (hsize : size < 2 ^ 64) :
    alignSize size ≤ poolSize - blockHeaderSize ↔ size ≤ 16352 ∨ 2 ^ 64 ≤ size + 15 := by
  rw [alignSize_eq, show poolSize - blockHeaderSize = 16360 from rfl]
  omega

theorem Laid.kmalloc_fit (fuel : ℕ) (hl : Laid h P free live)
    (hfit : ∃ b ∈ free, alignSize size ≤ b.size) :
    ∃ r, Kmalloc.kmalloc pmalloc (fuel + 1) size h = some r := by
  rw [Kmalloc.kmalloc]
  split_ifs with h0
  · exact ⟨_, rfl⟩
  · rcases hl.findFit (alignSize size) with ⟨-, hsmall⟩ | ⟨pre, b, post, rfl, -, hsome⟩
    · obtain ⟨b, hb, hle⟩ := hfit
      exact absurd (hsmall b hb) hle.not_gt
    · have hb := hl.free_hdr b (by simp)
      simp only [hsome, hb.magic, ne_eq, not_true_eq_false, if_false]
      exact ⟨_, rfl⟩

theorem Laid.kmalloc_grow (fuel : ℕ) (hl : Laid h P free live) (h0 : size ≠ 0)
    (hfit : ¬ ∃ b ∈ free, alignSize size ≤ b.size) :
    Kmalloc.kmalloc pmalloc (fuel + 1) size h =
      Kmalloc.kmalloc pmalloc fuel (alignSize size) (Kmalloc.addPool pmalloc h) := by
  rw [Kmalloc.kmalloc, if_neg h0]
  rcases hl.findFit (alignSize size) with ⟨hnone, -⟩ | ⟨pre, b, post, rfl, hle, -⟩
  · simp only [hnone]
  · exact absurd ⟨b, by simp, hle⟩ hfit

theorem served_addPool (hfit : ¬ ∃ b ∈ free, alignSize size ≤ b.size) :
    Served pmalloc (addPool pmalloc h) (newBlocks (pmalloc h.pmallocs) ++ free) (alignSize size) ↔
      Served pmalloc h free size := by
  have hblock : (poolBlock (pmalloc h.pmallocs)).size = poolSize - blockHeaderSize := rfl
  simp only [Served, alignSize_idem, addPool_pmallocs]
  constructor
  · rintro (⟨b, hb, hle⟩ | ⟨hle, k, hk, hne⟩)
    · rcases List.mem_append.mp hb with hb | hb
      · obtain ⟨hne, rfl⟩ := mem_newBlocks.mp hb
        exact Or.inr ⟨hle, _, le_rfl, hne⟩
      · exact absurd ⟨b, hb, hle⟩ hfit
    · exact Or.inr ⟨hle, k, by omega, hne⟩
  · rintro (hfits | ⟨hle, k, hk, hne⟩)
    · exact absurd hfits hfit
    · rcases hk.eq_or_lt with rfl | hlt
      · exact Or.inl ⟨_, List.mem_append_left _ (mem_newBlocks.mpr ⟨hne, rfl⟩), hle⟩
      · exact Or.inr ⟨hle, k, hlt, hne⟩

theorem PageSource.kmalloc_none (hp : PageSource pmalloc) (fuel : ℕ)
    (hl : Laid h (Granted pmalloc h.pmallocs) free live) (h0 : size ≠ 0)
    (hnot : ¬ Served pmalloc h free size) : kmalloc pmalloc fuel size h = none := by
  induction fuel generalizing h free size with
  | zero => rfl
  | succ fuel ih =>
    have hfit : ¬ ∃ b ∈ free, alignSize size ≤ b.size := fun hfit => hnot (Or.inl hfit)
    have hgrown := hp.addPool hl
    rw [← addPool_pmallocs pmalloc] at hgrown
    rw [hl.kmalloc_grow fuel h0 hfit]
    exact ih hgrown (alignSize_ne_zero size) ((served_addPool hfit).not.mpr hnot)

theorem PageSource.kmalloc_some (hp : PageSource pmalloc) {k : ℕ} (hne : pmalloc k ≠ 0)
    (hle : alignSize size ≤ poolSize - blockHeaderSize) (n : ℕ) (hk : h.pmallocs + n = k + 1)
    (hl : Laid h (Granted pmalloc h.pmallocs) free live)
    (hlast : n = 0 → ∃ b ∈ free, alignSize size ≤ b.size) :
    ∃ r, kmalloc pmalloc (n + 1) size h = some r := by
  induction n generalizing h free size with
  | zero => exact hl.kmalloc_fit 0 (hlast rfl)
  | succ n ih =>
    by_cases hfit : ∃ b ∈ free, alignSize size ≤ b.size
    · exact hl.kmalloc_fit (n + 1) hfit
    · have hgrown := hp.addPool hl
      rw [← addPool_pmallocs pmalloc] at hgrown
      by_cases h0 : size = 0
      · exact ⟨_, by rw [Kmalloc.kmalloc, if_pos h0]⟩
      · rw [hl.kmalloc_grow (n + 1) h0 hfit]
        refine ih (by rwa [alignSize_idem]) (by rw [addPool_pmallocs]; omega) hgrown ?_
        rintro rfl
        have hlastCall : h.pmallocs = k := by omega
        rw [alignSize_idem, hlastCall]
        exact ⟨_, List.mem_append_left _ (mem_newBlocks.mpr ⟨hne, rfl⟩), hle⟩

/-- On a laid out heap `kmalloc` returns, with `NULL` or a block, exactly when nothing is
asked for, a free block fits, or the rounded request fits into one pool and the page
allocator still has one. -/
theorem kmalloc_returns_iff (pmalloc : ℕ → ℕ) (hp : PageSource pmalloc) (h : Heap)
    (free live : List Block) (hl : Laid h (Granted pmalloc h.pmallocs) free live)
    (size : ℕ) (hsize : size < 2 ^ 64) :
    (∃ fuel ptr h', kmalloc pmalloc fuel size h = some (ptr, h') ∧
      AllocatedIn (Granted pmalloc) size ptr h' live) ↔
    size = 0 ∨ (∃ b ∈ free, alignSize size ≤ b.size) ∨
      (size ≤ 16352 ∨ 2 ^ 64 ≤ size + 15) ∧ ∃ k, h.pmallocs ≤ k ∧ pmalloc k ≠ 0 := by
  rw [← alignSize_le_pool hsize]
  constructor
  · rintro ⟨fuel, ptr, h', hres, -⟩
    by_contra hnot
    rw [not_or] at hnot
    rw [hp.kmalloc_none fuel hl hnot.1 hnot.2] at hres
    cases hres
  · intro hserved
    have hreturns : ∃ fuel r, kmalloc pmalloc fuel size h = some r := by
      rcases hserved with rfl | hfit | ⟨hle, k, hk, hne⟩
      · exact ⟨1, _, rfl⟩
      · exact ⟨1, hl.kmalloc_fit 0 hfit⟩
      · exact ⟨_, hp.kmalloc_some hne hle (k + 1 - h.pmallocs) (by omega) hl (by omega)⟩
    obtain ⟨fuel, ⟨ptr, h'⟩, hres⟩ := hreturns
    exact ⟨fuel, ptr, h', hres, hl.kmalloc hres (hp.supplies _)⟩

theorem kmalloc_returns_iff_boot : ∃ fuel ptr h',
    kmalloc fourPools fuel 100 (bootHeap fun _ => 0) = some (ptr, h') ∧
      AllocatedIn (Granted fourPools) 100 ptr h' [] :=
  (kmalloc_returns_iff fourPools fourPools_source _ [] [] (bootHeap_laid fourPools fun _ => 0) 100
    (by norm_num)).mpr (Or.inr (Or.inr ⟨Or.inl (by norm_num), 0, le_rfl, by decide⟩))

/-- No free block of the new heap holds 16353 bytes, and no later pool would. -/
theorem kmalloc_recurses_forever :
    PageSource fourPools ∧ (∃ free, Laid (World.start fourPools fun _ => 0).heap
      (Granted fourPools (World.start fourPools fun _ => 0).heap.pmallocs) free []) ∧
    ¬ ∃ fuel r, kmalloc fourPools fuel 16353 (World.start fourPools fun _ => 0).heap = some r := by
  obtain ⟨free, hl, hall⟩ := fourPools_source.untouched_start fun _ => 0
  refine ⟨fourPools_source, ⟨free, hl⟩, ?_⟩
  rintro ⟨fuel, r, hres⟩
  have hsize : ¬ alignSize 16353 ≤ poolSize - blockHeaderSize := by decide
  have hnot : ¬ Served fourPools (World.start fourPools fun _ => 0).heap free 16353 := by
    rintro (⟨b, hb, hle⟩ | ⟨hle, -⟩)
    · obtain ⟨k, rfl⟩ := hall b hb
      exact hsize hle
    · exact hsize hle
  rw [fourPools_source.kmalloc_none fuel hl (by norm_num) hnot] at hres
  cases hres

end XldKernel.Kmalloc
