import XldKernel.HeapBlocks

/-!
# The allocator calls on a laid out heap

The page allocator is assumed to answer with fresh areas: aligned, inside the
address space and apart from every earlier answer. Under this assumption each
call of `kernel/src/kmalloc.c` takes a heap whose blocks tile the pools received
so far to one whose blocks do.
-/

namespace XldKernel.Kmalloc
open ByteMemory IntervalTiling LinkedPath

structure FreshPool (pmalloc : ℕ → ℕ) (k : ℕ) : Prop where
  ne_zero : pmalloc k ≠ 0
  aligned : pmalloc k % 4096 = 0
  fits : pmalloc k + poolSize ≤ 2 ^ 64
  apart : ∀ j < k, pmalloc j + poolSize ≤ pmalloc k ∨ pmalloc k + poolSize ≤ pmalloc j

def Pools (pmalloc : ℕ → ℕ) (n x : ℕ) : Prop :=
  ∃ k < n, pmalloc k ≤ x ∧ x < pmalloc k + poolSize

def Block.payload (b : Block) : ℕ := b.addr + blockHeaderSize

def HeapOk (pmalloc : ℕ → ℕ) (h : Heap) (free live : List Block) : Prop :=
  Laid h (Pools pmalloc h.pmallocs) free live

variable {pmalloc : ℕ → ℕ} {h h' : Heap} {P : ℕ → Prop} {free live pre post : List Block}

@[simp] theorem setLink_pmallocs (h : Heap) (prev v : ℕ) :
    (setLink h prev v).pmallocs = h.pmallocs := by
  simp only [setLink]
  split_ifs <;> rfl

@[simp] theorem addPool_pmallocs (pmalloc : ℕ → ℕ) (h : Heap) :
    (addPool pmalloc h).pmallocs = h.pmallocs + 1 := by
  simp only [addPool]
  split_ifs <;> rfl

@[simp] theorem insertBlock_pmallocs (h : Heap) (block prev curr : ℕ) :
    (insertBlock h block prev curr).pmallocs = h.pmallocs := by
  simp only [insertBlock]
  split_ifs <;> simp

def poolBlock (pool : ℕ) : Block := ⟨pool, poolSize - blockHeaderSize⟩

theorem poolBlock_fin (pool : ℕ) : (poolBlock pool).fin = pool + poolSize := by
  simp only [poolBlock, Block.fin]
  have hlt : blockHeaderSize ≤ poolSize := by decide
  omega

theorem lt_poolBlock_size (pool : ℕ) : 16352 < (poolBlock pool).size := by
  simp only [poolBlock]
  decide

theorem Laid.addPool {Q : ℕ → Prop} {pool : ℕ} (hl : Laid h P free live)
    (hpool : pmalloc h.pmallocs = pool) (hne : pool ≠ 0) (hfits : pool + poolSize ≤ 2 ^ 64)
    (hout : ∀ x, pool ≤ x → x < pool + poolSize → ¬ P x)
    (hcover : ∀ x, Q x ↔ (pool ≤ x ∧ x < pool + poolSize) ∨ P x) :
    Laid (Kmalloc.addPool pmalloc h) Q (poolBlock pool :: free) live := by
  set b : Block := poolBlock pool with hb
  have hhas : ∀ x, b.interval.Has x ↔ pool ≤ x ∧ x < pool + poolSize := by
    intro x
    rw [← poolBlock_fin pool]
    exact Iff.rfl
  have hpos := Nat.pos_of_ne_zero hne
  have htiles :=
    hl.tiles.add (i := b.interval) fun x hx => hout x ((hhas x).mp hx).1 ((hhas x).mp hx).2
  set m := writeHeader h.mem pool (poolSize - blockHeaderSize) h.freeList with hm
  have hhdr : ∀ c ∈ free ++ live, header m c.addr = header h.mem c.addr := by
    intro c hc
    have hap := (List.pairwise_cons.mp htiles.apart).1 _ (List.mem_map_of_mem hc)
    have hap' : b.Apart c := hap
    exact (writeHeader_only _ _ _ _).header_eq hap'.symm.sep
  have hfl : h.freeList < 2 ^ 64 := by
    rw [path_start hl.path]
    cases free with
    | nil => norm_num [headAddr]
    | cons c cs => exact hl.addr_lt (by simp)
  have hnew : header m b.addr = ⟨b.size, h.freeList, 0, blockMagic⟩ := by
    simp only [hm, hb, poolBlock]
    rw [header_writeHeader, Nat.mod_eq_of_lt hfl, Nat.mod_eq_of_lt (by omega)]
  simp only [Kmalloc.addPool, hpool]
  rw [if_neg hne]
  refine ⟨⟨rfl, ?_⟩, ?_, ?_, ?_, ?_⟩
  · change Path (nextOf m) (header m b.addr).next (free.map Block.addr) 0
    rw [hnew]
    refine hl.path.congr ?_
    intro a ha
    obtain ⟨c, hc, rfl⟩ := List.mem_map.mp ha
    exact nextOf_eq (hhdr c (by simp [hc]))
  · intro c hc
    rcases List.mem_cons.mp hc with rfl | hc
    · exact ⟨congrArg Header.size hnew, congrArg Header.used hnew, congrArg Header.magic hnew⟩
    · exact (hl.free_hdr c hc).of_header_eq (hhdr c (by simp [hc]))
  · exact fun c hc => (hl.live_hdr c hc).of_header_eq (hhdr c (by simp [hc]))
  · refine ⟨htiles.apart, ?_⟩
    intro x
    rw [hcover x, ← hhas x]
    exact htiles.cover x
  · intro x hx
    rcases (hcover x).mp hx with hx | hx
    · omega
    · exact hl.bounded x hx

theorem HeapOk.addPool (hl : HeapOk pmalloc h free live) (hf : FreshPool pmalloc h.pmallocs) :
    HeapOk pmalloc (addPool pmalloc h)
      (poolBlock (pmalloc h.pmallocs) :: free) live := by
  rw [HeapOk, addPool_pmallocs]
  refine Laid.addPool hl rfl hf.ne_zero hf.fits ?_ ?_
  · rintro x h1 h2 ⟨k, hk, h3, h4⟩
    have := hf.apart k hk
    omega
  · intro x
    constructor
    · rintro ⟨k, hk, h1, h2⟩
      rcases Nat.lt_succ_iff_lt_or_eq.mp hk with hk | rfl
      · exact Or.inr ⟨k, hk, h1, h2⟩
      · exact Or.inl ⟨h1, h2⟩
    · rintro (⟨h1, h2⟩ | ⟨k, hk, h1, h2⟩)
      · exact ⟨h.pmallocs, by omega, h1, h2⟩
      · exact ⟨k, by omega, h1, h2⟩

theorem alignSize_eq (size : ℕ) : alignSize size = max 16 ((size + 15) % 2 ^ 64 / 16 * 16) := by
  have hadd : size + 16 - 1 = size + 15 := by omega
  simp only [alignSize, kmallocAlign, kmallocMinSize, hadd]
  by_cases hsmall : (size + 15) % 2 ^ 64 / 16 * 16 < 16
  · rw [if_pos hsmall, max_eq_left hsmall.le]
  · rw [if_neg hsmall, max_eq_right (not_lt.mp hsmall)]

theorem alignSize_idem (size : ℕ) : alignSize (alignSize size) = alignSize size := by
  simp only [alignSize_eq]
  omega

theorem le_alignSize {size : ℕ} (h : size + 15 < 2 ^ 64) : size ≤ alignSize size := by
  rw [alignSize_eq]
  omega

theorem alignSize_le {size : ℕ} (h : size ≤ 16352) : alignSize size ≤ 16352 := by
  rw [alignSize_eq]
  omega

theorem alignSize_ne_zero (size : ℕ) : alignSize size ≠ 0 := by
  rw [alignSize_eq]
  omega

inductive Taken (pre post : List Block) (b : Block) (size : ℕ) : List Block → Block → Prop
  | whole : Taken pre post b size (pre ++ post) b
  | split (h : size + blockHeaderSize + kmallocMinSize ≤ b.size) :
      Taken pre post b size (pre ++ ⟨b.addr + blockHeaderSize + size,
        b.size - size - blockHeaderSize⟩ :: post) ⟨b.addr, size⟩

theorem Laid.take {b : Block} {size : ℕ} (hl : Laid h P (pre ++ b :: post) live)
    (hsize : size + blockHeaderSize + kmallocMinSize < 2 ^ 64) :
    ∃ free' c, Taken pre post b size free' c ∧
      Laid (takeBlock h (lastAddr 0 pre) b.addr size) P free' (c :: live) := by
  have hnext : ∀ m : Mem, (header (setUsed m b.addr 1) b.addr).next = nextOf m b.addr := by
    intro m
    rw [header_setUsed]
    rfl
  by_cases hcut : size + blockHeaderSize + kmallocMinSize ≤ b.size
  · have hres := (hl.split hcut).unlink
    simp only [← hnext] at hres
    exact ⟨_, _, .split hcut, hres⟩
  · have hb := hl.free_hdr b (by simp)
    have hwhole : splitBlock h.mem b.addr size = h.mem := by
      rw [splitBlock, hb.size, Nat.mod_eq_of_lt hsize, if_pos (by omega)]
    have hres := hl.unlink
    rw [← hnext, ← hwhole] at hres
    exact ⟨_, b, .whole, hres⟩

theorem Laid.findFit (hl : Laid h P free live) (size : ℕ) :
    (findFit h.mem size listFuel 0 h.freeList = some none ∧ ∀ b ∈ free, b.size < size) ∨
    ∃ pre b post, free = pre ++ b :: post ∧ size ≤ b.size ∧
      findFit h.mem size listFuel 0 h.freeList = some (some (lastAddr 0 pre, b.addr)) :=
  findFit_spec h.mem size hl.path hl.free_hdr
    (fun _ hb => (hl.room (List.mem_append_left _ hb)).1.ne') listFuel 0 hl.length_lt

/-- What a returned pointer says about the heap after an allocation of `size` bytes, where `P n`
are the addresses that `n` answers of the page allocator gave. -/
def AllocatedIn (P : ℕ → ℕ → Prop) (size ptr : ℕ) (h : Heap) (live : List Block) : Prop :=
  ∃ free, (ptr = 0 ∧ Laid h (P h.pmallocs) free live) ∨
    ∃ b : Block, ptr = b.payload ∧ alignSize size ≤ b.size ∧ Laid h (P h.pmallocs) free (b :: live)

/-- The first `n` answers of the page allocator extend a laid out heap, above the first
page. -/
structure Supplies (pmalloc : ℕ → ℕ) (P : ℕ → ℕ → Prop) (n : ℕ) : Prop where
  low : ∀ k ≤ n, ∀ x, P k x → 4096 ≤ x
  grow : ∀ {g : Heap} {free live : List Block}, g.pmallocs < n → Laid g (P g.pmallocs) free live →
    ∃ free', Laid (addPool pmalloc g) (P (g.pmallocs + 1)) free' live

theorem supplies_pools {n : ℕ} (hfresh : ∀ k < n, FreshPool pmalloc k) :
    Supplies pmalloc (Pools pmalloc) n := by
  refine ⟨?_, fun {g free live} hg hl => ?_⟩
  · rintro k hk x ⟨j, hj, hle, -⟩
    have hpos := (hfresh j (by omega)).ne_zero
    have hpage := (hfresh j (by omega)).aligned
    omega
  · have hok : HeapOk pmalloc g free live := hl
    have hgrown := hok.addPool (hfresh _ hg)
    rw [HeapOk, addPool_pmallocs] at hgrown
    exact ⟨_, hgrown⟩

theorem takeBlock_pmallocs (h : Heap) (prev curr size : ℕ) :
    (takeBlock h prev curr size).pmallocs = h.pmallocs := by
  simp [takeBlock]

/-- A block leaves out the first page, so no size that fits into one overflows in
`split_block`. -/
theorem Laid.size_lt {b : Block} (hl : Laid h P free live) (hlow : ∀ x, P x → 4096 ≤ x)
    (hb : b ∈ free ++ live) : b.size + 4096 + blockHeaderSize ≤ 2 ^ 64 := by
  have hroom := (hl.room hb).2
  have hle := hlow b.addr ((hl.tiles.cover b.addr).mpr
    ⟨_, List.mem_map_of_mem hb, le_rfl, b.interval.pos⟩)
  simp only [Block.fin] at hroom
  omega

theorem Laid.takeFit {F : ℕ → ℕ → Prop} {b : Block} {size : ℕ}
    (hl : Laid h (F h.pmallocs) (pre ++ b :: post) live) (hfit : alignSize size ≤ b.size)
    (hsize : alignSize size + blockHeaderSize + kmallocMinSize < 2 ^ 64) :
    AllocatedIn F size b.payload (takeBlock h (lastAddr 0 pre) b.addr (alignSize size)) live := by
  obtain ⟨free', c, htaken, hres⟩ := Laid.take hl hsize
  have hc : c.addr = b.addr ∧ alignSize size ≤ c.size := by
    cases htaken with
    | whole => exact ⟨rfl, hfit⟩
    | split => exact ⟨rfl, le_rfl⟩
  refine ⟨free', Or.inr ⟨c, by rw [Block.payload, Block.payload, hc.1], hc.2, ?_⟩⟩
  rw [takeBlock_pmallocs]
  exact hres

theorem kmalloc_pmallocs {fuel size ptr : ℕ}
    (hres : kmalloc pmalloc fuel size h = some (ptr, h')) : h.pmallocs ≤ h'.pmallocs := by
  induction fuel generalizing size h with
  | zero => simp [kmalloc] at hres
  | succ fuel ih =>
    simp only [kmalloc] at hres
    split_ifs at hres with h0
    · cases hres
      exact le_rfl
    · split at hres
      · cases hres
      · have := ih hres
        rw [addPool_pmallocs] at this
        omega
      · split_ifs at hres <;> cases hres
        · exact le_rfl
        · exact (takeBlock_pmallocs _ _ _ _).ge

/-- A call of `kmalloc` that returns a block takes it from the free list of a heap that
was reached by adding pools; `inv` is what adding a pool keeps. -/
theorem kmalloc_taken {inv : Heap → List Block → Prop} {fuel size ptr : ℕ} (hinv : inv h free)
    (hlaid : ∀ g free, inv g free → ∃ P, Laid g P free live ∧ ∀ x, P x → 4096 ≤ x)
    (hadd : ∀ g free, inv g free → g.pmallocs < h'.pmallocs →
      ∃ free', inv (addPool pmalloc g) free')
    (hres : kmalloc pmalloc fuel size h = some (ptr, h')) :
    (size = 0 ∧ ptr = 0 ∧ h' = h) ∨ ∃ g pre b post, inv g (pre ++ b :: post) ∧
      alignSize size ≤ b.size ∧ alignSize size + blockHeaderSize + kmallocMinSize < 2 ^ 64 ∧
      ptr = b.payload ∧ h' = takeBlock g (lastAddr 0 pre) b.addr (alignSize size) := by
  induction fuel generalizing size h free with
  | zero => simp [Kmalloc.kmalloc] at hres
  | succ fuel ih =>
    simp only [Kmalloc.kmalloc] at hres
    split_ifs at hres with h0
    · cases hres
      exact Or.inl ⟨h0, rfl, rfl⟩
    · obtain ⟨P, hl, hlow⟩ := hlaid h free hinv
      rcases hl.findFit (alignSize size) with ⟨hnone, -⟩ | ⟨pre, b, post, rfl, hfit, hsome⟩
      · simp only [hnone] at hres
        have hcount := kmalloc_pmallocs hres
        rw [addPool_pmallocs] at hcount
        obtain ⟨free', hinv'⟩ := hadd h free hinv hcount
        rcases ih hinv' hres with ⟨hzero, -⟩ | htaken
        · exact absurd hzero (alignSize_ne_zero size)
        · rw [alignSize_idem] at htaken
          exact Or.inr htaken
      · have hb := hl.free_hdr b (by simp)
        have hroom := hl.size_lt hlow (b := b) (by simp)
        simp only [hsome, hb.magic, ne_eq, not_true_eq_false, if_false] at hres
        cases hres
        refine Or.inr ⟨h, pre, b, post, hinv, hfit, ?_, rfl, rfl⟩
        simp only [blockHeaderSize, kmallocMinSize] at *
        omega

theorem HeapOk.kmalloc_cases {motive : Heap → List Block → Prop} {fuel size ptr : ℕ}
    (hl : HeapOk pmalloc h free live) (hstart : motive h free)
    (hpool : ∀ g free, HeapOk pmalloc g free live → FreshPool pmalloc g.pmallocs → motive g free →
      motive (Kmalloc.addPool pmalloc g) (poolBlock (pmalloc g.pmallocs) :: free))
    (hres : kmalloc pmalloc fuel size h = some (ptr, h'))
    (hfresh : ∀ k < h'.pmallocs, FreshPool pmalloc k) :
    (size = 0 ∧ ptr = 0 ∧ h' = h) ∨ ∃ g pre b post, HeapOk pmalloc g (pre ++ b :: post) live ∧
      motive g (pre ++ b :: post) ∧ alignSize size ≤ b.size ∧
      alignSize size + blockHeaderSize + kmallocMinSize < 2 ^ 64 ∧ ptr = b.payload ∧
      h' = takeBlock g (lastAddr 0 pre) b.addr (alignSize size) := by
  have hlaid : ∀ g free, (g.pmallocs ≤ h'.pmallocs ∧ HeapOk pmalloc g free live ∧ motive g free) →
      ∃ P, Laid g P free live ∧ ∀ x, P x → 4096 ≤ x :=
    fun g free hg => ⟨_, hg.2.1, (supplies_pools hfresh).low _ hg.1⟩
  have hadd : ∀ g free, (g.pmallocs ≤ h'.pmallocs ∧ HeapOk pmalloc g free live ∧ motive g free) →
      g.pmallocs < h'.pmallocs → ∃ free', (Kmalloc.addPool pmalloc g).pmallocs ≤ h'.pmallocs ∧
        HeapOk pmalloc (Kmalloc.addPool pmalloc g) free' live ∧
        motive (Kmalloc.addPool pmalloc g) free' := by
    intro g free hg hlt
    have hnew := hfresh _ hlt
    exact ⟨_, by rwa [addPool_pmallocs], hg.2.1.addPool hnew, hpool g free hg.2.1 hnew hg.2.2⟩
  have htaken := kmalloc_taken ⟨kmalloc_pmallocs hres, hl, hstart⟩ hlaid hadd hres
  exact htaken.imp_right fun ⟨g, pre, b, post, hg, hrest⟩ =>
    ⟨g, pre, b, post, hg.2.1, hg.2.2, hrest⟩

theorem Laid.kmalloc {F : ℕ → ℕ → Prop} {fuel size ptr : ℕ} (hl : Laid h (F h.pmallocs) free live)
    (hres : kmalloc pmalloc fuel size h = some (ptr, h')) (hs : Supplies pmalloc F h'.pmallocs) :
    AllocatedIn F size ptr h' live := by
  have hlaid : ∀ g free, (g.pmallocs ≤ h'.pmallocs ∧ Laid g (F g.pmallocs) free live) →
      ∃ P, Laid g P free live ∧ ∀ x, P x → 4096 ≤ x :=
    fun g free hg => ⟨_, hg.2, hs.low _ hg.1⟩
  have hadd : ∀ g free, (g.pmallocs ≤ h'.pmallocs ∧ Laid g (F g.pmallocs) free live) →
      g.pmallocs < h'.pmallocs → ∃ free', (Kmalloc.addPool pmalloc g).pmallocs ≤ h'.pmallocs ∧
        Laid (Kmalloc.addPool pmalloc g) (F (Kmalloc.addPool pmalloc g).pmallocs) free' live := by
    intro g free hg hlt
    obtain ⟨free', hgrown⟩ := hs.grow hlt hg.2
    rw [addPool_pmallocs]
    exact ⟨free', hlt, hgrown⟩
  rcases kmalloc_taken ⟨kmalloc_pmallocs hres, hl⟩ hlaid hadd hres with
    ⟨-, rfl, rfl⟩ | ⟨g, pre, b, post, hg, hfit, hsize, rfl, rfl⟩
  · exact ⟨free, Or.inl ⟨rfl, hl⟩⟩
  · exact hg.2.takeFit hfit hsize

theorem HeapOk.kmalloc {fuel size ptr : ℕ} (hl : HeapOk pmalloc h free live)
    (hres : kmalloc pmalloc fuel size h = some (ptr, h'))
    (hfresh : ∀ k < h'.pmallocs, FreshPool pmalloc k) :
    AllocatedIn (Pools pmalloc) size ptr h' live :=
  Laid.kmalloc hl hres (supplies_pools hfresh)

theorem HeapOk.kmalloc_returns (fuel : ℕ) {size : ℕ} (hl : HeapOk pmalloc h free live)
    (hreq : size ≤ 16352) (hpool : FreshPool pmalloc h.pmallocs) :
    ∃ r, Kmalloc.kmalloc pmalloc (fuel + 2) size h = some r ∧
      r.2.pmallocs ≤ h.pmallocs + 1 := by
  have hmagic : ∀ {h : Heap} {free pre post : List Block} {b : Block},
      HeapOk pmalloc h free live → free = pre ++ b :: post →
      (header h.mem b.addr).magic = blockMagic := by
    intro h free pre post b hl hsplit
    exact (Laid.free_hdr hl b (by simp [hsplit])).magic
  rw [Kmalloc.kmalloc]
  split_ifs with h0
  · exact ⟨_, rfl, Nat.le_succ _⟩
  · rcases Laid.findFit hl (alignSize size) with ⟨hnone, -⟩ | ⟨pre, b, post, hsplit, -, hsome⟩
    · have hl' := hl.addPool hpool
      simp only [hnone]
      rw [Kmalloc.kmalloc, if_neg (alignSize_ne_zero size), alignSize_idem]
      rcases Laid.findFit hl' (alignSize size) with
        ⟨-, hall⟩ | ⟨pre, b, post, hsplit, -, hsome⟩
      · have hlt := hall _ List.mem_cons_self
        exact absurd (hlt.trans_le (alignSize_le hreq)) (lt_poolBlock_size _).not_gt
      · simp only [hsome, hmagic hl' hsplit, ne_eq, not_true_eq_false, if_false]
        exact ⟨_, rfl, by rw [takeBlock_pmallocs, addPool_pmallocs]⟩
    · simp only [hsome, hmagic hl hsplit, ne_eq, not_true_eq_false, if_false]
      exact ⟨_, rfl, by rw [takeBlock_pmallocs]; exact Nat.le_succ _⟩

theorem HeapOk.payload {b : Block} (m' : Mem) (hl : HeapOk pmalloc h free live) (hb : b ∈ live)
    (hm : ∀ x, x < b.payload ∨ b.fin ≤ x → m' x = h.mem x) :
    HeapOk pmalloc { h with mem := m' } free live :=
  Laid.payload m' hl hb hm

theorem Laid.kcalloc {F : ℕ → ℕ → Prop} {fuel nmemb size ptr : ℕ}
    (hl : Laid h (F h.pmallocs) free live) (hreq : nmemb * size % 2 ^ 64 + 15 < 2 ^ 64)
    (hres : kcalloc pmalloc fuel nmemb size h = some (ptr, h'))
    (hs : Supplies pmalloc F h'.pmallocs) : AllocatedIn F (nmemb * size % 2 ^ 64) ptr h' live := by
  simp only [Kmalloc.kcalloc, Option.map_eq_some_iff, Prod.exists] at hres
  obtain ⟨q, h1, hq, hret⟩ := hres
  split_ifs at hret with h0
  · cases hret
    exact hl.kmalloc hq hs
  · cases hret
    obtain ⟨free', ⟨hz, -⟩ | ⟨b, hb, hsize, hok⟩⟩ := hl.kmalloc hq hs
    · exact absurd hz h0
    · refine ⟨free', Or.inr ⟨b, hb, hsize, hok.payload (b := b) _ (by simp) ?_⟩⟩
      intro x hx
      apply fill_apart
      have hend : b.fin = b.payload + b.size := rfl
      have hstart : b.payload = b.addr + blockHeaderSize := rfl
      have hle := le_alignSize hreq
      omega

theorem kfree_pmallocs {ptr : ℕ} (hres : kfree ptr h = some h') :
    h'.pmallocs = h.pmallocs := by
  simp only [kfree] at hres
  split_ifs at hres
  · cases hres
    rfl
  · cases hres
    rfl
  · cases hres
    rfl
  · obtain ⟨⟨prev, curr⟩, -, hret⟩ := Option.map_eq_some_iff.mp hres
    rw [← hret]
    exact insertBlock_pmallocs _ _ _ _

inductive Joined (b : Block) : List Block → Block → List Block → Prop
  | apart {post : List Block} (h : ∀ c ∈ post.head?, b.fin ≠ c.addr) : Joined b post b post
  | merged {c : Block} {post : List Block} (h : b.fin = c.addr) :
      Joined b (c :: post) ⟨b.addr, b.size + blockHeaderSize + c.size⟩ post

inductive JoinedBack (b : Block) : List Block → List Block → Block → Prop
  | apart {pre : List Block} (h : ∀ p ∈ pre.getLast?, p.fin ≠ b.addr) : JoinedBack b pre pre b
  | merged {ini : List Block} {p : Block} (h : p.fin = b.addr) :
      JoinedBack b (ini ++ [p]) ini ⟨p.addr, p.size + blockHeaderSize + b.size⟩

theorem Joined.addr_eq {b c : Block} {post' : List Block} (h : Joined b post c post') :
    c.addr = b.addr := by
  cases h <;> rfl

theorem Laid.joinNext {b : Block} (hl : Laid h P (pre ++ b :: post) live) :
    ∃ c post', Joined b post c post' ∧
      Laid (if (header h.mem b.addr).next ≠ 0 ∧
          b.addr + blockHeaderSize + (header h.mem b.addr).size = (header h.mem b.addr).next then
        { h with mem := coalesce h.mem b.addr (header h.mem b.addr).next } else h) P
        (pre ++ c :: post') live := by
  have hpath := hl.path
  rw [List.map_append, List.map_cons] at hpath
  have hnext : (header h.mem b.addr).next = headAddr post := path_start hpath.split.2
  rw [hnext, (hl.free_hdr b (by simp)).size]
  cases post with
  | nil =>
    rw [if_neg fun h => h.1 rfl]
    exact ⟨b, [], .apart (by simp), hl⟩
  | cons c post =>
    have hc : c.addr ≠ 0 := (hl.room (by simp)).1.ne'
    by_cases htouch : b.fin = c.addr
    · rw [if_pos ⟨hc, htouch⟩]
      exact ⟨_, post, .merged htouch, hl.join htouch⟩
    · rw [if_neg fun h => htouch h.2]
      exact ⟨b, c :: post, .apart (by simpa using htouch), hl⟩

theorem Laid.joinPrev {b : Block} (hl : Laid h P (pre ++ b :: post) live) :
    ∃ pre' d, JoinedBack b pre pre' d ∧
      Laid (if lastAddr 0 pre ≠ 0 ∧
          lastAddr 0 pre + blockHeaderSize + (header h.mem (lastAddr 0 pre)).size = b.addr then
        { h with mem := coalesce h.mem (lastAddr 0 pre) b.addr } else h) P
        (pre' ++ d :: post) live := by
  rcases List.eq_nil_or_concat pre with rfl | ⟨ini, p, rfl⟩
  · rw [if_neg fun h => h.1 rfl]
    exact ⟨[], b, .apart (by simp), hl⟩
  · rw [List.concat_eq_append] at *
    rw [lastAddr_snoc, (hl.free_hdr p (by simp)).size]
    have hp : p.addr ≠ 0 := (hl.room (by simp)).1.ne'
    by_cases htouch : p.fin = b.addr
    · rw [if_pos ⟨hp, htouch⟩]
      rw [List.append_assoc] at hl
      exact ⟨ini, _, .merged htouch, hl.join htouch⟩
    · rw [if_neg fun h => htouch h.2]
      exact ⟨_, b, .apart (by simpa using htouch), hl⟩

theorem Laid.kfree_eq {b : Block} (hl : Laid h P free (b :: live)) :
    Kmalloc.kfree b.payload h = some (insertBlock { h with mem := setUsed h.mem b.addr 0 } b.addr
      (lastAddr 0 (below b.addr free)) (headAddr (notBelow b.addr free))) := by
  have hb := hl.live_hdr b (by simp)
  have hblock : b.payload - blockHeaderSize = b.addr := Nat.add_sub_cancel _ _
  have hne : b.payload ≠ 0 := by
    simp only [Block.payload, blockHeaderSize]
    omega
  have hused : (1 : UInt8) ≠ 0 := by decide
  -- the walk reads links of free blocks only, which the mark on `b` leaves alone
  have hpath : Path (nextOf (setUsed h.mem b.addr 0)) h.freeList (free.map Block.addr) 0 := by
    refine hl.path.congr ?_
    intro a ha
    obtain ⟨c, hc, rfl⟩ := List.mem_map.mp ha
    have hap := (List.pairwise_append.mp hl.pairwise).2.2 c hc b (by simp)
    exact nextOf_eq ((setUsed_only h.mem b.addr 0).header_eq hap.sep)
  have hspot := findSpot_spec _ b.addr hpath
    (fun c hc => (hl.room (List.mem_append_left _ hc)).1.ne') listFuel 0 hl.length_lt
  simp only [Kmalloc.kfree, hne, if_false, hblock, hb.magic, ne_eq, not_true_eq_false, hb.used,
    hused, hspot, Option.map_some]

def Freed (b : Block) (pre post free' : List Block) : Prop :=
  ∃ c post' pre' d, Joined b post c post' ∧ JoinedBack c pre pre' d ∧ free' = pre' ++ d :: post'

theorem Laid.insert_join {b : Block} (hl : Laid h P (pre ++ post) (b :: live)) :
    ∃ free', Freed b pre post free' ∧
      Laid (insertBlock { h with mem := setUsed h.mem b.addr 0 } b.addr (lastAddr 0 pre)
        (headAddr post)) P free' live := by
  obtain ⟨c, post', hnext, hl₁⟩ := hl.insert.joinNext
  obtain ⟨pre', d, hprev, hl₂⟩ := hl₁.joinPrev
  rw [hnext.addr_eq] at hl₂
  exact ⟨_, ⟨c, post', pre', d, hnext, hprev, rfl⟩, hl₂⟩

theorem Laid.kfree {b : Block} (hl : Laid h P free (b :: live)) :
    ∃ h' free', Kmalloc.kfree b.payload h = some h' ∧ Laid h' P free' live ∧
      Freed b (below b.addr free) (notBelow b.addr free) free' := by
  have hkfree := hl.kfree_eq
  rw [← below_append_notBelow b.addr free] at hl
  obtain ⟨free', hfreed, hl'⟩ := hl.insert_join
  exact ⟨_, free', hkfree, hl', hfreed⟩

theorem HeapOk.kfree {b : Block} (hl : HeapOk pmalloc h free (b :: live)) :
    ∃ h' free', kfree b.payload h = some h' ∧ HeapOk pmalloc h' free' live ∧
      Freed b (below b.addr free) (notBelow b.addr free) free' := by
  obtain ⟨h', free', hkfree, hl', hfreed⟩ := Laid.kfree hl
  refine ⟨h', free', hkfree, ?_, hfreed⟩
  rw [HeapOk, kfree_pmallocs hkfree]
  exact hl'

/-- What `krealloc` does to the live block it is given: it is released, kept, or replaced by
a block that may be itself. A block that is kept or that replaces the old one has room for
the request. -/
def ReallocatedIn (P : ℕ → ℕ → Prop) (b : Block) (size ptr : ℕ) (h : Heap)
    (live : List Block) : Prop :=
  ∃ free, (size = 0 ∧ ptr = 0 ∧ Laid h (P h.pmallocs) free live) ∨
    (size ≠ 0 ∧ ptr = 0 ∧ Laid h (P h.pmallocs) free (b :: live)) ∨
    ∃ c : Block, size ≠ 0 ∧ ptr = c.payload ∧ (size ≤ c.size ∨ alignSize size ≤ c.size) ∧
      Laid h (P h.pmallocs) free (c :: live)

theorem Laid.move {b c : Block} (hl : Laid h P free (c :: b :: live)) (hsize : b.size ≤ c.size) :
    ∃ h' free', Kmalloc.kfree b.payload
        { h with mem := copy h.mem c.payload b.payload (header h.mem b.addr).size } = some h' ∧
      Laid h' P free' (c :: live) := by
  rw [(hl.live_hdr b (by simp)).size]
  have hcopied := hl.payload (b := c) (copy h.mem c.payload b.payload b.size) (by simp) (by
    intro x hx
    apply copy_apart
    have hend : c.fin = c.payload + c.size := rfl
    have hstart : c.payload = c.addr + blockHeaderSize := rfl
    omega)
  have hswap : Laid { h with mem := copy h.mem c.payload b.payload b.size } P free
      (b :: c :: live) := Laid.perm_live hcopied (List.Perm.swap b c live)
  obtain ⟨h', free', hkfree, hok, -⟩ := hswap.kfree
  exact ⟨h', free', hkfree, hok⟩

theorem krealloc_cases {b : Block} {fuel size ptr : ℕ} (hb : Describes h.mem 1 b)
    (hres : krealloc pmalloc fuel b.payload size h = some (ptr, h')) :
    (size = 0 ∧ ptr = 0 ∧ Kmalloc.kfree b.payload h = some h') ∨
    (size ≠ 0 ∧ size ≤ b.size ∧ ptr = b.payload ∧ h' = h) ∨
    ∃ q h₁, size ≠ 0 ∧ b.size < size ∧ Kmalloc.kmalloc pmalloc fuel size h = some (q, h₁) ∧
      (q = 0 ∧ ptr = 0 ∧ h' = h₁ ∨ q ≠ 0 ∧ ptr = q ∧ Kmalloc.kfree b.payload
        { h₁ with mem := copy h₁.mem q b.payload (header h₁.mem b.addr).size } = some h') := by
  have hblock : b.payload - blockHeaderSize = b.addr := Nat.add_sub_cancel _ _
  have hne : b.payload ≠ 0 := by
    simp only [Block.payload, blockHeaderSize]
    omega
  simp only [Kmalloc.krealloc, if_neg hne, hblock, hb.magic, ne_eq, not_true_eq_false, if_false,
    hb.size] at hres
  split_ifs at hres with h0 hfits
  · obtain ⟨h₁, hfree, hret⟩ := Option.map_eq_some_iff.mp hres
    cases hret
    exact Or.inl ⟨h0, rfl, hfree⟩
  · cases hres
    exact Or.inr (Or.inl ⟨h0, hfits, rfl, rfl⟩)
  · right
    right
    cases hk : Kmalloc.kmalloc pmalloc fuel size h with
    | none => simp [hk] at hres
    | some r =>
      obtain ⟨q, h₁⟩ := r
      refine ⟨q, h₁, h0, not_le.mp hfits, rfl, ?_⟩
      simp only [hk] at hres
      split_ifs at hres with hq
      · cases hres
        exact Or.inl ⟨hq, rfl, rfl⟩
      · obtain ⟨h₂, hfree, hret⟩ := Option.map_eq_some_iff.mp hres
        cases hret
        exact Or.inr ⟨hq, rfl, hfree⟩

theorem Laid.krealloc {F : ℕ → ℕ → Prop} {b : Block} {fuel size ptr : ℕ}
    (hl : Laid h (F h.pmallocs) free (b :: live)) (hreq : b.size < size → b.size ≤ alignSize size)
    (hres : krealloc pmalloc fuel b.payload size h = some (ptr, h'))
    (hs : Supplies pmalloc F h'.pmallocs) : ReallocatedIn F b size ptr h' live := by
  rcases krealloc_cases (hl.live_hdr b (by simp)) hres with
    ⟨h0, rfl, hfree⟩ | ⟨h0, hfits, rfl, rfl⟩ |
      ⟨q, h₁, h0, hlt, hk, ⟨rfl, rfl, rfl⟩ | ⟨hq, rfl, hfree⟩⟩
  · obtain ⟨h₁, free', hfree', hok, -⟩ := hl.kfree
    obtain rfl : h₁ = h' := Option.some_inj.mp (hfree'.symm.trans hfree)
    rw [← kfree_pmallocs hfree] at hok
    exact ⟨free', Or.inl ⟨h0, rfl, hok⟩⟩
  · exact ⟨free, Or.inr (Or.inr ⟨b, h0, rfl, Or.inl hfits, hl⟩)⟩
  · obtain ⟨free', ⟨-, hok⟩ | ⟨c, hc, -, -⟩⟩ := hl.kmalloc hk hs
    · exact ⟨free', Or.inr (Or.inl ⟨h0, rfl, hok⟩)⟩
    · exact absurd hc.symm (by simp [Block.payload, blockHeaderSize])
  · have hcount := kfree_pmallocs hfree
    dsimp only at hcount
    obtain ⟨free', ⟨hz, -⟩ | ⟨c, rfl, hcs, hok⟩⟩ := hl.kmalloc hk (hcount ▸ hs)
    · exact absurd hz hq
    · obtain ⟨h₂, free₂, hfree', hok₂⟩ := hok.move ((hreq hlt).trans hcs)
      obtain rfl : h₂ = h' := Option.some_inj.mp (hfree'.symm.trans hfree)
      rw [← hcount] at hok₂
      exact ⟨free₂, Or.inr (Or.inr ⟨c, h0, rfl, Or.inr hcs, hok₂⟩)⟩

end XldKernel.Kmalloc
