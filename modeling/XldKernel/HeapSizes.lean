import XldKernel.HeapTiling

/-!
# Usable sizes of allocated blocks

`kmalloc_usable_size` of `kernel/src/kmalloc.c` against the size that was asked for.
Here the page allocator may also answer `NULL`, in `kmalloc_init` and later. Requests
are rounded up to a multiple of 16, and the product of `kcalloc` is taken, in `size_t`.
-/

namespace XldKernel.Kmalloc
open ByteMemory IntervalTiling LinkedPath GuardedRun

/-- Every answer of the page allocator other than `NULL` is an area of whole pages apart
from all earlier ones. -/
structure PageSource (pmalloc : ℕ → ℕ) : Prop where
  aligned : ∀ k, pmalloc k % 4096 = 0
  fits : ∀ k, pmalloc k + poolSize ≤ 2 ^ 64
  apart : ∀ j k, j < k → pmalloc j ≠ 0 → pmalloc k ≠ 0 →
    pmalloc j + poolSize ≤ pmalloc k ∨ pmalloc k + poolSize ≤ pmalloc j

def Granted (pmalloc : ℕ → ℕ) (n x : ℕ) : Prop :=
  ∃ k < n, pmalloc k ≠ 0 ∧ pmalloc k ≤ x ∧ x < pmalloc k + poolSize

variable {pmalloc : ℕ → ℕ} {P : ℕ → Prop} {F : ℕ → ℕ → Prop} {fuel size ptr : ℕ} {h : Heap}
  {free live : List Block} {b : Block} {w : World}

theorem granted_succ (pmalloc : ℕ → ℕ) (n x : ℕ) :
    Granted pmalloc (n + 1) x ↔
      (pmalloc n ≠ 0 ∧ pmalloc n ≤ x ∧ x < pmalloc n + poolSize) ∨ Granted pmalloc n x := by
  constructor
  · rintro ⟨k, hk, hx⟩
    rcases Nat.lt_succ_iff_lt_or_eq.mp hk with hk | rfl
    · exact Or.inr ⟨k, hk, hx⟩
    · exact Or.inl hx
  · rintro (hx | ⟨k, hk, hx⟩)
    · exact ⟨n, by omega, hx⟩
    · exact ⟨k, by omega, hx⟩

def newBlocks (pool : ℕ) : List Block := if pool = 0 then [] else [poolBlock pool]

theorem PageSource.addPool (hp : PageSource pmalloc)
    (hl : Laid h (Granted pmalloc h.pmallocs) free live) :
    Laid (addPool pmalloc h) (Granted pmalloc (h.pmallocs + 1))
      (newBlocks (pmalloc h.pmallocs) ++ free) live := by
  by_cases hnull : pmalloc h.pmallocs = 0
  · have hsame : Granted pmalloc (h.pmallocs + 1) = Granted pmalloc h.pmallocs := by
      funext x
      rw [eq_iff_iff, granted_succ]
      exact or_iff_right fun hx => hx.1 hnull
    rw [hsame, newBlocks, if_pos hnull, List.nil_append, Kmalloc.addPool]
    dsimp only
    rw [if_pos hnull]
    exact ⟨hl.path, hl.free_hdr, hl.live_hdr, hl.tiles, hl.bounded⟩
  · rw [newBlocks, if_neg hnull, List.singleton_append]
    refine hl.addPool rfl hnull (hp.fits _) ?_ fun x => ?_
    · rintro x h1 h2 ⟨k, hk, hne, h3, h4⟩
      have := hp.apart k h.pmallocs hk hne hnull
      omega
    · rw [granted_succ, and_iff_right hnull]

theorem mem_newBlocks {pool : ℕ} : b ∈ newBlocks pool ↔ pool ≠ 0 ∧ b = poolBlock pool := by
  rw [newBlocks]
  by_cases hnull : pool = 0
  · simp [hnull]
  · simp [hnull]

theorem bootHeap_laid (pmalloc : ℕ → ℕ) (m : Mem) :
    Laid (bootHeap m) (Granted pmalloc (bootHeap m).pmallocs) [] [] := by
  refine ⟨rfl, by simp, by simp, ⟨List.Pairwise.nil, ?_⟩, ?_⟩
  · simp [Granted, bootHeap]
  · simp [Granted, bootHeap]

def Untouched (pmalloc : ℕ → ℕ) (h : Heap) (free : List Block) : Prop :=
  Laid h (Granted pmalloc h.pmallocs) free [] ∧ ∀ b ∈ free, ∃ k, b = poolBlock (pmalloc k)

theorem PageSource.untouched_addPool (hp : PageSource pmalloc) (hu : Untouched pmalloc h free) :
    Untouched pmalloc (Kmalloc.addPool pmalloc h) (newBlocks (pmalloc h.pmallocs) ++ free) := by
  refine ⟨?_, fun b hb => ?_⟩
  · rw [addPool_pmallocs]
    exact hp.addPool hu.1
  · rcases List.mem_append.mp hb with hb | hb
    · exact ⟨_, (mem_newBlocks.mp hb).2⟩
    · exact hu.2 b hb

theorem PageSource.untouched_start (hp : PageSource pmalloc) (m : Mem) :
    ∃ free, Untouched pmalloc (World.start pmalloc m).heap free := by
  have hpools : ∀ n, ∃ free,
      Untouched pmalloc ((Kmalloc.addPool pmalloc)^[n] (bootHeap m)) free := by
    intro n
    induction n with
    | zero => exact ⟨[], bootHeap_laid pmalloc m, by simp⟩
    | succ n ih =>
      obtain ⟨free, hu⟩ := ih
      rw [Function.iterate_succ_apply']
      exact ⟨_, hp.untouched_addPool hu⟩
  exact hpools poolCount

theorem PageSource.supplies (hp : PageSource pmalloc) (n : ℕ) :
    Supplies pmalloc (Granted pmalloc) n := by
  refine ⟨?_, fun {g free live} _ hl => ⟨_, hp.addPool hl⟩⟩
  rintro k - x ⟨j, -, hne, hle, -⟩
  have hpage := hp.aligned j
  omega

theorem Laid.usable (hl : Laid h P free (b :: live)) : kmallocUsableSize b.payload h = b.size := by
  have hb := hl.live_hdr b List.mem_cons_self
  rw [kmallocUsableSize, if_neg b.payload_ne_zero]
  dsimp only
  rw [b.payload_sub, hb.magic, hb.size, if_neg (by simp)]

theorem AllocatedIn.usable (ha : AllocatedIn F size ptr h live)
    (hs : Supplies pmalloc F h.pmallocs) (hptr : ptr ≠ 0) :
    alignSize size ≤ kmallocUsableSize ptr h ∧ kmallocUsableSize ptr h + 4096 ≤ 2 ^ 64 := by
  obtain ⟨free, ⟨h0, -⟩ | ⟨b, rfl, hsize, hl⟩⟩ := ha
  · exact absurd h0 hptr
  · have hroom := hl.size_lt (hs.low _ le_rfl) (b := b) (by simp)
    rw [hl.usable]
    exact ⟨hsize, by omega⟩

theorem kmallocUsableSize_fill (n : ℕ) (v : UInt8) (hptr : blockHeaderSize ≤ ptr) :
    kmallocUsableSize ptr { h with mem := fill h.mem ptr n v } = kmallocUsableSize ptr h := by
  have hheader : header (fill h.mem ptr n v) (ptr - blockHeaderSize) =
      header h.mem (ptr - blockHeaderSize) := by
    refine header_congr fun x _ hx => fill_apart _ (Or.inl ?_)
    omega
  rw [kmallocUsableSize, kmallocUsableSize]
  dsimp only
  rw [hheader]

section Sizes
variable (hg : w.GoodIn F) (hs : Supplies pmalloc F h.pmallocs) (hptr : ptr ≠ 0)
include hg hs hptr

theorem World.GoodIn.kmalloc_usable
    (hres : Kmalloc.kmalloc pmalloc fuel size w.heap = some (ptr, h)) :
    alignSize size ≤ kmallocUsableSize ptr h ∧ kmallocUsableSize ptr h + 4096 ≤ 2 ^ 64 := by
  obtain ⟨free, live, hl, -⟩ := hg
  exact (hl.kmalloc hres hs).usable hs hptr

theorem World.GoodIn.kcalloc_usable {nmemb : ℕ}
    (hres : Kmalloc.kcalloc pmalloc fuel nmemb size w.heap = some (ptr, h)) :
    alignSize (nmemb * size % 2 ^ 64) ≤ kmallocUsableSize ptr h ∧
      kmallocUsableSize ptr h + 4096 ≤ 2 ^ 64 := by
  obtain ⟨free, live, hl, -⟩ := hg
  obtain ⟨⟨q, h₁⟩, hk, hret⟩ := Option.map_eq_some_iff.mp hres
  dsimp only at hret
  by_cases h0 : q = 0
  · rw [if_pos h0] at hret
    exact absurd (h0 ▸ (congrArg Prod.fst hret).symm) hptr
  · rw [if_neg h0] at hret
    obtain ⟨rfl, rfl⟩ := Prod.mk.inj hret
    have ha := hl.kmalloc hk hs
    have hheader : blockHeaderSize ≤ q := by
      obtain ⟨-, ⟨hz, -⟩ | ⟨b, rfl, -⟩⟩ := ha
      · exact absurd hz h0
      · exact Nat.le_add_left _ _
    rw [kmallocUsableSize_fill _ _ hheader]
    exact ha.usable hs h0

theorem World.GoodIn.krealloc_usable {p : ℕ} (hp : p ∈ w.live)
    (hcopy : size + 15 < 2 ^ 64 ∨ (header w.heap.mem (p - blockHeaderSize)).size ≤ 16)
    (hres : Kmalloc.krealloc pmalloc fuel p size w.heap = some (ptr, h)) :
    (size + 15 < 2 ^ 64 → size ≤ kmallocUsableSize ptr h) ∧
      kmallocUsableSize ptr h + 4096 ≤ 2 ^ 64 := by
  obtain ⟨free, b, rest, rfl, hl, -, -⟩ := hg.focus hp
  rw [b.payload_sub, (hl.live_hdr b List.mem_cons_self).size] at hcopy
  have hreq : b.size < size → b.size ≤ alignSize size := by
    intro hlt
    rcases hcopy with hnowrap | hsmall
    · exact hlt.le.trans (le_alignSize hnowrap)
    · rw [alignSize_eq]
      omega
  obtain ⟨free', ⟨-, h0, -⟩ | ⟨-, h0, -⟩ | ⟨c, -, rfl, hsize, hl'⟩⟩ := hl.krealloc hreq hres hs
  · exact absurd h0 hptr
  · exact absurd h0 hptr
  · have hroom := hl'.size_lt (hs.low _ le_rfl) (b := c) (by simp)
    rw [hl'.usable]
    refine ⟨fun hnowrap => ?_, by omega⟩
    rcases hsize with hle | hle
    · exact hle
    · exact (le_alignSize hnowrap).trans hle

end Sizes

theorem PageSource.run_good (hp : PageSource pmalloc) {m : Mem} {calls : List Call}
    (hok : Allowed (World.call pmalloc fuel) World.Careful (World.start pmalloc m) calls)
    (hrun : run (World.call pmalloc fuel) (World.start pmalloc m) calls = some w) :
    w.GoodIn (Granted pmalloc) := by
  have hstart : (World.start pmalloc m).GoodIn (Granted pmalloc) :=
    World.start_goodIn m (by simp [Granted]) (hp.supplies _)
  have hstep : ∀ (s : World) (c : Call) (t : World), s.GoodIn (Granted pmalloc) → s.Careful c →
      s.call pmalloc fuel c = some t → t.GoodIn (Granted pmalloc) :=
    fun s c t hs hc hcall => hs.call (Or.inr hc) hcall (hp.supplies _)
  exact run_invariant hstep hok hstart hrun

/-- A block has the size that was asked for exactly when rounding the request up did not
wrap. A `krealloc` that wraps may write behind its new block, unless the old block has
the minimum size. -/
theorem usable_size_iff (pmalloc : ℕ → ℕ) (hp : PageSource pmalloc) (fuel : ℕ) (m : Mem)
    (calls : List Call) (w : World)
    (hok : Allowed (World.call pmalloc fuel) World.Careful (World.start pmalloc m) calls)
    (hrun : run (World.call pmalloc fuel) (World.start pmalloc m) calls = some w)
    (q : ℕ) (hq : q ≠ 0) (h : Heap) :
    (∀ n < 2 ^ 64, kmalloc pmalloc fuel n w.heap = some (q, h) →
      (n ≤ kmallocUsableSize q h ↔ n + 15 < 2 ^ 64)) ∧
    (∀ nmemb < 2 ^ 64, ∀ size < 2 ^ 64, kcalloc pmalloc fuel nmemb size w.heap = some (q, h) →
      (nmemb * size ≤ kmallocUsableSize q h ↔ nmemb * size + 15 < 2 ^ 64)) ∧
    (∀ p ∈ w.live, ∀ n < 2 ^ 64, krealloc pmalloc fuel p n w.heap = some (q, h) →
      (n + 15 < 2 ^ 64 → n ≤ kmallocUsableSize q h) ∧
      ((header w.heap.mem (p - blockHeaderSize)).size ≤ 16 →
        (n ≤ kmallocUsableSize q h ↔ n + 15 < 2 ^ 64))) := by
  have hg := hp.run_good hok hrun
  have hs := hp.supplies h.pmallocs
  refine ⟨fun n _ hres => ?_, fun nmemb _ size _ hres => ?_, fun p hlive n _ hres => ⟨?_, ?_⟩⟩
  · obtain ⟨hsize, hlt⟩ := hg.kmalloc_usable hs hq hres
    exact ⟨fun hle => by omega, fun hnowrap => (le_alignSize hnowrap).trans hsize⟩
  · obtain ⟨hsize, hlt⟩ := hg.kcalloc_usable hs hq hres
    refine ⟨fun hle => by omega, fun hnowrap => ?_⟩
    rw [Nat.mod_eq_of_lt (by omega)] at hsize
    exact (le_alignSize hnowrap).trans hsize
  · intro hnowrap
    exact (hg.krealloc_usable hs hq hlive (Or.inl hnowrap) hres).1 hnowrap
  · intro hsmall
    obtain ⟨hsize, hlt⟩ := hg.krealloc_usable hs hq hlive (Or.inr hsmall) hres
    exact ⟨fun hle => by omega, hsize⟩

def fourPools (k : ℕ) : ℕ := if k < 4 then linearPages k else 0

theorem fourPools_source : PageSource fourPools := by
  have heq : ∀ k, fourPools k = if k < 4 then k * 16384 + 16384 else 0 := by
    intro k
    rw [fourPools, linearPages, show poolSize = 16384 from rfl, Nat.add_mul, Nat.one_mul]
  have hsize : poolSize = 16384 := rfl
  refine ⟨fun k => ?_, fun k => ?_, fun j k hjk hj hk => ?_⟩
  · rw [heq]
    split_ifs <;> omega
  · rw [heq, hsize]
    split_ifs <;> omega
  · rw [heq] at hj hk
    rw [heq, heq, hsize]
    split_ifs at * <;> omega

instance (w : World) : ∀ c, Decidable (w.Careful c)
  | .kmalloc size => inferInstanceAs (Decidable (size + 15 < 2 ^ 64))
  | .kcalloc nmemb size => inferInstanceAs (Decidable (nmemb * size + 15 < 2 ^ 64))
  | .krealloc ptr size =>
    inferInstanceAs (Decidable ((ptr = 0 ∨ ptr ∈ w.live) ∧ size + 15 < 2 ^ 64))
  | .kfree ptr => inferInstanceAs (Decidable (ptr = 0 ∨ ptr ∈ w.live))
  | .store ptr i _ => inferInstanceAs
    (Decidable (ptr ∈ w.live ∧ i < (header w.heap.mem (ptr - blockHeaderSize)).size))

def oneBlock : Option World :=
  run (World.call fourPools 1) (World.start fourPools fun _ => 0) [.kmalloc 100]

theorem usable_size_iff_oneBlock : ∃ w q h, oneBlock = some w ∧
    krealloc fourPools 1 65560 200 w.heap = some (q, h) ∧ q ≠ 0 ∧ 200 ≤ kmallocUsableSize q h := by
  have hcalls : (oneBlock.bind fun w => (krealloc fourPools 1 65560 200 w.heap).map
      fun r => (w.live, r.1)) = some ([65560], 65696) := by decide +kernel
  obtain ⟨w, hw, hres⟩ := Option.bind_eq_some_iff.mp hcalls
  obtain ⟨⟨q, h⟩, hq, hvals⟩ := Option.map_eq_some_iff.mp hres
  obtain ⟨hlive, rfl⟩ := Prod.mk.inj hvals
  have hall := usable_size_iff fourPools fourPools_source 1 (fun _ => 0) [.kmalloc 100] w
    (by decide +kernel) hw 65696 (by decide) h
  exact ⟨w, _, h, hw, hq, by decide, (hall.2.2 65560 (by simp [hlive]) 200 (by norm_num) hq).1
    (by norm_num)⟩

/-- Requests near `2^64`, and a product that wraps, get a block of 16 bytes. -/
theorem short_blocks :
    PageSource fourPools ∧
    ((kmalloc fourPools 1 (2 ^ 64 - 1) (World.start fourPools fun _ => 0).heap).map fun r =>
      (r.1, kmallocUsableSize r.1 r.2)) = some (65560, 16) ∧
    ((kcalloc fourPools 1 (2 ^ 63 + 1) 2 (World.start fourPools fun _ => 0).heap).map fun r =>
      (r.1, kmallocUsableSize r.1 r.2)) = some (65560, 16) ∧
    (oneBlock.bind fun w => (krealloc fourPools 1 65560 (2 ^ 64 - 1) w.heap).map fun r =>
      (w.live, r.1, kmallocUsableSize r.1 r.2)) = some ([65560], 65696, 16) :=
  ⟨fourPools_source, by decide +kernel, by decide +kernel, by decide +kernel⟩

end XldKernel.Kmalloc
