import XldKernel.PmmInit
import XldKernel.GuardedRun

/-!
# The counter of free pages

`free_pages` is exact when it is the number of clear bits below `total_pages`. Every
loop of `kernel/src/pmm.c` changes the bits of a range of pages; how the number of
clear bits follows from that is stated once, for arbitrary bit functions.
-/

namespace XldKernel.Pmm
open ByteMemory GuardedRun

def clearBits (n : ℕ) (bit : ℕ → Bool) : Finset ℕ := (Finset.range n).filter fun q => bit q = false

section Ranges
variable {n lo hi : ℕ} {bit bit' : ℕ → Bool}

theorem mem_clearBits {q : ℕ} : q ∈ clearBits n bit ↔ q < n ∧ bit q = false := by
  simp [clearBits]

theorem clearBits_card_le (n : ℕ) (bit : ℕ → Bool) : (clearBits n bit).card ≤ n :=
  (Finset.card_filter_le _ _).trans (Finset.card_range n).le

theorem card_clearBits_mark (hhi : hi ≤ n) (hclear : ∀ q, lo ≤ q → q < hi → bit q = false)
    (hbit : ∀ q < n, bit' q = if lo ≤ q ∧ q < hi then true else bit q) :
    (clearBits n bit').card + (hi - lo) = (clearBits n bit).card := by
  have hsub : Finset.Ico lo hi ⊆ clearBits n bit := by
    intro q hq
    obtain ⟨h1, h2⟩ := Finset.mem_Ico.mp hq
    exact mem_clearBits.mpr ⟨by omega, hclear q h1 h2⟩
  have hset : clearBits n bit' = clearBits n bit \ Finset.Ico lo hi := by
    ext q
    rw [Finset.mem_sdiff, mem_clearBits, mem_clearBits, Finset.mem_Ico]
    by_cases hq : q < n
    · rw [hbit q hq]
      by_cases hin : lo ≤ q ∧ q < hi <;> simp [hin, hq]
    · simp [hq]
  rw [hset, ← Nat.card_Ico, Finset.card_sdiff_add_card_eq_card hsub]

theorem card_clearBits_clear (hhi : hi ≤ n) (hmark : ∀ q, lo ≤ q → q < hi → bit q = true)
    (hbit : ∀ q < n, bit' q = if lo ≤ q ∧ q < hi then false else bit q) :
    (clearBits n bit').card = (clearBits n bit).card + (hi - lo) := by
  have hdisj : Disjoint (clearBits n bit) (Finset.Ico lo hi) := by
    rw [Finset.disjoint_left]
    intro q hq hin
    obtain ⟨h1, h2⟩ := Finset.mem_Ico.mp hin
    rw [mem_clearBits, hmark q h1 h2] at hq
    exact absurd hq.2 (by decide)
  have hset : clearBits n bit' = clearBits n bit ∪ Finset.Ico lo hi := by
    ext q
    rw [Finset.mem_union, mem_clearBits, mem_clearBits, Finset.mem_Ico]
    by_cases hq : q < n
    · rw [hbit q hq]
      by_cases hin : lo ≤ q ∧ q < hi <;> simp [hin, hq]
    · simp only [hq, false_and, false_or, false_iff]
      omega
  rw [hset, Finset.card_union_of_disjoint hdisj, Nat.card_Ico]

end Ranges

def freeCount (s : Manager) : ℕ := (clearBits s.totalPages (bitmapGet s)).card

def Exact (s : Manager) : Prop := s.freePages = freeCount s

instance (s : Manager) : Decidable (Exact s) := inferInstanceAs (Decidable (_ = _))

theorem Exact.le {s : Manager} (h : Exact s) : s.freePages ≤ s.totalPages := by
  rw [h]
  exact clearBits_card_le _ _

inductive Request where
  | pmalloc (pages : ℕ)
  | pmallocAligned (pages alignment : ℕ)
  | pfree (ptr pages : ℕ)
  | setRegion (base size : ℕ) (used : Bool)

def Manager.request (s : Manager) : Request → Option Manager
  | .pmalloc pages => (Pmm.pmalloc s pages).map Prod.snd
  | .pmallocAligned pages alignment => (Pmm.pmallocAligned s pages alignment).map Prod.snd
  | .pfree ptr pages => some (Pmm.pfree s ptr pages)
  | .setRegion base size used => some (pmmSetRegion s base size used)

def Manager.InRange (s : Manager) : Request → Prop
  | .pmalloc pages => pages < 2 ^ 64
  | .pmallocAligned pages alignment => pages < 2 ^ 64 ∧ 0 < alignment ∧ alignment < 2 ^ 64
  | .pfree ptr pages => ptr = 0 ∨ pages = 0 ∨ virtToPhys ptr / pmmPageSize + pages ≤ s.totalPages
  | .setRegion base size _ => base + size ≤ s.totalPages * pmmPageSize

/-- No cached frame is handed out, the `int` index of the search stays in range, and
only used pages are released. -/
def Manager.Keeps (s : Manager) : Request → Prop
  | .pmalloc pages => (pages = 1 → s.stackTop = 0) ∧ min pages s.totalPages + 64 ≤ 2 ^ 31
  | .pfree ptr pages => ptr = 0 ∨ pages = 0 ∨
      ∀ q < virtToPhys ptr / pmmPageSize + pages, virtToPhys ptr / pmmPageSize ≤ q →
        bitmapGet s q = true
  | _ => True

theorem sub64_eq {a b : ℕ} (hle : b ≤ a) (hlt : a < 2 ^ 64) : sub64 a b = a - b := by
  simp only [sub64]
  omega

theorem setRange_freePages (s : Manager) (start n : ℕ) :
    (setRange s start n).freePages = s.freePages := by
  induction n generalizing s start with
  | zero => rfl
  | succ n ih => exact ih (bitmapSet s start true) (start + 1)

theorem pfreeLoop_freePages (s : Manager) (pages pg n : ℕ) :
    (pfreeLoop s pages pg n).freePages = s.freePages := by
  induction n generalizing s pg with
  | zero => rfl
  | succ n ih =>
    rw [pfreeLoop, ih, pfreePage]
    split_ifs <;> rfl

section Steps
variable {s : Manager} (hs : Sane s) (hexact : Exact s)
include hs hexact

theorem exact_setRange {start pages : ℕ} (hfree : FreeRun s start pages) :
    Exact { setRange s start pages with
      freePages := sub64 (setRange s start pages).freePages pages } := by
  have hcard := card_clearBits_mark hfree.1 hfree.2 fun q _ => bitmapGet_setRange s start pages q
  have hle := hexact.le
  have hlt := hs.total_lt
  have hold : s.freePages = (clearBits s.totalPages (bitmapGet s)).card := hexact
  change sub64 (setRange s start pages).freePages pages =
    (clearBits (setRange s start pages).totalPages (bitmapGet (setRange s start pages))).card
  rw [(setRange_shape s start pages).totalPages, setRange_freePages, sub64_eq] <;> omega

theorem exact_pfree {ptr pages : ℕ} (hin : s.InRange (.pfree ptr pages))
    (hkeep : s.Keeps (.pfree ptr pages)) : Exact (pfree s ptr pages) := by
  rw [pfree]
  by_cases hnone : ptr = 0 ∨ pages = 0
  · rwa [if_pos hnone]
  rw [if_neg hnone]
  dsimp only
  split_ifs with hout
  · exact hexact
  have hrange := (hin.resolve_left fun h => hnone (Or.inl h)).resolve_left fun h => hnone (Or.inr h)
  have hmark :=
    (hkeep.resolve_left fun h => hnone (Or.inl h)).resolve_left fun h => hnone (Or.inr h)
  generalize virtToPhys ptr / pmmPageSize = start at hrange hmark ⊢
  have hcard := card_clearBits_clear hrange (fun q h1 h2 => hmark q h2 h1)
    fun q hq => bitmapGet_pfreeLoop hs pages start pages hq
  have hle := hexact.le
  have hlt := hs.total_lt
  have hold : s.freePages = (clearBits s.totalPages (bitmapGet s)).card := hexact
  change ((pfreeLoop s pages start pages).freePages + pages) % 2 ^ 64 =
    (clearBits (pfreeLoop s pages start pages).totalPages
      (bitmapGet (pfreeLoop s pages start pages))).card
  rw [(pfreeLoop_shape s pages start pages).totalPages, pfreeLoop_freePages, hcard]
  omega

theorem exact_setRegionPage {pg : ℕ} (used : Bool) (hpg : pg < s.totalPages) :
    Exact (setRegionPage s pg used) := by
  have hle := hexact.le
  have hlt := hs.total_lt
  have hold : s.freePages = (clearBits s.totalPages (bitmapGet s)).card := hexact
  have hone : ∀ q, (q = pg) = (pg ≤ q ∧ q < pg + 1) := fun q => by
    rw [eq_iff_iff]
    omega
  have hbits := fun q => bitmapGet_setRegionPage s pg q used
  have hshape := (setRegionPage_shape s pg used).1.totalPages
  change (setRegionPage s pg used).freePages =
    (clearBits (setRegionPage s pg used).totalPages (bitmapGet (setRegionPage s pg used))).card
  by_cases hcur : bitmapGet s pg = used
  · rw [setRegionPage, if_neg (not_not_intro hcur)]
    exact hold
  simp only [hone] at hbits
  rw [hshape]
  cases used with
  | true =>
    have hclear : bitmapGet s pg = false := by simpa using hcur
    have hcard := card_clearBits_mark hpg
      (fun q h1 h2 => by rwa [show q = pg by omega]) fun q _ => hbits q
    have hnew : (setRegionPage s pg true).freePages = s.freePages - 1 := by
      have hpos : 0 < s.freePages := by omega
      rw [setRegionPage, if_pos hcur]
      exact congrArg Manager.freePages (if_pos hpos)
    omega
  | false =>
    have hmark : bitmapGet s pg = true := by simpa using hcur
    have hcard := card_clearBits_clear hpg
      (fun q h1 h2 => by rwa [show q = pg by omega]) fun q _ => hbits q
    have hnew : (setRegionPage s pg false).freePages = (s.freePages + 1) % 2 ^ 64 := by
      rw [setRegionPage, if_pos hcur]
      rfl
    omega

omit hs hexact in
theorem exact_setRegionLoop {s : Manager} (hs : Sane s) (hexact : Exact s) {pg n : ℕ} (used : Bool)
    (hend : pg + n ≤ s.totalPages) : Exact (setRegionLoop s pg used n) := by
  induction n generalizing s pg with
  | zero => exact hexact
  | succ n ih =>
    obtain ⟨hshape, htop⟩ := setRegionPage_shape s pg used
    refine ih (hs.of_shape hshape (htop ▸ hs.top_le))
      (exact_setRegionPage hs hexact used (by omega)) ?_
    rw [hshape.totalPages]
    omega

end Steps

structure Counted (s : Manager) : Prop where
  sane : Sane s
  exact : Exact s

theorem Counted.handedOut {s : Manager} (h : Counted s) {pages : ℕ} {r : ℕ × Manager}
    (hr : HandedOut s pages r) : Counted r.2 := by
  refine ⟨hr.sane h.sane, ?_⟩
  cases hr with
  | none => exact h.exact
  | run hfree => exact exact_setRange h.sane h.exact hfree

theorem Counted.request {s : Manager} (h : Counted s) {r : Request} (hin : s.InRange r)
    (hkeep : s.Keeps r) : ∃ t, s.request r = some t ∧ Counted t := by
  cases r with
  | pmalloc pages =>
    obtain ⟨r, hr, hout⟩ := pmalloc_spec h.sane hkeep.1 hkeep.2
    exact ⟨_, by rw [Manager.request, hr]; rfl, h.handedOut hout⟩
  | pmallocAligned pages alignment =>
    obtain ⟨r, hr, hout⟩ := pmallocAligned_spec h.sane hin.1 hin.2.1 hin.2.2
    exact ⟨_, by rw [Manager.request, hr]; rfl, h.handedOut hout⟩
  | pfree ptr pages =>
    exact ⟨_, rfl, (pfree_spec h.sane ptr pages).2.1, exact_pfree h.sane h.exact hin hkeep⟩
  | setRegion base size used =>
    have htotal := h.sane.total_lt
    have hend : base / pmmPageSize + ((base + size + pmmPageSize - 1) % 2 ^ 64 / pmmPageSize -
        base / pmmPageSize) ≤ s.totalPages := by
      simp only [Manager.InRange, pmmPageSize] at *
      omega
    obtain ⟨hshape, htop⟩ := setRegionLoop_shape s (base / pmmPageSize) used
      ((base + size + pmmPageSize - 1) % 2 ^ 64 / pmmPageSize - base / pmmPageSize)
    exact ⟨_, rfl, h.sane.of_shape hshape (htop.trans_le h.sane.top_le),
      exact_setRegionLoop h.sane h.exact used hend⟩

/-- The counter stays exact over every run of requests that neither take a cached frame
nor release a page that is free. -/
theorem counter_exact (s : Manager) (hs : Sane s) (hexact : Exact s) (requests : List Request)
    (hok : Allowed Manager.request (fun s r => s.InRange r ∧ s.Keeps r) s requests) :
    ∃ t, run Manager.request s requests = some t ∧ Exact t := by
  have hcounted : Counted s := ⟨hs, hexact⟩
  obtain ⟨t, hrun, ht⟩ := run_total (fun s r hs hr => Counted.request hs hr.1 hr.2) hok hcounted
  exact ⟨t, hrun, ht.exact⟩

instance (s : Manager) : ∀ r, Decidable (s.InRange r)
  | .pmalloc _ => inferInstanceAs (Decidable (_ < _))
  | .pmallocAligned _ _ => inferInstanceAs (Decidable (_ ∧ _ ∧ _))
  | .pfree _ _ => inferInstanceAs (Decidable (_ ∨ _ ∨ _))
  | .setRegion _ _ _ => inferInstanceAs (Decidable (_ ≤ _))

instance (s : Manager) : ∀ r, Decidable (s.Keeps r)
  | .pmalloc _ => inferInstanceAs (Decidable (_ ∧ _))
  | .pmallocAligned _ _ => inferInstanceAs (Decidable True)
  | .pfree _ _ => inferInstanceAs (Decidable (_ ∨ _ ∨ _))
  | .setRegion _ _ _ => inferInstanceAs (Decidable True)

def eightPages : Manager where
  mem := fun _ => 0
  bitmap := 0x1000
  bitmapPages := 1
  totalPages := 8
  freePages := 8
  totalMemory := 0x8000
  bitmapPhys := 0x1000
  framesStack := 0x2000
  stackTop := 0

theorem eightPages_sane : Sane eightPages := ⟨by decide, by decide, Or.inr (by decide)⟩

theorem counter_exact_eightPages :
    ∃ t, run Manager.request eightPages
        [.pmalloc 2, .pfree 0x1000 1, .setRegion 0x3000 0x1800 true] = some t ∧ Exact t :=
  counter_exact eightPages eightPages_sane (by decide +kernel) _ (by decide +kernel)

/-- Releasing a free page counts it twice, and handing out a cached frame takes a page
off whose bit stays clear. -/
theorem counter_drifts :
    Sane eightPages ∧ Exact eightPages ∧ eightPages.stackTop = 0 ∧
    (eightPages.InRange (.pfree 0x3000 1) ∧
      ¬ Exact (pfree eightPages 0x3000 1)) ∧
    (Allowed Manager.request Manager.InRange eightPages [.pmalloc 2, .pfree 0x1000 1, .pmalloc 1] ∧
      ∃ t, run Manager.request eightPages [.pmalloc 2, .pfree 0x1000 1, .pmalloc 1] = some t ∧
        ¬ Exact t) := by
  refine ⟨eightPages_sane, by decide +kernel, rfl, ⟨by decide +kernel, by decide +kernel⟩,
    by decide +kernel, ?_⟩
  have hrun : (run Manager.request eightPages [.pmalloc 2, .pfree 0x1000 1, .pmalloc 1]).map
      (fun t => decide (Exact t)) = some false := by decide +kernel
  obtain ⟨t, ht, hno⟩ := Option.map_eq_some_iff.mp hrun
  exact ⟨t, ht, of_decide_eq_false hno⟩

end XldKernel.Pmm
