import XldKernel.PmmInit
import XldKernel.GuardedRun

/-!
# Exclusive ownership of pages over runs of allocator calls

The world keeps, next to the manager, what its clients hold: the live
allocations exactly as handed out and the regions reserved with
`pmm_set_region(base, size, true)`. The single-page fast path of `pmalloc` hands
out a cached frame whose bit is clear, so ownership is exclusive along the runs
that never take it.
-/

namespace XldKernel.Pmm
open ByteMemory GuardedRun

structure PageRange where
  start : ℕ
  stop : ℕ

def PageRange.Has (r : PageRange) (p : ℕ) : Prop := r.start ≤ p ∧ p < r.stop

instance (r : PageRange) (p : ℕ) : Decidable (r.Has p) :=
  inferInstanceAs (Decidable (r.start ≤ p ∧ p < r.stop))

def PageRange.Apart (r t : PageRange) : Prop := ∀ p, r.Has p → ¬ t.Has p

theorem PageRange.Apart.symm {r t : PageRange} (h : r.Apart t) : t.Apart r :=
  fun p hp hr => h p hr hp

structure Allocation where
  addr : ℕ
  pages : ℕ
  deriving DecidableEq

def Allocation.range (a : Allocation) : PageRange :=
  ⟨virtToPhys a.addr / pmmPageSize, virtToPhys a.addr / pmmPageSize + a.pages⟩

def regionPages (base size : ℕ) : PageRange :=
  ⟨base / pmmPageSize, (base + size + pmmPageSize - 1) / pmmPageSize⟩

structure World where
  pmm : Manager
  live : List Allocation
  reserved : List PageRange

inductive Call where
  | pmalloc (pages : ℕ)
  | pmallocAligned (pages alignment : ℕ)
  | pfree (a : Allocation)
  | reserve (base size : ℕ)

def World.handOut (w : World) (pages : ℕ) : ℕ × Manager → World
  | (addr, s) =>
    if addr = 0 then { w with pmm := s }
    else { w with pmm := s, live := ⟨addr, pages⟩ :: w.live }

def World.call (w : World) : Call → Option World
  | .pmalloc pages => (pmalloc w.pmm pages).map (w.handOut pages)
  | .pmallocAligned pages alignment =>
    (pmallocAligned w.pmm pages alignment).map (w.handOut pages)
  | .pfree a => some { w with pmm := pfree w.pmm a.addr a.pages, live := w.live.erase a }
  | .reserve base size =>
    some { w with
      pmm := pmmSetRegion w.pmm base size true
      reserved := regionPages base size :: w.reserved }

/-- What callers promise: a release names a live allocation, a reserved region
is in range and overlaps no live allocation. -/
def World.Permitted (w : World) : Call → Prop
  | .pmalloc pages => pages < 2 ^ 64
  | .pmallocAligned pages alignment =>
    pages < 2 ^ 64 ∧ 0 < alignment ∧ alignment < 2 ^ 64 ∧ alignment % pmmPageSize = 0
  | .pfree a => a ∈ w.live
  | .reserve base size =>
    base + size ≤ w.pmm.totalPages * pmmPageSize ∧
      ∀ a ∈ w.live, (regionPages base size).Apart a.range

/-- The fast path is not taken and the `int` index of the search cannot overflow. -/
def World.AvoidsCache (w : World) : Call → Prop
  | .pmalloc pages =>
    (pages = 1 → w.pmm.stackTop = 0) ∧ min pages w.pmm.totalPages + 64 ≤ 2 ^ 31
  | _ => True

def World.start (s : Manager) : World := ⟨s, [], []⟩

structure World.Exclusive (w : World) : Prop where
  live_apart : w.live.Pairwise fun a b => a.range.Apart b.range
  reserved_apart : ∀ a ∈ w.live, ∀ r ∈ w.reserved, a.range.Apart r

structure World.Marked (w : World) : Prop where
  sane : Sane w.pmm
  exclusive : w.Exclusive
  live_used : ∀ a ∈ w.live, a.range.stop ≤ w.pmm.totalPages ∧
    ∀ p, a.range.Has p → bitmapGet w.pmm p = true
  reserved_used : ∀ r ∈ w.reserved, r.stop ≤ w.pmm.totalPages ∧
    ∀ p, r.Has p → bitmapGet w.pmm p = true

theorem World.start_marked {s : Manager} (h : Sane s) : (World.start s).Marked :=
  ⟨h, ⟨List.Pairwise.nil, by simp [World.start]⟩, by simp [World.start], by simp [World.start]⟩

theorem range_of_page {start pages : ℕ} (h : start ≤ 2 ^ 52) (hne : start * pmmPageSize < 2 ^ 64) :
    (Allocation.mk (physToVirt (start * pmmPageSize % 2 ^ 64)) pages).range =
      ⟨start, start + pages⟩ := by
  have hpage : virtToPhys (physToVirt (start * pmmPageSize % 2 ^ 64)) / pmmPageSize = start := by
    simp only [virtToPhys, physToVirt, kernelVirtOffset, pmmPageSize] at *
    omega
  simp only [Allocation.range, hpage]

theorem World.Marked.handOut {w : World} (h : w.Marked) {start pages : ℕ}
    (hfree : FreeRun w.pmm start pages) (s : Manager)
    (hshape : SameShape w.pmm s) (htop : s.stackTop = w.pmm.stackTop)
    (hbits : ∀ q, bitmapGet s q =
      if start ≤ q ∧ q < start + pages then true else bitmapGet w.pmm q) :
    (w.handOut pages (physToVirt (start * pmmPageSize % 2 ^ 64), s)).Marked := by
  have htotal := h.sane.total_lt
  have hrange : (Allocation.mk (physToVirt (start * pmmPageSize % 2 ^ 64)) pages).range =
      ⟨start, start + pages⟩ := by
    apply range_of_page
    · have := hfree.1
      omega
    · have := hfree.1
      simp only [pmmPageSize]
      omega
  have hsane : Sane s := h.sane.of_shape hshape (by rw [htop]; exact h.sane.top_le)
  have hkeep : ∀ r : PageRange, (r.stop ≤ w.pmm.totalPages ∧
      ∀ p, r.Has p → bitmapGet w.pmm p = true) →
      r.stop ≤ s.totalPages ∧ ∀ p, r.Has p → bitmapGet s p = true := by
    intro r hr
    refine ⟨by rw [hshape.totalPages]; exact hr.1, ?_⟩
    intro p hp
    rw [hbits p]
    split_ifs
    · rfl
    · exact hr.2 p hp
  -- a page of the run was free, a page somebody owns was used
  have hnew : ∀ r : PageRange, (∀ p, r.Has p → bitmapGet w.pmm p = true) →
      PageRange.Apart ⟨start, start + pages⟩ r := by
    intro r hr p hp hrp
    have h0 := hfree.2 p hp.1 hp.2
    rw [hr p hrp] at h0
    exact absurd h0 (by decide)
  simp only [World.handOut]
  split_ifs with hzero
  · exact ⟨hsane, ⟨h.exclusive.live_apart, h.exclusive.reserved_apart⟩,
      fun a ha => hkeep _ (h.live_used a ha), fun r hr => hkeep r (h.reserved_used r hr)⟩
  · refine ⟨hsane, ⟨?_, ?_⟩, ?_, fun r hr => hkeep r (h.reserved_used r hr)⟩
    · refine List.pairwise_cons.mpr ⟨?_, h.exclusive.live_apart⟩
      intro a ha
      rw [hrange]
      exact hnew _ (h.live_used a ha).2
    · intro a ha r hr
      rcases List.mem_cons.mp ha with rfl | ha
      · rw [hrange]
        exact hnew _ (h.reserved_used r hr).2
      · exact h.exclusive.reserved_apart a ha r hr
    · intro a ha
      rcases List.mem_cons.mp ha with rfl | ha
      · rw [hrange]
        refine ⟨by rw [hshape.totalPages]; exact hfree.1, ?_⟩
        intro p hp
        have hin : start ≤ p ∧ p < start + pages := hp
        rw [hbits p, if_pos hin]
      · exact hkeep _ (h.live_used a ha)

theorem World.Marked.handedOut {w : World} (h : w.Marked) {pages : ℕ} {r : ℕ × Manager}
    (hr : HandedOut w.pmm pages r) : (w.handOut pages r).Marked := by
  cases hr with
  | none => simpa only [World.handOut, if_true] using h
  | @run start hfree =>
    exact h.handOut hfree _ ((setRange_shape w.pmm start pages).trans ⟨rfl, rfl, rfl⟩)
      (setRange_stackTop w.pmm start pages) (bitmapGet_setRange w.pmm start pages)

theorem World.Marked.pmalloc {w : World} (h : w.Marked) {pages : ℕ}
    (hcache : pages = 1 → w.pmm.stackTop = 0)
    (hsmall : min pages w.pmm.totalPages + 64 ≤ 2 ^ 31) :
    ∃ t, w.call (.pmalloc pages) = some t ∧ t.Marked := by
  obtain ⟨r, hr, hout⟩ := pmalloc_spec h.sane hcache hsmall
  exact ⟨_, by rw [World.call, hr]; rfl, h.handedOut hout⟩

theorem World.Marked.pmallocAligned {w : World} (h : w.Marked) {pages alignment : ℕ}
    (hpages : pages < 2 ^ 64) (hpos : 0 < alignment) (hlt : alignment < 2 ^ 64) :
    ∃ t, w.call (.pmallocAligned pages alignment) = some t ∧ t.Marked := by
  obtain ⟨r, hr, hout⟩ := pmallocAligned_spec h.sane hpages hpos hlt
  exact ⟨_, by rw [World.call, hr]; rfl, h.handedOut hout⟩

theorem World.Marked.pfree {w : World} (h : w.Marked) {a : Allocation} (ha : a ∈ w.live) :
    ∃ t, w.call (.pfree a) = some t ∧ t.Marked := by
  obtain ⟨hshape, hsane, hbits⟩ := pfree_spec h.sane a.addr a.pages
  have hperm : w.live.Perm (a :: w.live.erase a) := List.perm_cons_erase ha
  have hpair := (hperm.pairwise_iff (fun hr => PageRange.Apart.symm hr)).mp h.exclusive.live_apart
  obtain ⟨hother, hrest⟩ := List.pairwise_cons.mp hpair
  have hsub : ∀ b ∈ w.live.erase a, b ∈ w.live := fun b hb => List.mem_of_mem_erase hb
  have hkeep : ∀ r : PageRange, a.range.Apart r → (r.stop ≤ w.pmm.totalPages ∧
      ∀ p, r.Has p → bitmapGet w.pmm p = true) →
      r.stop ≤ (Pmm.pfree w.pmm a.addr a.pages).totalPages ∧
        ∀ p, r.Has p → bitmapGet (Pmm.pfree w.pmm a.addr a.pages) p = true := by
    intro r hap hr
    refine ⟨by rw [hshape.totalPages]; exact hr.1, ?_⟩
    intro p hp
    have hlt : p < w.pmm.totalPages := lt_of_lt_of_le hp.2 hr.1
    rw [hbits p hlt (fun hin => hap p hin hp)]
    exact hr.2 p hp
  refine ⟨_, rfl, hsane, ⟨hrest, ?_⟩, ?_, ?_⟩
  · intro b hb r hr
    exact h.exclusive.reserved_apart b (hsub b hb) r hr
  · intro b hb
    exact hkeep _ (hother b hb) (h.live_used b (hsub b hb))
  · intro r hr
    exact hkeep r (h.exclusive.reserved_apart a ha r hr) (h.reserved_used r hr)

theorem World.Marked.reserve {w : World} (h : w.Marked) {base size : ℕ}
    (hin : base + size ≤ w.pmm.totalPages * pmmPageSize)
    (hap : ∀ a ∈ w.live, (regionPages base size).Apart a.range) :
    ∃ t, w.call (.reserve base size) = some t ∧ t.Marked := by
  have htotal := h.sane.total_lt
  have hstop : (base + size + pmmPageSize - 1) % 2 ^ 64 / pmmPageSize =
      (regionPages base size).stop := by
    simp only [regionPages, pmmPageSize] at *
    omega
  obtain ⟨hshape, htop⟩ := setRegionLoop_shape w.pmm (base / pmmPageSize) true
    ((regionPages base size).stop - base / pmmPageSize)
  have hbits := bitmapGet_setRegionLoop w.pmm (base / pmmPageSize) true
    ((regionPages base size).stop - base / pmmPageSize)
  simp only [World.call, pmmSetRegion, hstop]
  set s := setRegionLoop w.pmm (base / pmmPageSize) true
    ((regionPages base size).stop - base / pmmPageSize)
  have hset : ∀ p, bitmapGet w.pmm p = true ∨ (regionPages base size).Has p →
      bitmapGet s p = true := by
    intro p hp
    rw [hbits p]
    split_ifs with hr
    · rfl
    · refine hp.resolve_right (fun hin' => hr ?_)
      have h1 := hin'.1
      have h2 := hin'.2
      simp only [regionPages] at h1 h2 ⊢
      omega
  have hkeep : ∀ r : PageRange, (r.stop ≤ w.pmm.totalPages ∧
      ∀ p, r.Has p → bitmapGet w.pmm p = true) →
      r.stop ≤ s.totalPages ∧ ∀ p, r.Has p → bitmapGet s p = true :=
    fun r hr => ⟨by rw [hshape.totalPages]; exact hr.1, fun p hp => hset p (Or.inl (hr.2 p hp))⟩
  refine ⟨_, rfl, h.sane.of_shape hshape (by rw [htop]; exact h.sane.top_le),
    ⟨h.exclusive.live_apart, ?_⟩, fun a ha => hkeep _ (h.live_used a ha), ?_⟩
  · intro a ha r hr
    rcases List.mem_cons.mp hr with rfl | hr
    · exact (hap a ha).symm
    · exact h.exclusive.reserved_apart a ha r hr
  · intro r hr
    rcases List.mem_cons.mp hr with rfl | hr
    · refine ⟨?_, fun p hp => hset p (Or.inr hp)⟩
      rw [hshape.totalPages]
      simp only [regionPages, pmmPageSize] at *
      omega
    · exact hkeep r (h.reserved_used r hr)

theorem World.Marked.call {w : World} (h : w.Marked) {c : Call} (hc : w.Permitted c)
    (havoid : w.AvoidsCache c) : ∃ t, w.call c = some t ∧ t.Marked := by
  cases c with
  | pmalloc pages => exact h.pmalloc havoid.1 havoid.2
  | pmallocAligned pages alignment => exact h.pmallocAligned hc.1 hc.2.1 hc.2.2.1
  | pfree a => exact h.pfree hc
  | reserve base size => exact h.reserve hc.1 hc.2

/-- Along every run that never takes the cached frame, each call returns and
ownership is exclusive. -/
theorem ownership_exclusive {response : Option (List MemmapEntry)} {mem : Mem} {s : Manager}
    (hinit : pmmInit response mem = some s) (calls : List Call)
    (hok : Allowed World.call (fun w c => w.Permitted c ∧ w.AvoidsCache c) (World.start s) calls) :
    ∃ w, run World.call (World.start s) calls = some w ∧ w.Exclusive := by
  have hstart := World.start_marked (pmmInit_sane hinit).1
  obtain ⟨w, hw, hm⟩ := run_total (fun w c hw hc => hw.call hc.1 hc.2) hok hstart
  exact ⟨w, hw, hm.exclusive⟩

def smallMap : List MemmapEntry := [⟨0x200000, 0x10000, .usable⟩]

def smallBoot : Option Manager := pmmInit (some smallMap) (fun _ => 0)

def smallStart : World := World.start (smallBoot.get (by decide +kernel))

def reserveCalls : List Call :=
  [.pmalloc 2, .pfree ⟨0x202000, 2⟩, .reserve 0x203000 0x1000, .pmallocAligned 1 0x2000]

theorem ownership_exclusive_small :
    ∃ w, run World.call smallStart reserveCalls = some w ∧ w.Exclusive := by
  have hlive : (smallStart.call (.pmalloc 2)).map (·.live) = some [⟨0x202000, 2⟩] := by
    decide +kernel
  have hfreed : (run World.call smallStart (reserveCalls.take 2)).map
      (fun w => (w.live, w.pmm.totalPages)) = some ([], 528) := by decide +kernel
  refine @ownership_exclusive (some smallMap) (fun _ => 0) _ (Option.some_get _).symm reserveCalls
    ⟨⟨(by norm_num : 2 < 2 ^ 64), by omega, by omega⟩, fun t ht => ⟨⟨?_, trivial⟩, fun u hu =>
      ⟨⟨?_, trivial⟩, fun _ _ => ⟨⟨?_, trivial⟩, fun _ _ => trivial⟩⟩⟩⟩
  · have ht' : smallStart.call (.pmalloc 2) = some t := ht
    rw [ht'] at hlive
    simp only [Option.map_some, Option.some.injEq] at hlive
    simp [World.Permitted, hlive]
  · have hu' : run World.call smallStart (reserveCalls.take 2) = some u := by
      have ht' : smallStart.call (.pmalloc 2) = some t := ht
      simp [reserveCalls, run, ht', hu]
    rw [hu'] at hfreed
    simp only [Option.map_some, Option.some.injEq, Prod.mk.injEq] at hfreed
    simp [World.Permitted, hfreed.1, hfreed.2, pmmPageSize]
  · simp [World.Permitted, pmmPageSize]

def cacheCalls : List Call := [.pmalloc 1, .pfree ⟨0x202000, 1⟩, .pmalloc 1, .pmalloc 1]

/-- The frame freed and taken back through the cache is handed out again by the
bitmap search. -/
theorem cached_frame_shared :
    Allowed World.call World.Permitted smallStart cacheCalls ∧
      ∃ w, run World.call smallStart cacheCalls = some w ∧ ¬ w.Exclusive := by
  have hfirst : (smallStart.call (.pmalloc 1)).map (·.live) = some [⟨0x202000, 1⟩] := by
    decide +kernel
  have hlast : (run World.call smallStart cacheCalls).map (·.live) =
      some [⟨0x202000, 1⟩, ⟨0x202000, 1⟩] := by decide +kernel
  have hone : 1 < 2 ^ 64 := by norm_num
  refine ⟨⟨hone, fun t ht => ⟨?_, fun _ _ => ⟨hone, fun _ _ => ⟨hone, fun _ _ => trivial⟩⟩⟩⟩, ?_⟩
  · rw [ht] at hfirst
    simp only [Option.map_some, Option.some.injEq] at hfirst
    simp [World.Permitted, hfirst]
  · obtain ⟨w, hw, hlive⟩ := Option.map_eq_some_iff.mp hlast
    refine ⟨w, hw, ?_⟩
    intro hex
    have hapart := hex.live_apart
    rw [hlive, List.pairwise_cons] at hapart
    exact hapart.1 ⟨0x202000, 1⟩ (by simp) 514 (by decide) (by decide)

end XldKernel.Pmm
