import XldKernel.PmmBitmap

/-!
# Page allocation, release and region marking

`pmalloc`, `pmalloc_aligned`, `pfree` and `pmm_set_region` of
`kernel/src/pmm.c`. An allocation returns the address and the new state; the
outer `none` is a call that does not return or divides by zero. The lock and
the log messages have no effect on the state and are left out.
-/

namespace XldKernel.Pmm
open ByteMemory

def setRange (s : Manager) (start : ℕ) : ℕ → Manager
  | 0 => s
  | n + 1 => setRange (bitmapSet s start true) (start + 1) n

def stackPop (s : Manager) : ℕ × Manager :=
  if s.stackTop = 0 then (uint64Max, s)
  else (load s.mem (s.framesStack + 8 * (s.stackTop - 1)) 8,
    { s with stackTop := s.stackTop - 1 })

def pmallocRun (s : Manager) (pages : ℕ) : Option (ℕ × Manager) :=
  match findFreeRun s pages with
  | none => none
  | some startPage =>
    if startPage = uint64Max then some (0, s)
    else
      let t := setRange s startPage pages
      some (physToVirt (startPage * pmmPageSize % 2 ^ 64),
        { t with freePages := sub64 t.freePages pages })

def pmalloc (s : Manager) (pages : ℕ) : Option (ℕ × Manager) :=
  if pages = 0 then some (0, s)
  else if pages = 1 ∧ 0 < s.stackTop then
    let (phys, t) := stackPop s
    if phys ≠ uint64Max then
      some (physToVirt (phys * pmmPageSize % 2 ^ 64), { t with freePages := sub64 t.freePages 1 })
    else pmallocRun t pages
  else pmallocRun s pages

def rangeClear (s : Manager) (start : ℕ) : ℕ → Bool
  | 0 => true
  | n + 1 => if bitmapGet s start then false else rangeClear s (start + 1) n

def alignedScan (s : Manager) (pages alignPages : ℕ) : ℕ → ℕ → Option (Option ℕ)
  | 0, _ => none
  | fuel + 1, i =>
    if (i + pages) % 2 ^ 64 ≤ s.totalPages then
      if rangeClear s i pages then some (some i)
      -- the step of the `for` divides by `align_pages`
      else if alignPages = 0 then none
      else alignedScan s pages alignPages fuel ((i / alignPages + 1) * alignPages % 2 ^ 64)
    else some none

def pmallocAligned (s : Manager) (pages alignment : ℕ) : Option (ℕ × Manager) :=
  if pages = 0 then some (0, s)
  else if alignment % pmmPageSize ≠ 0 then some (0, s)
  else
    match alignedScan s pages (alignment / pmmPageSize) (s.totalPages + 1) 0 with
    | none => none
    | some none => some (0, s)
    | some (some i) =>
      let t := setRange s i pages
      some (physToVirt (i * pmmPageSize % 2 ^ 64), { t with freePages := sub64 t.freePages pages })

def pfreePage (s : Manager) (pages pg : ℕ) : Manager :=
  let t := bitmapSet s pg false
  if pages = 1 ∧ t.stackTop < framesStackEntries then
    { t with
      mem := store t.mem (t.framesStack + 8 * t.stackTop) 8 pg
      stackTop := t.stackTop + 1 }
  else t

def pfreeLoop (s : Manager) (pages pg : ℕ) : ℕ → Manager
  | 0 => s
  | n + 1 => pfreeLoop (pfreePage s pages pg) pages (pg + 1) n

def pfree (s : Manager) (ptr pages : ℕ) : Manager :=
  if ptr = 0 ∨ pages = 0 then s
  else
    let start := virtToPhys ptr / pmmPageSize
    if s.totalPages ≤ start then s
    else
      let t := pfreeLoop s pages start pages
      { t with freePages := (t.freePages + pages) % 2 ^ 64 }

def setRegionPage (s : Manager) (pg : ℕ) (used : Bool) : Manager :=
  if bitmapGet s pg ≠ used then
    let t := bitmapSet s pg used
    if used then
      if 0 < t.freePages then { t with freePages := t.freePages - 1 } else t
    else { t with freePages := (t.freePages + 1) % 2 ^ 64 }
  else s

def setRegionLoop (s : Manager) (pg : ℕ) (used : Bool) : ℕ → Manager
  | 0 => s
  | n + 1 => setRegionLoop (setRegionPage s pg used) (pg + 1) used n

def pmmSetRegion (s : Manager) (base size : ℕ) (used : Bool) : Manager :=
  let start := base / pmmPageSize
  let stop := (base + size + pmmPageSize - 1) % 2 ^ 64 / pmmPageSize
  setRegionLoop s start used (stop - start)

structure SameShape (s t : Manager) : Prop where
  bitmap : t.bitmap = s.bitmap
  totalPages : t.totalPages = s.totalPages
  framesStack : t.framesStack = s.framesStack

theorem SameShape.refl (s : Manager) : SameShape s s := ⟨rfl, rfl, rfl⟩

theorem SameShape.trans {s t u : Manager} (h : SameShape s t) (k : SameShape t u) :
    SameShape s u :=
  ⟨k.bitmap.trans h.bitmap, k.totalPages.trans h.totalPages, k.framesStack.trans h.framesStack⟩

structure Sane (s : Manager) : Prop where
  total_lt : s.totalPages < 2 ^ 52
  top_le : s.stackTop ≤ framesStackEntries
  apart : s.framesStack + 8 * framesStackEntries ≤ s.bitmap ∨
    s.bitmap + (s.totalPages + 7) / 8 ≤ s.framesStack

theorem Sane.of_shape {s t : Manager} (h : Sane s) (hst : SameShape s t)
    (htop : t.stackTop ≤ framesStackEntries) : Sane t := by
  refine ⟨by rw [hst.totalPages]; exact h.total_lt, htop, ?_⟩
  rw [hst.bitmap, hst.totalPages, hst.framesStack]
  exact h.apart

theorem setRange_only (s : Manager) (start n : ℕ) :
    setRange s start n = { s with mem := (setRange s start n).mem } ∧
      ∀ a < s.bitmap, (setRange s start n).mem a = s.mem a := by
  induction n generalizing s start with
  | zero => exact ⟨rfl, fun _ _ => rfl⟩
  | succ n ih =>
    obtain ⟨hrest, hmem⟩ := ih (bitmapSet s start true) (start + 1)
    rw [setRange]
    refine ⟨hrest, fun a ha => (hmem a ha).trans ?_⟩
    exact Function.update_of_ne (by omega) _ _

theorem setRange_shape (s : Manager) (start n : ℕ) : SameShape s (setRange s start n) := by
  rw [(setRange_only s start n).1]
  exact ⟨rfl, rfl, rfl⟩

theorem setRange_stackTop (s : Manager) (start n : ℕ) :
    (setRange s start n).stackTop = s.stackTop := by
  rw [(setRange_only s start n).1]

theorem bitmapGet_setRange (s : Manager) (start n q : ℕ) :
    bitmapGet (setRange s start n) q =
      if start ≤ q ∧ q < start + n then true else bitmapGet s q := by
  induction n generalizing s start with
  | zero =>
    have hq : ¬ (start ≤ q ∧ q < start + 0) := by omega
    simp only [setRange, hq, if_false]
  | succ n ih =>
    rw [setRange, ih, bitmapGet_bitmapSet]
    by_cases hq : q = start
    · simp [hq]
    · have hiff : (start + 1 ≤ q ∧ q < start + 1 + n) ↔ (start ≤ q ∧ q < start + (n + 1)) := by
        omega
      simp only [hq, if_false, hiff]

theorem rangeClear_iff (s : Manager) (start n : ℕ) :
    rangeClear s start n = true ↔ ∀ p, start ≤ p → p < start + n → bitmapGet s p = false := by
  induction n generalizing start with
  | zero =>
    refine ⟨fun _ p hp hlt => ?_, fun _ => rfl⟩
    omega
  | succ n ih =>
    rw [rangeClear]
    by_cases hbit : bitmapGet s start = true
    · rw [if_pos hbit]
      refine ⟨fun h => absurd h (by simp), fun h => ?_⟩
      have hclear := h start le_rfl (by omega)
      rw [hbit] at hclear
      exact absurd hclear (by simp)
    · rw [if_neg hbit, ih]
      refine ⟨fun h p hp hlt => ?_, fun h p hp hlt => h p (by omega) (by omega)⟩
      rcases Nat.eq_or_lt_of_le hp with rfl | hp
      · simpa using hbit
      · exact h p hp (by omega)

def AlignedRun (s : Manager) (pages alignPages i : ℕ) : Prop :=
  alignPages ∣ i ∧ FreeRun s i pages

instance (s : Manager) (pages alignPages i : ℕ) : Decidable (AlignedRun s pages alignPages i) :=
  inferInstanceAs (Decidable (_ ∧ _))

theorem next_multiple {a i j : ℕ} (ha : 0 < a) (hi : a ∣ i) (hj : a ∣ j) (hij : i < j) :
    (i / a + 1) * a = i + a ∧ i + a ≤ j := by
  obtain ⟨u, rfl⟩ := hi
  obtain ⟨v, rfl⟩ := hj
  have huv : u + 1 ≤ v := Nat.lt_of_mul_lt_mul_left hij
  have hle : a * (u + 1) ≤ a * v := Nat.mul_le_mul_left a huv
  rw [Nat.mul_div_cancel_left u ha]
  rw [Nat.mul_add, Nat.mul_one] at hle
  exact ⟨by ring, hle⟩

/-- The aligned scan returns the least aligned start of a free run, if there is one. -/
theorem alignedScan_spec (s : Manager) {pages alignPages : ℕ} (htotal : s.totalPages < 2 ^ 52)
    (hpages : 0 < pages ∧ pages < 2 ^ 64) (halign : 0 < alignPages ∧ alignPages ≤ 2 ^ 52)
    (fuel i : ℕ) (hfuel : s.totalPages < fuel + i)
    (hi : i = 0 ∨ (pages ≤ s.totalPages ∧ i ≤ 2 ^ 53)) (hfuel0 : 0 < fuel)
    (hmul : alignPages ∣ i) (hbefore : ∀ j < i, ¬ AlignedRun s pages alignPages j) :
    ∃ r, alignedScan s pages alignPages fuel i = some r ∧
      (∀ j, r = some j → IsLeast {j | AlignedRun s pages alignPages j} j) ∧
      (r = none → ∀ j, ¬ AlignedRun s pages alignPages j) := by
  induction fuel generalizing i with
  | zero => omega
  | succ fuel ih =>
    rw [alignedScan]
    by_cases hle : (i + pages) % 2 ^ 64 ≤ s.totalPages
    swap
    · rw [if_neg hle]
      refine ⟨none, rfl, by simp, fun _ j hj => ?_⟩
      by_cases hji : j < i
      · exact hbefore j hji hj
      · have hend := hj.2.1
        omega
    rw [if_pos hle]
    by_cases hclear : rangeClear s i pages = true
    · rw [if_pos hclear]
      refine ⟨some i, rfl, ?_, by simp⟩
      intro j hj
      cases hj
      exact ⟨⟨hmul, by omega, (rangeClear_iff s i pages).mp hclear⟩,
        fun j hj => not_lt.mp fun hlt => hbefore j hlt hj⟩
    · obtain ⟨hnext, -⟩ := next_multiple halign.1 hmul (hmul.add (dvd_refl alignPages)) (by omega)
      have hfit : pages ≤ s.totalPages ∧ i + pages ≤ s.totalPages := by omega
      rw [if_neg hclear, if_neg (by omega), hnext, Nat.mod_eq_of_lt (by omega)]
      refine ih _ (by omega) (Or.inr ⟨hfit.1, by omega⟩) (by omega)
        (hmul.add (dvd_refl alignPages)) fun j hj hrun => ?_
      rcases Nat.lt_trichotomy j i with hlt | rfl | hgt
      · exact hbefore j hlt hrun
      · exact hclear ((rangeClear_iff s j pages).mpr hrun.2.2)
      · have hnot := (next_multiple halign.1 hmul hrun.1 hgt).2
        omega

theorem alignedScan_start (s : Manager) {pages alignPages : ℕ} (htotal : s.totalPages < 2 ^ 52)
    (hpages : 0 < pages ∧ pages < 2 ^ 64) (halign : 0 < alignPages ∧ alignPages ≤ 2 ^ 52) :
    ∃ r, alignedScan s pages alignPages (s.totalPages + 1) 0 = some r ∧
      (∀ j, r = some j → IsLeast {j | AlignedRun s pages alignPages j} j) ∧
      (r = none → ∀ j, ¬ AlignedRun s pages alignPages j) :=
  alignedScan_spec s htotal hpages halign _ 0 (by omega) (Or.inl rfl) (by omega)
    (dvd_zero alignPages) fun j hj => by omega

/-- What an allocation returns: nothing, or a run of free pages that it has marked. -/
inductive HandedOut (s : Manager) (pages : ℕ) : ℕ × Manager → Prop
  | none : HandedOut s pages (0, s)
  | run {start : ℕ} (hfree : FreeRun s start pages) :
      HandedOut s pages (physToVirt (start * pmmPageSize % 2 ^ 64),
        { setRange s start pages with freePages := sub64 (setRange s start pages).freePages pages })

theorem pmalloc_spec {s : Manager} (hs : Sane s) {pages : ℕ} (hcache : pages = 1 → s.stackTop = 0)
    (hsmall : min pages s.totalPages + 64 ≤ 2 ^ 31) :
    ∃ r, pmalloc s pages = some r ∧ HandedOut s pages r := by
  rw [pmalloc]
  by_cases h0 : pages = 0
  · exact ⟨_, if_pos h0, .none⟩
  · have hslow : ¬ (pages = 1 ∧ 0 < s.stackTop) := by
      rintro ⟨h1, htop⟩
      have := hcache h1
      omega
    obtain ⟨r, hr, hfit⟩ := findFreeRun_exact s hs.total_lt (by omega) hsmall
    rw [if_neg h0, if_neg hslow]
    simp only [pmallocRun, hr]
    split_ifs with hmax
    · exact ⟨_, rfl, .none⟩
    · exact ⟨_, rfl, .run (hfit.resolve_left fun h => hmax h.1).1⟩

theorem pmallocAligned_cases (s : Manager) {pages alignment : ℕ} (htotal : s.totalPages < 2 ^ 52)
    (hpages : 0 < pages ∧ pages < 2 ^ 64) (halign : 0 < alignment ∧ alignment < 2 ^ 64)
    (hmul : alignment % pmmPageSize = 0) :
    (pmallocAligned s pages alignment = some (0, s) ∧
      ∀ i, ¬ AlignedRun s pages (alignment / pmmPageSize) i) ∨
    ∃ i, IsLeast {i | AlignedRun s pages (alignment / pmmPageSize) i} i ∧
      pmallocAligned s pages alignment = some (physToVirt (i * pmmPageSize % 2 ^ 64),
        { setRange s i pages with freePages := sub64 (setRange s i pages).freePages pages }) := by
  have ha : 0 < alignment / pmmPageSize ∧ alignment / pmmPageSize ≤ 2 ^ 52 := by
    simp only [pmmPageSize] at *
    omega
  obtain ⟨r, hr, hleast, hnone⟩ := alignedScan_start s htotal hpages ha
  rw [pmallocAligned, if_neg hpages.1.ne', if_neg (not_not.mpr hmul), hr]
  cases r with
  | none => exact Or.inl ⟨rfl, hnone rfl⟩
  | some i => exact Or.inr ⟨i, hleast i rfl, rfl⟩

theorem pmallocAligned_spec {s : Manager} (hs : Sane s) {pages alignment : ℕ}
    (hpages : pages < 2 ^ 64) (hpos : 0 < alignment) (hlt : alignment < 2 ^ 64) :
    ∃ r, pmallocAligned s pages alignment = some r ∧ HandedOut s pages r := by
  by_cases h0 : pages = 0
  · exact ⟨_, by rw [pmallocAligned, if_pos h0], .none⟩
  by_cases halign : alignment % pmmPageSize ≠ 0
  · exact ⟨_, by rw [pmallocAligned, if_neg h0, if_pos halign], .none⟩
  rcases pmallocAligned_cases s hs.total_lt ⟨by omega, hpages⟩ ⟨hpos, hlt⟩ (not_not.mp halign) with
    ⟨hnull, -⟩ | ⟨i, hleast, hsome⟩
  · exact ⟨_, hnull, .none⟩
  · exact ⟨_, hsome, .run hleast.1.2⟩

structure TakenFrom (s t : Manager) (start n : ℕ) : Prop where
  bits : ∀ q, bitmapGet t q = if start ≤ q ∧ q < start + n then true else bitmapGet s q
  freePages : t.freePages = sub64 s.freePages n
  below : ∀ a < s.bitmap, t.mem a = s.mem a
  rest : t = { s with mem := t.mem, freePages := t.freePages }

theorem setRange_takenFrom (s : Manager) (start n : ℕ) :
    TakenFrom s { setRange s start n with freePages := sub64 (setRange s start n).freePages n }
      start n := by
  obtain ⟨hrest, hbelow⟩ := setRange_only s start n
  refine ⟨bitmapGet_setRange s start n, ?_, hbelow, ?_⟩
  · rw [hrest]
  · rw [hrest]

/-- An aligned allocation takes the least aligned free run, and fails without one. -/
theorem aligned_allocation (s : Manager) (htotal : s.totalPages < 2 ^ 52)
    (hzero : bitmapGet s 0 = true) (pages alignment : ℕ) (hpages : 1 ≤ pages)
    (hpages64 : pages < 2 ^ 64) (hpos : 0 < alignment) (hmul : pmmPageSize ∣ alignment)
    (halign64 : alignment < 2 ^ 64) :
    (∀ i, IsLeast {i | AlignedRun s pages (alignment / pmmPageSize) i} i →
      ∃ t, pmallocAligned s pages alignment = some (pmmPageSize * i, t) ∧ pmmPageSize * i ≠ 0 ∧
        TakenFrom s t i pages) ∧
    (pmallocAligned s pages alignment = some (0, s) ↔
      ∀ i, ¬ AlignedRun s pages (alignment / pmmPageSize) i) := by
  have haddr : ∀ i, FreeRun s i pages →
      physToVirt (i * pmmPageSize % 2 ^ 64) = pmmPageSize * i ∧ pmmPageSize * i ≠ 0 := by
    intro i hi
    have hend := hi.1
    have hne : i ≠ 0 := by
      -- page 0 is used
      rintro rfl
      have hclear := hi.2 0 le_rfl (by omega)
      rw [hzero] at hclear
      exact absurd hclear (by simp)
    simp only [physToVirt, kernelVirtOffset, pmmPageSize]
    omega
  rcases pmallocAligned_cases s htotal ⟨hpages, hpages64⟩ ⟨hpos, halign64⟩
    (Nat.mod_eq_zero_of_dvd hmul) with ⟨hnull, hnone⟩ | ⟨j, hleast, hsome⟩
  · exact ⟨fun i hi => absurd hi.1 (hnone i), fun _ => hnone, fun _ => hnull⟩
  · obtain ⟨hj, hne⟩ := haddr j hleast.1.2
    rw [hj] at hsome
    refine ⟨fun i hi => ?_, fun hnull => ?_, fun hnone => absurd hleast.1 (hnone j)⟩
    · obtain rfl := hleast.unique hi
      exact ⟨_, hsome, hne, setRange_takenFrom s j pages⟩
    · have h0 := congrArg Prod.fst (Option.some_inj.mp (hsome.symm.trans hnull))
      exact absurd h0 hne

theorem aligned_allocation_tenPages :
    bitmapGet tenPages 0 = true ∧
    (∃ t, pmallocAligned tenPages 2 12288 = some (pmmPageSize * 6, t) ∧ pmmPageSize * 6 ≠ 0 ∧
      TakenFrom tenPages t 6 2) ∧
    pmallocAligned tenPages 6 4096 = some (0, tenPages) := by
  have hleast : IsLeast {i | AlignedRun tenPages 2 (12288 / pmmPageSize) i} 6 := by
    refine ⟨by decide, fun i hi => not_lt.mp fun hlt => ?_⟩
    have hbelow : ∀ i < 6, ¬ AlignedRun tenPages 2 (12288 / pmmPageSize) i := by decide
    exact hbelow i hlt hi
  have hnone : ∀ i, ¬ AlignedRun tenPages 6 (4096 / pmmPageSize) i := by
    intro i hi
    have hend : i + 6 ≤ 10 := hi.2.1
    have hbelow : ∀ i < 5, ¬ AlignedRun tenPages 6 (4096 / pmmPageSize) i := by decide
    exact hbelow i (by omega) hi
  have htotal : tenPages.totalPages < 2 ^ 52 := by decide
  have hzero : bitmapGet tenPages 0 = true := by decide
  exact ⟨hzero, (aligned_allocation tenPages htotal hzero 2 12288 (by decide) (by decide)
      (by decide) (by decide) (by decide)).1 6 hleast,
    (aligned_allocation tenPages htotal hzero 6 4096 (by decide) (by decide) (by decide)
      (by decide) (by decide)).2.mpr hnone⟩

theorem HandedOut.sane {s : Manager} (hs : Sane s) {pages : ℕ} {r : ℕ × Manager}
    (h : HandedOut s pages r) : Sane r.2 := by
  cases h with
  | none => exact hs
  | @run start _ =>
    refine hs.of_shape ((setRange_shape s start pages).trans ⟨rfl, rfl, rfl⟩) ?_
    exact (setRange_stackTop s start pages).trans_le hs.top_le

theorem pfreePage_shape (s : Manager) (pages pg : ℕ) : SameShape s (pfreePage s pages pg) := by
  simp only [pfreePage]
  split_ifs <;> exact ⟨rfl, rfl, rfl⟩

theorem pfreePage_sane {s : Manager} (h : Sane s) (pages pg : ℕ) : Sane (pfreePage s pages pg) := by
  refine h.of_shape (pfreePage_shape s pages pg) ?_
  have htop := h.top_le
  simp only [pfreePage]
  split_ifs with hpush
  · exact hpush.2
  · exact htop

theorem bitmapGet_pfreePage {s : Manager} (h : Sane s) (pages pg : ℕ) {q : ℕ}
    (hq : q < s.totalPages) :
    bitmapGet (pfreePage s pages pg) q = if q = pg then false else bitmapGet s q := by
  rw [← bitmapGet_bitmapSet]
  simp only [pfreePage]
  split_ifs with hpush
  · -- the pushed frame is written outside the bitmap bytes
    have happart := h.apart
    have htop := hpush.2
    simp only [bitmapSet_stackTop] at htop
    simp only [bitmapGet, bitmapSet_framesStack, bitmapSet_bitmap, bitmapSet_stackTop]
    rw [store_apart]
    omega
  · rfl

theorem pfreeLoop_shape (s : Manager) (pages pg n : ℕ) : SameShape s (pfreeLoop s pages pg n) := by
  induction n generalizing s pg with
  | zero => exact SameShape.refl s
  | succ n ih => exact (pfreePage_shape s pages pg).trans (ih _ _)

theorem pfreeLoop_sane {s : Manager} (h : Sane s) (pages pg n : ℕ) :
    Sane (pfreeLoop s pages pg n) := by
  induction n generalizing s pg with
  | zero => exact h
  | succ n ih => exact ih (pfreePage_sane h pages pg) _

theorem bitmapGet_pfreeLoop {s : Manager} (h : Sane s) (pages pg n : ℕ) {q : ℕ}
    (hq : q < s.totalPages) :
    bitmapGet (pfreeLoop s pages pg n) q =
      if pg ≤ q ∧ q < pg + n then false else bitmapGet s q := by
  induction n generalizing s pg with
  | zero =>
    have hq0 : ¬ (pg ≤ q ∧ q < pg + 0) := by omega
    simp only [pfreeLoop, hq0, if_false]
  | succ n ih =>
    have hq' : q < (pfreePage s pages pg).totalPages := by
      rwa [(pfreePage_shape s pages pg).totalPages]
    rw [pfreeLoop, ih (pfreePage_sane h pages pg) _ hq', bitmapGet_pfreePage h pages pg hq]
    by_cases hqp : q = pg
    · simp [hqp]
    · have hiff : (pg + 1 ≤ q ∧ q < pg + 1 + n) ↔ (pg ≤ q ∧ q < pg + (n + 1)) := by omega
      simp only [hqp, if_false, hiff]

theorem pfree_spec {s : Manager} (h : Sane s) (ptr pages : ℕ) :
    SameShape s (pfree s ptr pages) ∧ Sane (pfree s ptr pages) ∧
      ∀ q < s.totalPages,
        ¬ (virtToPhys ptr / pmmPageSize ≤ q ∧ q < virtToPhys ptr / pmmPageSize + pages) →
        bitmapGet (pfree s ptr pages) q = bitmapGet s q := by
  simp only [pfree]
  split_ifs with h0 hout
  · exact ⟨SameShape.refl s, h, fun _ _ _ => rfl⟩
  · exact ⟨SameShape.refl s, h, fun _ _ _ => rfl⟩
  · set start := virtToPhys ptr / pmmPageSize with hstart
    have hshape := pfreeLoop_shape s pages start pages
    have hsane := pfreeLoop_sane h pages start pages
    refine ⟨hshape.trans ⟨rfl, rfl, rfl⟩, hsane.of_shape ⟨rfl, rfl, rfl⟩ hsane.top_le, ?_⟩
    intro q hq hout
    have hbits := bitmapGet_pfreeLoop h pages start pages hq
    rw [if_neg (show ¬ (start ≤ q ∧ q < start + pages) from hout)] at hbits
    exact hbits

theorem setRegionPage_shape (s : Manager) (pg : ℕ) (used : Bool) :
    SameShape s (setRegionPage s pg used) ∧ (setRegionPage s pg used).stackTop = s.stackTop := by
  simp only [setRegionPage]
  split_ifs <;> exact ⟨⟨rfl, rfl, rfl⟩, rfl⟩

theorem bitmapGet_setRegionPage (s : Manager) (pg q : ℕ) (used : Bool) :
    bitmapGet (setRegionPage s pg used) q = if q = pg then used else bitmapGet s q := by
  rw [← bitmapGet_bitmapSet]
  simp only [setRegionPage]
  split_ifs with hcur hused hfree
  · rfl
  · rfl
  · rfl
  · rw [bitmapGet_bitmapSet]
    split_ifs with hq
    · subst hq
      simpa using hcur
    · rfl

theorem setRegionLoop_shape (s : Manager) (pg : ℕ) (used : Bool) (n : ℕ) :
    SameShape s (setRegionLoop s pg used n) ∧
      (setRegionLoop s pg used n).stackTop = s.stackTop := by
  induction n generalizing s pg with
  | zero => exact ⟨SameShape.refl s, rfl⟩
  | succ n ih =>
    have h0 := setRegionPage_shape s pg used
    have h1 := ih (setRegionPage s pg used) (pg + 1)
    exact ⟨h0.1.trans h1.1, h1.2.trans h0.2⟩

theorem bitmapGet_setRegionLoop (s : Manager) (pg : ℕ) (used : Bool) (n q : ℕ) :
    bitmapGet (setRegionLoop s pg used n) q =
      if pg ≤ q ∧ q < pg + n then used else bitmapGet s q := by
  induction n generalizing s pg with
  | zero =>
    have hq0 : ¬ (pg ≤ q ∧ q < pg + 0) := by omega
    simp only [setRegionLoop, hq0, if_false]
  | succ n ih =>
    rw [setRegionLoop, ih, bitmapGet_setRegionPage]
    by_cases hqp : q = pg
    · simp [hqp]
    · have hiff : (pg + 1 ≤ q ∧ q < pg + 1 + n) ↔ (pg ≤ q ∧ q < pg + (n + 1)) := by omega
      simp only [hqp, if_false, hiff]

end XldKernel.Pmm
