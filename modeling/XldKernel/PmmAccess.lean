import XldKernel.PmmCounter
import XldKernel.PmmOwnership

/-!
# The page indices and divisors of the page allocator

`pfree`, `pmalloc_aligned` and `pmm_set_region` of `kernel/src/pmm.c`, read as the
list of the calls of `bitmap_get` and `bitmap_set` that they make and of the divisions
they execute, in program order. Whether a loop goes on is decided as in the functions
themselves; `changed_page_accessed` says that no bit changes without an access.
-/

namespace XldKernel.Pmm
open ByteMemory GuardedRun

inductive Access where
  | get (page : ℕ)
  | set (page : ℕ)
  | div (divisor : ℕ)
  deriving DecidableEq

def Access.Safe (total : ℕ) : Access → Prop
  | .get page => page < total
  | .set page => page < total
  | .div divisor => divisor ≠ 0

instance (total : ℕ) : ∀ a : Access, Decidable (a.Safe total)
  | .get _ => inferInstanceAs (Decidable (_ < _))
  | .set _ => inferInstanceAs (Decidable (_ < _))
  | .div _ => inferInstanceAs (Decidable (_ ≠ _))

inductive Operation where
  | pfree (ptr pages : ℕ)
  | pmallocAligned (pages alignment : ℕ)
  | pmmSetRegion (base size : ℕ) (used : Bool)

def Operation.apply (s : Manager) : Operation → Option Manager
  | .pfree ptr pages => s.request (.pfree ptr pages)
  | .pmallocAligned pages alignment => s.request (.pmallocAligned pages alignment)
  | .pmmSetRegion base size used => s.request (.setRegion base size used)

def pfreeAccesses (start pages : ℕ) : List Access :=
  (List.range pages).flatMap fun i =>
    [.get ((start + i) % 2 ^ 64), .set ((start + i) % 2 ^ 64)]

def rangeClearAccesses (s : Manager) (start : ℕ) : ℕ → List Access
  | 0 => []
  | n + 1 =>
    .get start :: if bitmapGet s start then [] else rangeClearAccesses s (start + 1) n

def alignedScanAccesses (s : Manager) (pages alignPages : ℕ) : ℕ → ℕ → List Access
  | 0, _ => []
  | fuel + 1, i =>
    if (i + pages) % 2 ^ 64 ≤ s.totalPages then
      rangeClearAccesses s i pages ++
        if rangeClear s i pages then (List.range' i pages).map .set
        else .div alignPages ::
          if alignPages = 0 then []
          else alignedScanAccesses s pages alignPages fuel
            ((i / alignPages + 1) * alignPages % 2 ^ 64)
    else []

def setRegionAccesses (s : Manager) (pg : ℕ) (used : Bool) : ℕ → List Access
  | 0 => []
  | n + 1 =>
    .get pg :: (if bitmapGet s pg ≠ used then [.set pg] else []) ++
      setRegionAccesses (setRegionPage s pg used) (pg + 1) used n

def regionStop (base size : ℕ) : ℕ := (base + size + pmmPageSize - 1) % 2 ^ 64 / pmmPageSize

def Operation.accesses (s : Manager) : Operation → List Access
  | .pfree ptr pages =>
    if ptr = 0 ∨ pages = 0 then []
    else
      let start := virtToPhys ptr / pmmPageSize
      .div pmmPageSize :: if s.totalPages ≤ start then [] else pfreeAccesses start pages
  | .pmallocAligned pages alignment =>
    if pages = 0 then []
    else
      .div pmmPageSize ::
        if alignment % pmmPageSize ≠ 0 then []
        else .div pmmPageSize ::
          alignedScanAccesses s pages (alignment / pmmPageSize) (s.totalPages + 1) 0
  | .pmmSetRegion base size used =>
    let start := base / pmmPageSize
    .div pmmPageSize :: .div pmmPageSize ::
      setRegionAccesses s start used (regionStop base size - start)

def Operation.Passes (s : Manager) : Operation → Prop
  | .pfree ptr pages =>
    ptr < 2 ^ 64 ∧ pages < 2 ^ 64 ∧ ptr ≠ 0 ∧ 0 < pages ∧ virtToPhys ptr / pmmPageSize <
      s.totalPages
  | .pmallocAligned pages alignment =>
    pages < 2 ^ 64 ∧ alignment < 2 ^ 64 ∧ 0 < pages ∧ alignment % pmmPageSize = 0
  | .pmmSetRegion base size _ => base < 2 ^ 64 ∧ size < 2 ^ 64

/-- The released range and the region end inside the bitmap; the alignment is not zero, or
the first candidate already decides the search. -/
def Operation.Within (s : Manager) : Operation → Prop
  | .pfree ptr pages => virtToPhys ptr / pmmPageSize + pages ≤ s.totalPages
  | .pmallocAligned pages alignment => alignment ≠ 0 ∨ s.totalPages < pages ∨ FreeRun s 0 pages
  | .pmmSetRegion base size _ =>
    regionStop base size ≤ base / pmmPageSize ∨ regionStop base size ≤ s.totalPages

def AllSafe (total : ℕ) (as : List Access) : Prop := ∀ a ∈ as, a.Safe total

section Safe
variable {total : ℕ}

@[simp] theorem allSafe_nil : AllSafe total [] := fun _ h => absurd h List.not_mem_nil

@[simp] theorem allSafe_cons {a : Access} {as : List Access} :
    AllSafe total (a :: as) ↔ a.Safe total ∧ AllSafe total as := List.forall_mem_cons

@[simp] theorem allSafe_append {as bs : List Access} :
    AllSafe total (as ++ bs) ↔ AllSafe total as ∧ AllSafe total bs := List.forall_mem_append

@[simp] theorem safe_get {page : ℕ} : (Access.get page).Safe total ↔ page < total := Iff.rfl

@[simp] theorem safe_set {page : ℕ} : (Access.set page).Safe total ↔ page < total := Iff.rfl

@[simp] theorem safe_div {divisor : ℕ} : (Access.div divisor).Safe total ↔ divisor ≠ 0 := Iff.rfl

theorem safe_pageSize : (Access.div pmmPageSize).Safe total := by
  rw [safe_div, pmmPageSize]
  decide

end Safe

theorem pfreeAccesses_safe {total start pages : ℕ} (htotal : total < 2 ^ 52)
    (hstart : start < total) :
    AllSafe total (pfreeAccesses start pages) ↔ start + pages ≤ total := by
  constructor
  · intro hsafe
    by_contra hout
    -- the first page behind the bitmap is in the range
    have hmem : Access.get ((start + (total - start)) % 2 ^ 64) ∈ pfreeAccesses start pages := by
      refine List.mem_flatMap.mpr ⟨total - start, List.mem_range.mpr (by omega), by simp⟩
    have hlt : (start + (total - start)) % 2 ^ 64 < total := hsafe _ hmem
    omega
  · intro hin a ha
    obtain ⟨i, hi, ha⟩ := List.mem_flatMap.mp ha
    have hi := List.mem_range.mp hi
    have hpage : (start + i) % 2 ^ 64 < total := by omega
    rcases List.mem_cons.mp ha with rfl | ha
    · exact hpage
    · rw [List.mem_singleton.mp ha]
      exact hpage

theorem rangeClearAccesses_safe (s : Manager) {start n : ℕ} (h : start + n ≤ s.totalPages) :
    AllSafe s.totalPages (rangeClearAccesses s start n) := by
  induction n generalizing start with
  | zero => exact allSafe_nil
  | succ n ih =>
    rw [rangeClearAccesses, allSafe_cons, safe_get]
    refine ⟨by omega, ?_⟩
    split_ifs
    · exact allSafe_nil
    · exact ih (by omega)

theorem setAccesses_safe {total start n : ℕ} (h : start + n ≤ total) :
    AllSafe total ((List.range' start n).map .set) := by
  intro a ha
  obtain ⟨p, hp, rfl⟩ := List.mem_map.mp ha
  have hp := List.mem_range'_1.mp hp
  rw [safe_set]
  omega

theorem alignedScanAccesses_safe (s : Manager) {pages alignPages : ℕ}
    (htotal : s.totalPages < 2 ^ 52) (hpages : 0 < pages ∧ pages < 2 ^ 64)
    (halign : 0 < alignPages ∧ alignPages ≤ 2 ^ 52) (fuel i : ℕ)
    (hi : i = 0 ∨ (pages ≤ s.totalPages ∧ i ≤ 2 ^ 53)) (hmul : alignPages ∣ i) :
    AllSafe s.totalPages (alignedScanAccesses s pages alignPages fuel i) := by
  induction fuel generalizing i with
  | zero => exact allSafe_nil
  | succ fuel ih =>
    rw [alignedScanAccesses]
    by_cases hle : (i + pages) % 2 ^ 64 ≤ s.totalPages
    swap
    · rw [if_neg hle]
      exact allSafe_nil
    have hfit : i + pages ≤ s.totalPages := by omega
    rw [if_pos hle, allSafe_append]
    refine ⟨rangeClearAccesses_safe s hfit, ?_⟩
    split_ifs with hclear hzero
    · exact setAccesses_safe hfit
    · omega
    · obtain ⟨hnext, -⟩ := next_multiple halign.1 hmul (hmul.add (dvd_refl alignPages)) (by omega)
      rw [allSafe_cons, safe_div, hnext, Nat.mod_eq_of_lt (by omega)]
      exact ⟨hzero, ih _ (Or.inr ⟨by omega, by omega⟩) (hmul.add (dvd_refl alignPages))⟩

theorem alignedScanAccesses_zero (s : Manager) {pages : ℕ} (fuel : ℕ) (hpages : pages < 2 ^ 64) :
    AllSafe s.totalPages (alignedScanAccesses s pages 0 (fuel + 1) 0) ↔
      s.totalPages < pages ∨ FreeRun s 0 pages := by
  rw [alignedScanAccesses, Nat.zero_add, Nat.mod_eq_of_lt hpages]
  by_cases hle : pages ≤ s.totalPages
  swap
  · rw [if_neg hle]
    exact ⟨fun _ => Or.inl (by omega), fun _ => allSafe_nil⟩
  have hrange : AllSafe s.totalPages (rangeClearAccesses s 0 pages) :=
    rangeClearAccesses_safe s (by omega)
  rw [if_pos hle, allSafe_append]
  by_cases hclear : rangeClear s 0 pages = true
  · rw [if_pos hclear]
    refine ⟨fun _ => Or.inr ⟨by omega, (rangeClear_iff s 0 pages).mp hclear⟩, fun _ => ?_⟩
    exact ⟨hrange, setAccesses_safe (by omega)⟩
  · rw [if_neg hclear, allSafe_cons, safe_div]
    refine ⟨fun h => absurd rfl h.2.1, fun h => ?_⟩
    rcases h with hlt | hrun
    · omega
    · exact absurd ((rangeClear_iff s 0 pages).mpr hrun.2) hclear

theorem setRegionAccesses_safe (s : Manager) {total pg n : ℕ} (used : Bool) :
    AllSafe total (setRegionAccesses s pg used n) ↔ n = 0 ∨ pg + n ≤ total := by
  induction n generalizing s pg with
  | zero => simp [setRegionAccesses]
  | succ n ih =>
    rw [setRegionAccesses, allSafe_append, allSafe_cons, safe_get, ih]
    constructor
    · rintro ⟨⟨hpg, -⟩, hrest⟩
      omega
    · intro h
      refine ⟨⟨by omega, ?_⟩, by omega⟩
      split_ifs
      · rw [allSafe_cons, safe_set]
        exact ⟨by omega, allSafe_nil⟩
      · exact allSafe_nil

theorem Operation.accesses_safe {s : Manager} (htotal : s.totalPages < 2 ^ 52) {op : Operation}
    (hpass : op.Passes s) : AllSafe s.totalPages (op.accesses s) ↔ op.Within s := by
  cases op with
  | pfree ptr pages =>
    obtain ⟨-, -, hptr, hpages, hstart⟩ := hpass
    rw [Operation.accesses, if_neg (by omega)]
    dsimp only
    rw [if_neg (by omega), allSafe_cons, pfreeAccesses_safe htotal hstart]
    exact and_iff_right safe_pageSize
  | pmallocAligned pages alignment =>
    obtain ⟨hpages64, halign64, hpages, hmul⟩ := hpass
    rw [Operation.accesses, if_neg (by omega), if_neg (by omega), allSafe_cons, allSafe_cons,
      and_iff_right safe_pageSize, and_iff_right safe_pageSize, Operation.Within]
    by_cases h0 : alignment = 0
    · subst h0
      rw [show 0 / pmmPageSize = 0 from rfl, alignedScanAccesses_zero s _ hpages64]
      exact ⟨Or.inr, fun h => h.resolve_left (by simp)⟩
    · refine ⟨fun _ => Or.inl h0, fun _ => ?_⟩
      refine alignedScanAccesses_safe s htotal ⟨hpages, hpages64⟩ ?_ _ 0 (Or.inl rfl) (dvd_zero _)
      simp only [pmmPageSize] at *
      omega
  | pmmSetRegion base size used =>
    rw [Operation.accesses, allSafe_cons, allSafe_cons, and_iff_right safe_pageSize,
      and_iff_right safe_pageSize, setRegionAccesses_safe, Operation.Within]
    omega

theorem mem_setRegionAccesses (s : Manager) (used : Bool) {pg n q : ℕ} (hle : pg ≤ q)
    (hlt : q < pg + n) (hbit : bitmapGet s q ≠ used) :
    Access.set q ∈ setRegionAccesses s pg used n := by
  induction n generalizing s pg with
  | zero => omega
  | succ n ih =>
    rw [setRegionAccesses]
    by_cases hq : q = pg
    · subst hq
      rw [if_pos hbit]
      simp
    · refine List.mem_append_right _ (ih _ (by omega) (by omega) ?_)
      rwa [bitmapGet_setRegionPage, if_neg hq]

theorem mem_alignedScanAccesses (s : Manager) {pages alignPages fuel i j p : ℕ}
    (hscan : alignedScan s pages alignPages fuel i = some (some j)) (hle : j ≤ p)
    (hlt : p < j + pages) : Access.set p ∈ alignedScanAccesses s pages alignPages fuel i := by
  induction fuel generalizing i with
  | zero => simp [alignedScan] at hscan
  | succ fuel ih =>
    rw [alignedScan] at hscan
    rw [alignedScanAccesses]
    split_ifs at hscan ⊢ with hfit hclear hzero
    · obtain rfl : i = j := by simpa using hscan
      refine List.mem_append_right _ (List.mem_map_of_mem ?_)
      exact List.mem_range'_1.mpr ⟨hle, hlt⟩
    · exact List.mem_append_right _ (List.mem_cons_of_mem _ (ih hscan))
    · exact absurd hscan (by simp)

theorem Operation.changed_page_accessed {s t : Manager} (hs : Sane s) {op : Operation}
    (happly : op.apply s = some t) {q : ℕ} (hq : q < s.totalPages)
    (hchange : bitmapGet t q ≠ bitmapGet s q) : Access.set q ∈ op.accesses s := by
  have htotal := hs.total_lt
  cases op with
  | pfree ptr pages =>
    obtain rfl := Option.some_inj.mp happly
    have hrange : virtToPhys ptr / pmmPageSize ≤ q ∧ q < virtToPhys ptr / pmmPageSize + pages := by
      by_contra hout
      exact hchange ((pfree_spec hs ptr pages).2.2 q hq hout)
    rw [Operation.accesses]
    by_cases h0 : ptr = 0 ∨ pages = 0
    · rw [Pmm.pfree, if_pos h0] at hchange
      exact absurd rfl hchange
    · rw [if_neg h0]
      dsimp only
      rw [if_neg (by omega)]
      refine List.mem_cons_of_mem _ (List.mem_flatMap.mpr
        ⟨q - virtToPhys ptr / pmmPageSize, List.mem_range.mpr (by omega), ?_⟩)
      rw [show virtToPhys ptr / pmmPageSize + (q - virtToPhys ptr / pmmPageSize) = q by omega,
        Nat.mod_eq_of_lt (by omega)]
      simp
  | pmallocAligned pages alignment =>
    obtain ⟨⟨addr, u⟩, hcall, rfl⟩ := Option.map_eq_some_iff.mp happly
    rw [Pmm.pmallocAligned] at hcall
    rw [Operation.accesses]
    split_ifs at hcall ⊢ with h0 halign
    · obtain ⟨-, rfl⟩ := Prod.mk.inj (Option.some_inj.mp hcall)
      exact absurd rfl hchange
    · obtain ⟨-, rfl⟩ := Prod.mk.inj (Option.some_inj.mp hcall)
      exact absurd rfl hchange
    · refine List.mem_cons_of_mem _ (List.mem_cons_of_mem _ ?_)
      split at hcall
      · exact absurd hcall (by simp)
      · obtain ⟨-, rfl⟩ := Prod.mk.inj (Option.some_inj.mp hcall)
        exact absurd rfl hchange
      · next i hscan =>
        obtain ⟨-, rfl⟩ := Prod.mk.inj (Option.some_inj.mp hcall)
        have hbits := (setRange_takenFrom s i pages).bits q
        dsimp only at hchange
        rw [hbits] at hchange
        split_ifs at hchange with hin
        · exact mem_alignedScanAccesses s hscan hin.1 hin.2
        · exact absurd rfl hchange
  | pmmSetRegion base size used =>
    obtain rfl := Option.some_inj.mp happly
    rw [Pmm.pmmSetRegion, bitmapGet_setRegionLoop] at hchange
    rw [Operation.accesses]
    refine List.mem_cons_of_mem _ (List.mem_cons_of_mem _ ?_)
    split_ifs at hchange with hin
    · exact mem_setRegionAccesses s used hin.1 hin.2 hchange.symm
    · exact absurd rfl hchange

theorem pmallocRun_totalPages {s t : Manager} {pages addr : ℕ}
    (h : pmallocRun s pages = some (addr, t)) : t.totalPages = s.totalPages := by
  rw [pmallocRun] at h
  split at h
  · exact absurd h (by simp)
  · split_ifs at h
    · obtain ⟨-, rfl⟩ := Prod.mk.inj (Option.some_inj.mp h)
      rfl
    · obtain ⟨-, rfl⟩ := Prod.mk.inj (Option.some_inj.mp h)
      exact (setRange_shape s _ pages).totalPages

theorem pmalloc_totalPages {s t : Manager} {pages addr : ℕ}
    (h : pmalloc s pages = some (addr, t)) : t.totalPages = s.totalPages := by
  rw [pmalloc] at h
  by_cases h0 : pages = 0
  · rw [if_pos h0] at h
    exact congrArg (fun r : ℕ × Manager => r.2.totalPages) (Option.some_inj.mp h).symm
  rw [if_neg h0] at h
  by_cases hfast : pages = 1 ∧ 0 < s.stackTop
  swap
  · rw [if_neg hfast] at h
    exact pmallocRun_totalPages h
  rw [if_pos hfast, stackPop, if_neg hfast.2.ne'] at h
  generalize load s.mem (s.framesStack + 8 * (s.stackTop - 1)) 8 = phys at h
  dsimp only at h
  by_cases hphys : phys ≠ uint64Max
  · rw [if_pos hphys] at h
    obtain ⟨-, ht⟩ := Prod.mk.inj (Option.some_inj.mp h)
    rw [← ht]
  · rw [if_neg hphys] at h
    have hrun := pmallocRun_totalPages h
    exact hrun

theorem Manager.request_totalPages {s t : Manager} {r : Request} (h : s.request r = some t) :
    t.totalPages = s.totalPages := by
  cases r with
  | pmalloc pages =>
    obtain ⟨⟨addr, u⟩, hcall, rfl⟩ := Option.map_eq_some_iff.mp h
    exact pmalloc_totalPages hcall
  | pmallocAligned pages alignment =>
    obtain ⟨⟨addr, u⟩, hcall, rfl⟩ := Option.map_eq_some_iff.mp h
    rw [pmallocAligned] at hcall
    split_ifs at hcall
    · obtain ⟨-, rfl⟩ := Prod.mk.inj (Option.some_inj.mp hcall)
      rfl
    · obtain ⟨-, rfl⟩ := Prod.mk.inj (Option.some_inj.mp hcall)
      rfl
    · split at hcall
      · exact absurd hcall (by simp)
      · obtain ⟨-, rfl⟩ := Prod.mk.inj (Option.some_inj.mp hcall)
        rfl
      · obtain ⟨-, rfl⟩ := Prod.mk.inj (Option.some_inj.mp hcall)
        exact (setRange_shape s _ pages).totalPages
  | pfree ptr pages =>
    obtain rfl := Option.some_inj.mp h
    rw [pfree]
    split_ifs
    · rfl
    · dsimp only
      split_ifs
      · rfl
      · exact (pfreeLoop_shape s pages _ pages).totalPages
  | setRegion base size used =>
    obtain rfl := Option.some_inj.mp h
    have hshape := setRegionLoop_shape s (base / pmmPageSize) used
      (regionStop base size - base / pmmPageSize)
    rw [pmmSetRegion, ← regionStop]
    exact hshape.1.totalPages

def Initialised (s : Manager) : Prop :=
  ∃ response mem s₀ requests, pmmInit response mem = some s₀ ∧
    run Manager.request s₀ requests = some s

theorem Initialised.total_lt {s : Manager} (h : Initialised s) : s.totalPages < 2 ^ 52 := by
  obtain ⟨response, mem, s₀, requests, hinit, hrun⟩ := h
  have hstep : ∀ (s : Manager) (r : Request) (t : Manager), s.totalPages < 2 ^ 52 → True →
      s.request r = some t → t.totalPages < 2 ^ 52 := by
    intro s r t hs _ hr
    rwa [Manager.request_totalPages hr]
  exact run_invariant hstep (allowed_true _ _ _) (pmmInit_sane hinit).1.total_lt hrun

/-- The accesses stay inside the bitmap, and no division is by zero, exactly under the
condition on the arguments. -/
theorem accesses_within (s : Manager) (hinit : Initialised s) (op : Operation)
    (hpass : op.Passes s) :
    (∀ a ∈ op.accesses s, a.Safe s.totalPages) ↔ op.Within s :=
  Operation.accesses_safe hinit.total_lt hpass

instance (s : Manager) : ∀ op : Operation, Decidable (op.Passes s)
  | .pfree _ _ => inferInstanceAs (Decidable (_ ∧ _ ∧ _ ∧ _ ∧ _))
  | .pmallocAligned _ _ => inferInstanceAs (Decidable (_ ∧ _ ∧ _ ∧ _))
  | .pmmSetRegion _ _ _ => inferInstanceAs (Decidable (_ ∧ _))

instance (s : Manager) : ∀ op : Operation, Decidable (op.Within s)
  | .pfree _ _ => inferInstanceAs (Decidable (_ ≤ _))
  | .pmallocAligned _ _ => inferInstanceAs (Decidable (_ ∨ _ ∨ _))
  | .pmmSetRegion _ _ _ => inferInstanceAs (Decidable (_ ∨ _))

theorem smallStart_initialised : Initialised smallStart.pmm := by
  have hboot : smallBoot = some (smallBoot.get (by decide +kernel)) := (Option.some_get _).symm
  rw [smallStart, World.start]
  generalize smallBoot.get (by decide +kernel) = s at hboot
  exact ⟨some smallMap, fun _ => 0, s, [], hboot, rfl⟩

theorem accesses_within_small :
    (Operation.pmallocAligned 1 8192).Passes smallStart.pmm ∧
      ∀ a ∈ (Operation.pmallocAligned 1 8192).accesses smallStart.pmm,
        a.Safe smallStart.pmm.totalPages := by
  have hpass : (Operation.pmallocAligned 1 8192).Passes smallStart.pmm := by decide +kernel
  exact ⟨hpass, (accesses_within smallStart.pmm smallStart_initialised (.pmallocAligned 1 8192)
    hpass).mpr (by decide +kernel)⟩

/-- The guards let through a release and a region behind the last page, and an alignment
of zero. -/
theorem guards_too_weak :
    Initialised smallStart.pmm ∧
    ∀ op ∈ [Operation.pfree 0x20F000 2, .pmallocAligned 1 0, .pmmSetRegion 0x210000 1 true],
      op.Passes smallStart.pmm ∧
        ¬ ∀ a ∈ op.accesses smallStart.pmm, a.Safe smallStart.pmm.totalPages :=
  ⟨smallStart_initialised, by decide +kernel⟩

end XldKernel.Pmm
