import XldKernel.PmmOwnership
import XldKernel.Spinlock

/-!
# The page allocator on several processors

What `pmalloc`, `pmalloc_aligned`, `pfree` and `pmm_set_region` do between
`spinlock_lock(&pmm_lock)` and `spinlock_unlock(&pmm_lock)`, load by load and
store by store. `none` is a search that does not return. A call that is rejected
before the lock is a section without a load or a store.
-/

namespace XldKernel.Pmm
open ByteMemory GuardedRun StoreBuffers Spinlock

def bitmapGetCode (page : ℕ) : Section Manager Bool := .load (bitmapGet · page) .ret

def bitmapSetCode (page : ℕ) (value : Bool) : Section Manager Unit :=
  .load (fun s => s.mem (s.bitmap + page / 8)) fun old =>
    .store (fun s => { s with
      mem := Function.update s.mem (s.bitmap + page / 8)
        (if value then setBit old (page % 8) else clearBit old (page % 8)) }) (.ret ())

def freePagesCode (change : ℕ → ℕ) : Section Manager Unit :=
  .load (·.freePages) fun n => .store (fun s => { s with freePages := change n }) (.ret ())

def setRangeCode (start : ℕ) : ℕ → Section Manager Unit
  | 0 => .ret ()
  | n + 1 => (bitmapSetCode start true).bind fun _ => setRangeCode (start + 1) n

def extendRunCode (totalBits pages : ℕ) : ℕ → ℕ → ℕ → Section Manager ℕ
  | 0, run, _ => .ret run
  | fuel + 1, run, checkIdx =>
    if run < pages ∧ checkIdx < totalBits then
      (bitmapGetCode checkIdx).bind fun used =>
        if used then .ret run else extendRunCode totalBits pages fuel (run + 1) (checkIdx + 1)
    else .ret run

def scanWordCode (totalBits pages bitIndex word : ℕ) : ℕ → ℤ → Section Manager WordScan
  | 0, b => .ret (if b < 64 then .undefined else .endOfWord)
  | fuel + 1, b =>
    if b < 64 then
      let idx := ((bitIndex + b) % 2 ^ 64).toNat
      if totalBits ≤ idx then .ret (.ret uint64Max)
      else if b < 0 then .ret .undefined
      else if word.testBit b.toNat then scanWordCode totalBits pages bitIndex word fuel (b + 1)
      else
        (extendRunCode totalBits pages totalBits 1 (idx + 1)).bind fun run =>
          if run = pages then .ret (.ret idx)
          else
            let b' := toInt32 (b + run)
            if b' = 2 ^ 31 - 1 then .ret .undefined
            else scanWordCode totalBits pages bitIndex word fuel (b' + 1)
    else .ret .endOfWord

def scanWordsCode (totalBits pages : ℕ) : ℕ → ℕ → ℕ → Section Manager (Option ℕ)
  | 0, _, _ => .ret (some uint64Max)
  | n + 1, w, bitIndex =>
    .load (fun s => load s.mem (s.bitmap + 8 * w) 8) fun word =>
      if word = uint64Max then scanWordsCode totalBits pages n (w + 1) (bitIndex + 64)
      else
        (scanWordCode totalBits pages bitIndex word 64 0).bind fun
          | .undefined => .ret none
          | .ret r => .ret (some r)
          | .endOfWord => scanWordsCode totalBits pages n (w + 1) (bitIndex + 64)

def findFreeRunCode (pages : ℕ) : Section Manager (Option ℕ) :=
  if pages = 0 then .ret (some uint64Max)
  else .load (·.totalPages) fun totalBits =>
    scanWordsCode totalBits pages ((totalBits + 63) / 64) 0 0

def takeRunCode (start pages : ℕ) : Section Manager (Option ℕ) :=
  (setRangeCode start pages).bind fun _ =>
    (freePagesCode (sub64 · pages)).bind fun _ =>
      .ret (some (physToVirt (start * pmmPageSize % 2 ^ 64)))

def pmallocRunCode (pages : ℕ) : Section Manager (Option ℕ) :=
  (findFreeRunCode pages).bind fun
    | none => .ret none
    | some startPage => if startPage = uint64Max then .ret (some 0) else takeRunCode startPage pages

def pmallocCode (pages : ℕ) : Section Manager (Option ℕ) :=
  if pages = 0 then .ret (some 0)
  else .load (·.stackTop) fun top =>
    if pages = 1 ∧ 0 < top then
      .store (fun s => { s with stackTop := top - 1 }) <|
        .load (fun s => load s.mem (s.framesStack + 8 * (top - 1)) 8) fun phys =>
          if phys ≠ uint64Max then
            (freePagesCode (sub64 · 1)).bind fun _ =>
              .ret (some (physToVirt (phys * pmmPageSize % 2 ^ 64)))
          else pmallocRunCode pages
    else pmallocRunCode pages

def rangeClearCode (start : ℕ) : ℕ → Section Manager Bool
  | 0 => .ret true
  | n + 1 => (bitmapGetCode start).bind fun used =>
      if used then .ret false else rangeClearCode (start + 1) n

def alignedScanCode (total pages alignPages : ℕ) : ℕ → ℕ → Section Manager (Option (Option ℕ))
  | 0, _ => .ret none
  | fuel + 1, i =>
    if (i + pages) % 2 ^ 64 ≤ total then
      (rangeClearCode i pages).bind fun ok =>
        if ok then .ret (some (some i))
        else if alignPages = 0 then .ret none
        else alignedScanCode total pages alignPages fuel
          ((i / alignPages + 1) * alignPages % 2 ^ 64)
    else .ret (some none)

def pmallocAlignedCode (pages alignment : ℕ) : Section Manager (Option ℕ) :=
  if pages = 0 then .ret (some 0)
  else if alignment % pmmPageSize ≠ 0 then .ret (some 0)
  else .load (·.totalPages) fun total =>
    (alignedScanCode total pages (alignment / pmmPageSize) (total + 1) 0).bind fun
      | none => .ret none
      | some none => .ret (some 0)
      | some (some i) => takeRunCode i pages

def pfreePageCode (pages pg : ℕ) : Section Manager Unit :=
  -- the bit is tested for the warning only
  (bitmapGetCode pg).bind fun _ =>
    (bitmapSetCode pg false).bind fun _ =>
      .load (·.stackTop) fun top =>
        if pages = 1 ∧ top < framesStackEntries then
          .store (fun s => { s with mem := store s.mem (s.framesStack + 8 * top) 8 pg }) <|
            .store (fun s => { s with stackTop := top + 1 }) (.ret ())
        else .ret ()

def pfreeLoopCode (pages pg : ℕ) : ℕ → Section Manager Unit
  | 0 => .ret ()
  | n + 1 => (pfreePageCode pages pg).bind fun _ => pfreeLoopCode pages (pg + 1) n

def pfreeCode (ptr pages : ℕ) : Section Manager (Option ℕ) :=
  if ptr = 0 ∨ pages = 0 then .ret (some 0)
  else
    let start := virtToPhys ptr / pmmPageSize
    .load (·.totalPages) fun total =>
      if total ≤ start then .ret (some 0)
      else (pfreeLoopCode pages start pages).bind fun _ =>
        (freePagesCode fun n => (n + pages) % 2 ^ 64).bind fun _ => .ret (some 0)

def setRegionPageCode (pg : ℕ) (used : Bool) : Section Manager Unit :=
  (bitmapGetCode pg).bind fun cur =>
    if cur ≠ used then
      (bitmapSetCode pg used).bind fun _ =>
        if used then
          .load (·.freePages) fun free => if 0 < free then freePagesCode (· - 1) else .ret ()
        else freePagesCode fun n => (n + 1) % 2 ^ 64
    else .ret ()

def setRegionLoopCode (pg : ℕ) (used : Bool) : ℕ → Section Manager Unit
  | 0 => .ret ()
  | n + 1 => (setRegionPageCode pg used).bind fun _ => setRegionLoopCode (pg + 1) used n

def pmmSetRegionCode (base size : ℕ) (used : Bool) : Section Manager (Option ℕ) :=
  let start := base / pmmPageSize
  let stop := (base + size + pmmPageSize - 1) % 2 ^ 64 / pmmPageSize
  (setRegionLoopCode start used (stop - start)).bind fun _ => .ret (some 0)

def callCode : Call → Section Manager (Option ℕ)
  | .pmalloc pages => pmallocCode pages
  | .pmallocAligned pages alignment => pmallocAlignedCode pages alignment
  | .pfree a => pfreeCode a.addr a.pages
  | .reserve base size => pmmSetRegionCode base size true

@[simp] theorem bitmapGetCode_eval (page : ℕ) (s : Manager) :
    (bitmapGetCode page).eval s = (bitmapGet s page, s) := rfl

@[simp] theorem bitmapSetCode_eval (page : ℕ) (value : Bool) (s : Manager) :
    (bitmapSetCode page value).eval s = ((), bitmapSet s page value) := rfl

@[simp] theorem freePagesCode_eval (change : ℕ → ℕ) (s : Manager) :
    (freePagesCode change).eval s = ((), { s with freePages := change s.freePages }) := rfl

@[simp] theorem setRangeCode_eval (start n : ℕ) (s : Manager) :
    (setRangeCode start n).eval s = ((), setRange s start n) := by
  induction n generalizing start s with
  | zero => rfl
  | succ n ih => simp [setRangeCode, setRange, ih]

@[simp] theorem extendRunCode_eval (pages fuel run checkIdx : ℕ) (s : Manager) :
    (extendRunCode s.totalPages pages fuel run checkIdx).eval s =
      (extendRun s pages fuel run checkIdx, s) := by
  induction fuel generalizing run checkIdx with
  | zero => rfl
  | succ fuel ih =>
    simp only [extendRunCode, extendRun]
    split_ifs <;> simp_all

@[simp] theorem scanWordCode_eval (pages bitIndex word fuel : ℕ) (b : ℤ) (s : Manager) :
    (scanWordCode s.totalPages pages bitIndex word fuel b).eval s =
      (scanWord s pages bitIndex word fuel b, s) := by
  induction fuel generalizing b with
  | zero => rfl
  | succ fuel ih =>
    simp only [scanWordCode, scanWord]
    split_ifs <;> simp_all

@[simp] theorem scanWordsCode_eval (pages n w bitIndex : ℕ) (s : Manager) :
    (scanWordsCode s.totalPages pages n w bitIndex).eval s =
      (scanWords s pages n w bitIndex, s) := by
  induction n generalizing w bitIndex with
  | zero => rfl
  | succ n ih =>
    simp only [scanWordsCode, scanWords, Section.eval_load]
    by_cases hfull : load s.mem (s.bitmap + 8 * w) 8 = uint64Max
    · simp only [if_pos hfull, ih]
    · simp only [if_neg hfull, Section.eval_bind, scanWordCode_eval]
      cases scanWord s pages bitIndex (load s.mem (s.bitmap + 8 * w) 8) 64 0 with
      | undefined => rfl
      | ret r => rfl
      | endOfWord => exact ih (w + 1) (bitIndex + 64)

@[simp] theorem findFreeRunCode_eval (pages : ℕ) (s : Manager) :
    (findFreeRunCode pages).eval s = (findFreeRun s pages, s) := by
  simp only [findFreeRunCode, findFreeRun]
  split_ifs <;> simp

@[simp] theorem takeRunCode_eval (start pages : ℕ) (s : Manager) :
    (takeRunCode start pages).eval s =
      (some (physToVirt (start * pmmPageSize % 2 ^ 64)),
        { setRange s start pages with
          freePages := sub64 (setRange s start pages).freePages pages }) := by
  simp [takeRunCode]

theorem pmallocRunCode_eval {pages : ℕ} {s : Manager} {r : ℕ × Manager}
    (h : pmallocRun s pages = some r) : (pmallocRunCode pages).eval s = (some r.1, r.2) := by
  simp only [pmallocRunCode, pmallocRun, Section.eval_bind, findFreeRunCode_eval] at h ⊢
  cases hrun : findFreeRun s pages with
  | none => simp [hrun] at h
  | some startPage =>
    simp only [hrun] at h ⊢
    split_ifs at h ⊢ <;> cases h <;> simp

theorem pmallocCode_eval {pages : ℕ} {s : Manager} {r : ℕ × Manager}
    (h : pmalloc s pages = some r) : (pmallocCode pages).eval s = (some r.1, r.2) := by
  simp only [pmallocCode, pmalloc, stackPop] at h ⊢
  by_cases hzero : pages = 0
  · rw [if_pos hzero] at h ⊢
    cases h
    rfl
  rw [if_neg hzero] at h ⊢
  simp only [Section.eval_load]
  by_cases hfast : pages = 1 ∧ 0 < s.stackTop
  · have htop : s.stackTop ≠ 0 := by omega
    simp only [if_pos hfast, if_neg htop, Section.eval_store, Section.eval_load] at h ⊢
    split_ifs at h ⊢ with hphys
    · cases h
      rfl
    · exact pmallocRunCode_eval h
  · rw [if_neg hfast] at h ⊢
    exact pmallocRunCode_eval h

@[simp] theorem rangeClearCode_eval (start n : ℕ) (s : Manager) :
    (rangeClearCode start n).eval s = (rangeClear s start n, s) := by
  induction n generalizing start with
  | zero => rfl
  | succ n ih =>
    cases hbit : bitmapGet s start <;> simp [rangeClearCode, rangeClear, hbit, ih]

@[simp] theorem alignedScanCode_eval (pages alignPages fuel i : ℕ) (s : Manager) :
    (alignedScanCode s.totalPages pages alignPages fuel i).eval s =
      (alignedScan s pages alignPages fuel i, s) := by
  induction fuel generalizing i with
  | zero => rfl
  | succ fuel ih =>
    simp only [alignedScanCode, alignedScan]
    split_ifs <;> simp_all

theorem pmallocAlignedCode_eval {pages alignment : ℕ} {s : Manager} {r : ℕ × Manager}
    (h : pmallocAligned s pages alignment = some r) :
    (pmallocAlignedCode pages alignment).eval s = (some r.1, r.2) := by
  simp only [pmallocAlignedCode, pmallocAligned] at h ⊢
  by_cases hzero : pages = 0
  · rw [if_pos hzero] at h ⊢
    cases h
    rfl
  rw [if_neg hzero] at h ⊢
  by_cases halign : alignment % pmmPageSize ≠ 0
  · rw [if_pos halign] at h ⊢
    cases h
    rfl
  rw [if_neg halign] at h ⊢
  simp only [Section.eval_load, Section.eval_bind, alignedScanCode_eval]
  cases hscan : alignedScan s pages (alignment / pmmPageSize) (s.totalPages + 1) 0 with
  | none => simp [hscan] at h
  | some found =>
    cases found with
    | none =>
      simp only [hscan] at h
      cases h
      rfl
    | some i =>
      simp only [hscan] at h
      cases h
      simp

@[simp] theorem pfreePageCode_eval (pages pg : ℕ) (s : Manager) :
    (pfreePageCode pages pg).eval s = ((), pfreePage s pages pg) := by
  simp only [pfreePageCode, pfreePage, Section.eval_bind, bitmapGetCode_eval, bitmapSetCode_eval,
    Section.eval_load]
  split_ifs <;> rfl

@[simp] theorem pfreeLoopCode_eval (pages pg n : ℕ) (s : Manager) :
    (pfreeLoopCode pages pg n).eval s = ((), pfreeLoop s pages pg n) := by
  induction n generalizing pg s with
  | zero => rfl
  | succ n ih => simp [pfreeLoopCode, pfreeLoop, ih]

@[simp] theorem pfreeCode_eval (ptr pages : ℕ) (s : Manager) :
    (pfreeCode ptr pages).eval s = (some 0, pfree s ptr pages) := by
  simp only [pfreeCode, pfree]
  by_cases hnull : ptr = 0 ∨ pages = 0
  · rw [if_pos hnull, if_pos hnull]
    rfl
  · rw [if_neg hnull, if_neg hnull, Section.eval_load]
    split_ifs <;> simp

@[simp] theorem setRegionPageCode_eval (pg : ℕ) (used : Bool) (s : Manager) :
    (setRegionPageCode pg used).eval s = ((), setRegionPage s pg used) := by
  by_cases hcur : bitmapGet s pg = used
  · simp [setRegionPageCode, setRegionPage, hcur]
  · cases used with
    | false => simp [setRegionPageCode, setRegionPage, hcur]
    | true =>
      by_cases hfree : 0 < (bitmapSet s pg true).freePages
      · simp [setRegionPageCode, setRegionPage, hcur, hfree]
      · simp [setRegionPageCode, setRegionPage, hcur, hfree]

@[simp] theorem setRegionLoopCode_eval (pg n : ℕ) (used : Bool) (s : Manager) :
    (setRegionLoopCode pg used n).eval s = ((), setRegionLoop s pg used n) := by
  induction n generalizing pg s with
  | zero => rfl
  | succ n ih => simp [setRegionLoopCode, setRegionLoop, ih]

def World.answer (w : World) : Call → Option ℕ
  | .pmalloc pages => (pmalloc w.pmm pages).map Prod.fst
  | .pmallocAligned pages alignment => (pmallocAligned w.pmm pages alignment).map Prod.fst
  | .pfree _ => some 0
  | .reserve _ _ => some 0

def World.answers : World → List Call → List (Option ℕ)
  | _, [] => []
  | w, c :: cs => w.answer c :: ((w.call c).map fun t => t.answers cs).getD []

theorem World.answers_append {w t : World} {cs : List Call} (h : run World.call w cs = some t)
    (c : Call) : w.answers (cs ++ [c]) = w.answers cs ++ [t.answer c] := by
  induction cs generalizing w with
  | nil =>
    cases h
    cases hc : World.call t c with
    | none => simp [answers, hc]
    | some u => simp [answers, hc]
  | cons d cs ih =>
    obtain ⟨u, hu, h⟩ := Option.bind_eq_some_iff.mp h
    simp only [List.cons_append, answers, hu, Option.map_some, Option.getD_some, ih h]

@[simp] theorem World.handOut_pmm (w : World) (pages : ℕ) (r : ℕ × Manager) :
    (w.handOut pages r).pmm = r.2 := by
  simp only [World.handOut]
  split_ifs <;> rfl

theorem callCode_eval {w t : World} {c : Call} (h : w.call c = some t) :
    (callCode c).eval w.pmm = (w.answer c, t.pmm) := by
  cases c with
  | pmalloc pages =>
    obtain ⟨r, hr, rfl⟩ := Option.map_eq_some_iff.mp h
    simp [callCode, World.answer, pmallocCode_eval hr, hr]
  | pmallocAligned pages alignment =>
    obtain ⟨r, hr, rfl⟩ := Option.map_eq_some_iff.mp h
    simp [callCode, World.answer, pmallocAlignedCode_eval hr, hr]
  | pfree a =>
    cases h
    simp [callCode, World.answer]
  | reserve base size =>
    cases h
    simp [callCode, World.answer, pmmSetRegionCode, pmmSetRegion]

section Processors
variable {ι : Type}

def callsOf (history : List (Done ι Call (Option ℕ))) : List Call := history.map (·.call)

/-- A serial history of permitted calls is a run of the sequential allocator. -/
theorem serial_run {s s' : Manager} {history : List (Done ι Call (Option ℕ))}
    (h : Serial callCode s history s') (hs : Sane s)
    (hok : Allowed World.call (fun w c => w.Permitted c ∧ w.AvoidsCache c) (World.start s)
      (callsOf history)) :
    ∃ w, run World.call (World.start s) (callsOf history) = some w ∧ w.Marked ∧ w.pmm = s' ∧
      history.map (·.result) = (World.start s).answers (callsOf history) := by
  induction h with
  | nil => exact ⟨World.start s, rfl, World.start_marked hs, rfl, rfl⟩
  | @snoc earlier s₁ s₂ d hser heval ih =>
    have hcalls : callsOf (earlier ++ [d]) = callsOf earlier ++ [d.call] := by simp [callsOf]
    rw [hcalls] at hok ⊢
    obtain ⟨w₀, hw₀, -⟩ :=
      run_total (fun w c hw hc => hw.call hc.1 hc.2) hok (World.start_marked hs)
    rw [run_append] at hw₀
    obtain ⟨w, hw, -⟩ := Option.bind_eq_some_iff.mp hw₀
    obtain ⟨hfirst, hlast⟩ := hok.append hw
    obtain ⟨w', hw', hmark, hpmm, hres⟩ := ih hfirst
    rw [hw] at hw'
    cases hw'
    obtain ⟨t, ht, htm⟩ := hmark.call hlast.1.1 hlast.1.2
    have hsection := callCode_eval ht
    rw [hpmm, heval] at hsection
    obtain ⟨hresult, hstate⟩ := Prod.mk.inj hsection
    refine ⟨t, ?_, htm, hstate.symm, ?_⟩
    · rw [run_append, hw]
      simp [run, ht]
    · rw [World.answers_append hw, ← hres, ← hresult]
      simp

/-- On any number of processors, in every interleaving of their loads, stores and
store buffers, the finished calls gave the answers of the sequential allocator
in the order of their releases; no page has two owners, and memory holds the
state of that sequential run whenever no call is under way. -/
theorem pmm_calls_serial [DecidableEq ι] {response : Option (List MemmapEntry)} {mem : Mem}
    {s : Manager} (hinit : pmmInit response mem = some s)
    {M : Machine ι Call Manager (Option ℕ) UInt8} (hM : Reachable spinlock callCode s M)
    (hok : Allowed World.call (fun w c => w.Permitted c ∧ w.AvoidsCache c) (World.start s)
      (callsOf M.history)) :
    ∃ w, run World.call (World.start s) (callsOf M.history) = some w ∧ w.Exclusive ∧
      M.history.map (·.result) = (World.start s).answers (callsOf M.history) ∧
      ((∀ j, Quiet M j) → M.data = w.pmm) := by
  obtain ⟨s', hser, hdata⟩ := hM.serial
  obtain ⟨w, hw, hmark, hpmm, hres⟩ := serial_run hser (pmmInit_sane hinit).1 hok
  exact ⟨w, hw, hmark.exclusive, hres, fun hq => (hdata hq).trans hpmm.symm⟩

end Processors

theorem pmm_calls_serial_small :
    ∃ (M N : Machine Bool Call Manager (Option ℕ) UInt8) (w : World),
      M.phase false = .inside (.pmalloc 2) (pmallocCode 2) ∧
      M.phase true = .waiting (.pmallocAligned 1 0x2000) ∧
      Relation.ReflTransGen (Step spinlock callCode) M N ∧
      callsOf N.history = [.pmalloc 2, .pmallocAligned 1 0x2000] ∧
      run World.call smallStart (callsOf N.history) = some w ∧ w.Exclusive ∧ N.data = w.pmm := by
  have hsome : smallBoot.isSome = true := by decide +kernel
  obtain ⟨M, N, hM, hinside, hwaits, hN, hcalls, hidle, hempty⟩ := exists_contended spinlock
    callCode Bool.false_ne_true (smallBoot.get hsome) (.pmalloc 2) (.pmallocAligned 1 0x2000)
  have hhist : callsOf N.history = [.pmalloc 2, .pmallocAligned 1 0x2000] := by
    have hsecond := congrArg (List.map Prod.snd) hcalls
    rwa [List.map_map] at hsecond
  have hinit : pmmInit (some smallMap) (fun _ => 0) = some (smallBoot.get hsome) :=
    (Option.some_get hsome).symm
  obtain ⟨w, hw, hex, -, hdata⟩ := pmm_calls_serial hinit (hM.trans hN) (by
    rw [hhist]
    exact ⟨⟨(by norm_num : 2 < 2 ^ 64), by omega, by omega⟩, fun _ _ =>
      ⟨⟨by simp [World.Permitted, pmmPageSize], trivial⟩, fun _ _ => trivial⟩⟩)
  refine ⟨M, N, w, hinside, hwaits, hN, hhist, hw, hex, hdata fun j => ⟨?_, hempty j⟩⟩
  rw [hidle]
  exact outside_idle

end XldKernel.Pmm
