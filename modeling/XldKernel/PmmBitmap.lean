import XldKernel.ByteMemory

/-!
# Physical memory manager: state, bitmap and first-fit search

Source: `kernel/src/pmm.c` and `pmm.h`. The bitmap and the frame cache live in
one memory, the cache right after the bitmap, so the last 64-bit word of the
bitmap may read bytes of the cache. Unsigned 64-bit arithmetic is reduced
modulo `2^64`. The search keeps its bit position in a C `int`; a shift by a
negative count, an increment past the largest `int` and a loop that returns to
an earlier position are all the outcome `WordScan.undefined`.
-/

namespace XldKernel.Pmm
open ByteMemory

def pmmPageSize : ℕ := 4096
def framesStackEntries : ℕ := 1024
def kernelVirtOffset : ℕ := 0
def uint64Max : ℕ := 2 ^ 64 - 1

def physToVirt (x : ℕ) : ℕ := (x + kernelVirtOffset) % 2 ^ 64
def virtToPhys (x : ℕ) : ℕ := (x + (2 ^ 64 - kernelVirtOffset)) % 2 ^ 64
def sub64 (a b : ℕ) : ℕ := (a + (2 ^ 64 - b % 2 ^ 64)) % 2 ^ 64

structure Manager where
  mem : Mem
  bitmap : ℕ
  bitmapPages : ℕ
  totalPages : ℕ
  freePages : ℕ
  totalMemory : ℕ
  bitmapPhys : ℕ
  framesStack : ℕ
  stackTop : ℕ

def bitmapSet (s : Manager) (page : ℕ) (value : Bool) : Manager :=
  let byte := s.bitmap + page / 8
  let old := s.mem byte
  let new := if value then setBit old (page % 8) else clearBit old (page % 8)
  { s with mem := Function.update s.mem byte new }

def bitmapGet (s : Manager) (page : ℕ) : Bool :=
  getBit (s.mem (s.bitmap + page / 8)) (page % 8)

@[simp] theorem bitmapSet_totalPages (s : Manager) (p : ℕ) (v : Bool) :
    (bitmapSet s p v).totalPages = s.totalPages := rfl
@[simp] theorem bitmapSet_bitmap (s : Manager) (p : ℕ) (v : Bool) :
    (bitmapSet s p v).bitmap = s.bitmap := rfl
@[simp] theorem bitmapSet_framesStack (s : Manager) (p : ℕ) (v : Bool) :
    (bitmapSet s p v).framesStack = s.framesStack := rfl
@[simp] theorem bitmapSet_stackTop (s : Manager) (p : ℕ) (v : Bool) :
    (bitmapSet s p v).stackTop = s.stackTop := rfl

theorem bitmapGet_bitmapSet (s : Manager) (p q : ℕ) (v : Bool) :
    bitmapGet (bitmapSet s p v) q = if q = p then v else bitmapGet s q := by
  have hp : p % 8 < 8 := Nat.mod_lt _ (by decide)
  have hq : q % 8 < 8 := Nat.mod_lt _ (by decide)
  by_cases hbyte : q / 8 = p / 8
  · have hbit : q % 8 = p % 8 ↔ q = p := by omega
    cases v with
    | false =>
      simp only [bitmapGet, bitmapSet, hbyte, Function.update_self, Bool.false_eq_true, if_false,
        getBit_clearBit _ hp hq, hbit]
      by_cases hqp : q = p <;> simp [hqp]
    | true =>
      simp only [bitmapGet, bitmapSet, hbyte, Function.update_self, if_true,
        getBit_setBit _ hp hq, hbit]
      by_cases hqp : q = p <;> simp [hqp]
  · have hne : q ≠ p := by
      rintro rfl
      exact hbyte rfl
    simp [bitmapGet, bitmapSet, hbyte, hne]

def extendRun (s : Manager) (pages : ℕ) : ℕ → ℕ → ℕ → ℕ
  | 0, run, _ => run
  | fuel + 1, run, checkIdx =>
    if run < pages ∧ checkIdx < s.totalPages then
      if bitmapGet s checkIdx then run
      else extendRun s pages fuel (run + 1) (checkIdx + 1)
    else run

inductive WordScan where
  | undefined
  | ret (r : ℕ)
  | endOfWord

def toInt32 (x : ℤ) : ℤ := Int.bmod x (2 ^ 32)

/-- The `for` loop over `b`. It has at most 64 different positions inside a
word, so running out of fuel with `b < 64` means that the loop never ends. -/
def scanWord (s : Manager) (pages bitIndex word : ℕ) : ℕ → ℤ → WordScan
  | 0, b => if b < 64 then .undefined else .endOfWord
  | fuel + 1, b =>
    if b < 64 then
      let idx := ((bitIndex + b) % 2 ^ 64).toNat
      if s.totalPages ≤ idx then .ret uint64Max
      else if b < 0 then .undefined
      else if word.testBit b.toNat then scanWord s pages bitIndex word fuel (b + 1)
      else
        let run := extendRun s pages s.totalPages 1 (idx + 1)
        if run = pages then .ret idx
        else
          let b' := toInt32 (b + run)
          if b' = 2 ^ 31 - 1 then .undefined
          else scanWord s pages bitIndex word fuel (b' + 1)
    else .endOfWord

def scanWords (s : Manager) (pages : ℕ) : ℕ → ℕ → ℕ → Option ℕ
  | 0, _, _ => some uint64Max
  | n + 1, w, bitIndex =>
    let word := load s.mem (s.bitmap + 8 * w) 8
    if word = uint64Max then scanWords s pages n (w + 1) (bitIndex + 64)
    else
      match scanWord s pages bitIndex word 64 0 with
      | .undefined => none
      | .ret r => some r
      | .endOfWord => scanWords s pages n (w + 1) (bitIndex + 64)

/-- `none` is a call that does not return. -/
def findFreeRun (s : Manager) (pages : ℕ) : Option ℕ :=
  if pages = 0 then some uint64Max
  else scanWords s pages ((s.totalPages + 63) / 64) 0 0

def FreeRun (s : Manager) (start n : ℕ) : Prop :=
  start + n ≤ s.totalPages ∧ ∀ p, start ≤ p → p < start + n → bitmapGet s p = false

instance (s : Manager) (start n : ℕ) : Decidable (FreeRun s start n) :=
  inferInstanceAs (Decidable (_ ∧ _))

def NoRunBefore (s : Manager) (pages p : ℕ) : Prop := ∀ i < p, ¬ FreeRun s i pages

def FirstFit (s : Manager) (pages r : ℕ) : Prop :=
  (r = uint64Max ∧ ∀ i, ¬ FreeRun s i pages) ∨ IsLeast {i | FreeRun s i pages} r

theorem extendRun_spec (s : Manager) (pages fuel run c : ℕ) (hc : c ≤ s.totalPages)
    (hfuel : s.totalPages ≤ fuel + c) (hrun : run ≤ pages) :
    ∃ k, extendRun s pages fuel run c = run + k ∧ c + k ≤ s.totalPages ∧ run + k ≤ pages ∧
      (∀ p, c ≤ p → p < c + k → bitmapGet s p = false) ∧
      (run + k = pages ∨ c + k = s.totalPages ∨ bitmapGet s (c + k) = true) := by
  induction fuel generalizing run c with
  | zero => exact ⟨0, rfl, hc, hrun, by intros; omega, Or.inr (Or.inl (by omega))⟩
  | succ fuel ih =>
    by_cases hgo : run < pages ∧ c < s.totalPages
    · by_cases hbit : bitmapGet s c
      · exact ⟨0, by simp [extendRun, hgo, hbit], hc, hrun, by intros; omega,
          Or.inr (Or.inr hbit)⟩
      · obtain ⟨k, hk, hle, hpages, hfree, hstop⟩ :=
          ih (run + 1) (c + 1) hgo.2 (by omega) hgo.1
        have hshift : ∀ x, x + 1 + k = x + (k + 1) := by omega
        rw [hshift] at hk hle hpages
        rw [hshift, hshift] at hstop
        refine ⟨k + 1, ?_, hle, hpages, ?_, hstop⟩
        · rw [extendRun, if_pos hgo, if_neg hbit, hk]
        · intro p hp hlt
          rcases Nat.eq_or_lt_of_le hp with rfl | hp
          · simpa using hbit
          · exact hfree p hp (by omega)
    · exact ⟨0, by simp only [extendRun, hgo, if_false, Nat.add_zero], hc, hrun,
        by intros; omega, by omega⟩

/-- No run starts inside a run that was too short, nor at the page that ended it. -/
theorem NoRunBefore.skip {s : Manager} {pages i : ℕ} (h : NoRunBefore s pages i) (run : ℕ)
    (hshort : run < pages) (hstop : i + run = s.totalPages ∨ bitmapGet s (i + run) = true) :
    NoRunBefore s pages (i + run + 1) := by
  intro j hj hrun
  by_cases hji : j < i
  · exact h j hji hrun
  · obtain ⟨hle, hfree⟩ := hrun
    rcases hstop with hend | hused
    · omega
    · have hclear := hfree (i + run) (by omega) (by omega)
      rw [hused] at hclear
      exact absurd hclear (by simp)

theorem NoRunBefore.used {s : Manager} {pages i : ℕ} (h : NoRunBefore s pages i)
    (hpages : 0 < pages) (hused : bitmapGet s i = true) : NoRunBefore s pages (i + 1) :=
  h.skip 0 hpages (Or.inr hused)

theorem NoRunBefore.first {s : Manager} {pages i : ℕ} (h : NoRunBefore s pages i)
    (hrun : FreeRun s i pages) : FirstFit s pages i :=
  Or.inr ⟨hrun, fun j hj => not_lt.mp fun hlt => h j hlt hj⟩

theorem NoRunBefore.never {s : Manager} {pages i : ℕ} (h : NoRunBefore s pages i)
    (hend : s.totalPages ≤ i) (hpages : 0 < pages) : FirstFit s pages uint64Max := by
  refine Or.inl ⟨rfl, fun j hj => ?_⟩
  by_cases hji : j < i
  · exact h j hji hj
  · have hle := hj.1
    omega

theorem testBit_word (s : Manager) (w b : ℕ) (hb : b < 64) :
    (load s.mem (s.bitmap + 8 * w) 8).testBit b = bitmapGet s (64 * w + b) := by
  rw [load_testBit _ _ _ _ (by omega), bitmapGet, getBit_eq_testBit _ (Nat.mod_lt _ (by decide))]
  rw [show s.bitmap + 8 * w + b / 8 = s.bitmap + (64 * w + b) / 8 by omega,
    show (64 * w + b) % 8 = b % 8 by omega]

theorem scanIndex_eq {w n : ℕ} (hw : 64 * w + n < 2 ^ 64) :
    ((((64 * w : ℕ) : ℤ) + (n : ℤ)) % 2 ^ 64).toNat = 64 * w + n := by
  omega

theorem toInt32_of_small {x : ℤ} (h0 : 0 ≤ x) (h : x < 2 ^ 31) : toInt32 x = x := by
  unfold toInt32
  rw [Int.bmod_eq_of_le] <;> omega

def WordScan.Exact (s : Manager) (pages w : ℕ) : WordScan → Prop
  | .undefined => False
  | .ret r => FirstFit s pages r
  | .endOfWord => NoRunBefore s pages (64 * (w + 1))

/-- The `int` position cannot overflow when the request or the bitmap is small. The scan
may leave the word in the middle of a rejected run. -/
theorem scanWord_exact (s : Manager) {pages w : ℕ} (fuel n : ℕ) (hpages : 0 < pages)
    (hsmall : min pages s.totalPages + 64 ≤ 2 ^ 31) (hw : 64 * w + 64 ≤ 2 ^ 64)
    (hfuel : 64 ≤ fuel + n) (hbefore : NoRunBefore s pages (64 * w + n)) :
    (scanWord s pages (64 * w) (load s.mem (s.bitmap + 8 * w) 8) fuel n).Exact s pages w := by
  have hleft : 64 ≤ n → NoRunBefore s pages (64 * (w + 1)) :=
    fun hn i hi => hbefore i (by omega)
  induction fuel generalizing n with
  | zero =>
    have hn : ¬ ((n : ℤ) < 64) := by omega
    rw [scanWord, if_neg hn]
    exact hleft (by omega)
  | succ fuel ih =>
    by_cases hn : n < 64
    swap
    · rw [scanWord, if_neg (by omega)]
      exact hleft (by omega)
    rw [scanWord, if_pos (by omega), scanIndex_eq (by omega)]
    dsimp only
    by_cases htot : s.totalPages ≤ 64 * w + n
    · rw [if_pos htot]
      exact hbefore.never htot hpages
    rw [if_neg htot, if_neg (by omega), Int.toNat_natCast, testBit_word s w n hn]
    by_cases hbit : bitmapGet s (64 * w + n) = true
    · rw [if_pos hbit]
      exact ih (n + 1) (by omega) (hbefore.used hpages hbit) fun _ i hi =>
        (hbefore.used hpages hbit) i (by omega)
    · rw [if_neg hbit]
      obtain ⟨k, hk, hle, hkp, hfree, hstop⟩ := extendRun_spec s pages s.totalPages 1
        (64 * w + n + 1) (by omega) (by omega) hpages
      rw [hk]
      by_cases hrun : 1 + k = pages
      · rw [if_pos hrun]
        refine hbefore.first ⟨by omega, fun p hp hlt => ?_⟩
        rcases Nat.eq_or_lt_of_le hp with rfl | hp
        · simpa using hbit
        · exact hfree p hp (by omega)
      · rw [if_neg hrun, toInt32_of_small (by omega) (by omega), if_neg (by omega)]
        have hskip := hbefore.skip (1 + k) (by omega) (by
          rw [show 64 * w + n + (1 + k) = 64 * w + n + 1 + k by omega]
          exact hstop.resolve_left hrun)
        have hcast : (n : ℤ) + ((1 + k : ℕ) : ℤ) + 1 = ((n + (1 + k) + 1 : ℕ) : ℤ) := by
          push_cast
          ring
        rw [hcast]
        exact ih _ (by omega) (fun i hi => hskip i (by omega)) fun _ i hi => hskip i (by omega)

theorem NoRunBefore.fullWord {s : Manager} {pages w : ℕ} (h : NoRunBefore s pages (64 * w))
    (hpages : 0 < pages) (hfull : load s.mem (s.bitmap + 8 * w) 8 = uint64Max) :
    NoRunBefore s pages (64 * (w + 1)) := by
  intro i hi hrun
  by_cases hlt : i < 64 * w
  · exact h i hlt hrun
  · have hbit := testBit_word s w (i - 64 * w) (by omega)
    rw [hfull, uint64Max, Nat.testBit_two_pow_sub_one, show 64 * w + (i - 64 * w) = i by omega,
      hrun.2 i le_rfl (by omega)] at hbit
    simp only [decide_eq_false_iff_not] at hbit
    omega

theorem scanWords_exact (s : Manager) {pages n w : ℕ} (hpages : 0 < pages)
    (hsmall : min pages s.totalPages + 64 ≤ 2 ^ 31) (hw : 64 * (w + n) ≤ 2 ^ 64)
    (hend : s.totalPages ≤ 64 * (w + n)) (hbefore : NoRunBefore s pages (64 * w)) :
    ∃ r, scanWords s pages n w (64 * w) = some r ∧ FirstFit s pages r := by
  induction n generalizing w with
  | zero => exact ⟨_, rfl, hbefore.never hend hpages⟩
  | succ n ih =>
    have hnext : 64 * w + 64 = 64 * (w + 1) := by ring
    have hgo : NoRunBefore s pages (64 * (w + 1)) →
        ∃ r, scanWords s pages n (w + 1) (64 * w + 64) = some r ∧ FirstFit s pages r := by
      intro h
      rw [hnext]
      exact ih (by omega) (by omega) h
    rw [scanWords]
    by_cases hfull : load s.mem (s.bitmap + 8 * w) 8 = uint64Max
    · rw [if_pos hfull]
      exact hgo (hbefore.fullWord hpages hfull)
    · have hscan := scanWord_exact s 64 0 hpages hsmall (w := w) (by omega) (by omega) hbefore
      rw [if_neg hfull]
      rw [Nat.cast_zero] at hscan
      generalize scanWord s pages (64 * w) (load s.mem (s.bitmap + 8 * w) 8) 64 0 = scan at hscan
      cases scan with
      | undefined => exact hscan.elim
      | ret r => exact ⟨r, rfl, hscan⟩
      | endOfWord => exact hgo hscan

theorem findFreeRun_exact (s : Manager) {pages : ℕ} (htotal : s.totalPages < 2 ^ 52)
    (hpages : 0 < pages) (hsmall : min pages s.totalPages + 64 ≤ 2 ^ 31) :
    ∃ r, findFreeRun s pages = some r ∧ FirstFit s pages r := by
  rw [findFreeRun, if_neg (by omega)]
  exact scanWords_exact s (w := 0) hpages hsmall (by omega) (by omega) fun i hi => by omega

/-- The search is exact: the least start of a free run, and `UINT64_MAX` without one. -/
theorem first_fit_search (s : Manager) (htotal : s.totalPages + 64 < 2 ^ 31) (pages : ℕ)
    (hpages : 1 ≤ pages) :
    (∀ i, findFreeRun s pages = some i ∧ i ≠ uint64Max ↔ IsLeast {i | FreeRun s i pages} i) ∧
    (findFreeRun s pages = some uint64Max ↔ ∀ i, ¬ FreeRun s i pages) := by
  obtain ⟨r, hr, hfit⟩ := findFreeRun_exact s (by omega) hpages (by omega)
  have hmax : ∀ i, FreeRun s i pages → i ≠ uint64Max := by
    intro i hi
    have hle := hi.1
    rw [uint64Max]
    omega
  simp only [hr, Option.some_inj]
  rcases hfit with ⟨rfl, hnone⟩ | hleast
  · refine ⟨fun i => ⟨fun h => absurd h.1.symm h.2, fun h => absurd h.1 (hnone i)⟩, ?_⟩
    exact ⟨fun _ => hnone, fun _ => rfl⟩
  · refine ⟨fun i => ⟨fun h => h.1 ▸ hleast, fun h => ⟨hleast.unique h, hmax i h.1⟩⟩, ?_⟩
    exact ⟨fun h => absurd h (hmax r hleast.1), fun h => absurd hleast.1 (h r)⟩

def tenPages : Manager where
  mem := fun a => if a = 0 then 0x15 else 0
  bitmap := 0
  bitmapPages := 1
  totalPages := 10
  freePages := 7
  totalMemory := 40960
  bitmapPhys := 0
  framesStack := 8
  stackTop := 0

theorem first_fit_search_tenPages :
    1 ≤ 3 ∧ findFreeRun tenPages 3 = some 5 ∧ findFreeRun tenPages 6 = some uint64Max := by
  have hleast : IsLeast {i | FreeRun tenPages i 3} 5 := by
    refine ⟨by decide, fun i hi => ?_⟩
    by_contra hlt
    have hbelow : ∀ i < 5, ¬ FreeRun tenPages i 3 := by decide
    exact hbelow i (by omega) hi
  have hnone : ∀ i, ¬ FreeRun tenPages i 6 := by
    intro i hi
    have hend : i + 6 ≤ 10 := hi.1
    have hbelow : ∀ i < 5, ¬ FreeRun tenPages i 6 := by decide
    exact hbelow i (by omega) hi
  have htotal : tenPages.totalPages + 64 < 2 ^ 31 := by decide
  exact ⟨by decide, (((first_fit_search tenPages htotal 3 (by decide)).1 5).mpr hleast).1,
    (first_fit_search tenPages htotal 6 (by decide)).2.mpr hnone⟩

end XldKernel.Pmm
