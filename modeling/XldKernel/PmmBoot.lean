import XldKernel.PmmCounter

/-!
# The bitmap that `pmm_init` builds

The usable regions are marked free page by page, then the pages of the bitmap, of the
frame cache and of the kernel are marked used. The cache starts where the bitmap ends,
in the middle of a page in general; its last page is then counted to the region behind
it, which starts in the same page.
-/

namespace XldKernel.Pmm
open ByteMemory

def MemmapEntry.Pages (e : MemmapEntry) (q : ℕ) : Prop :=
  e.base / pmmPageSize ≤ q ∧ q < (e.base + e.length) / pmmPageSize

instance (e : MemmapEntry) (q : ℕ) : Decidable (e.Pages q) := inferInstanceAs (Decidable (_ ∧ _))

def UsablePage (mmap : List MemmapEntry) (q : ℕ) : Prop :=
  ∃ e ∈ mmap, e.type = .usable ∧ e.Pages q

variable {s : Manager} {mmap : List MemmapEntry}

theorem bitmapGet_recount (s : Manager) (count q : ℕ) :
    bitmapGet { s with freePages := count } q = bitmapGet s q := rfl

theorem exact_recount {count : ℕ} (h : count = freeCount s) :
    Exact { s with freePages := count } := h

theorem bitmapGet_freeRange (s : Manager) (pg n q : ℕ) :
    bitmapGet (freeRange s pg n) q = if pg ≤ q ∧ q < pg + n then false else bitmapGet s q := by
  induction n generalizing s pg with
  | zero =>
    have hq : ¬ (pg ≤ q ∧ q < pg + 0) := by omega
    simp only [freeRange, hq, if_false]
  | succ n ih =>
    rw [freeRange, ih, bitmapGet_recount, bitmapGet_bitmapSet]
    by_cases hq : q = pg
    · simp [hq]
    · have hiff : (pg + 1 ≤ q ∧ q < pg + 1 + n) ↔ (pg ≤ q ∧ q < pg + (n + 1)) := by omega
      simp only [hq, if_false, hiff]

theorem freeRange_freePages (pg n : ℕ) (hlt : s.freePages < 2 ^ 64) :
    (freeRange s pg n).freePages = (s.freePages + n) % 2 ^ 64 := by
  induction n generalizing s pg with
  | zero => exact (Nat.mod_eq_of_lt hlt).symm
  | succ n ih =>
    have hone : (bitmapSet s pg false).freePages = s.freePages := rfl
    rw [freeRange, ih (pg + 1) (Nat.mod_lt _ (by decide))]
    dsimp only
    rw [hone]
    omega

theorem exact_freeRange (hlt : s.totalPages < 2 ^ 52) (hexact : Exact s) {pg n : ℕ}
    (hend : pg + n ≤ s.totalPages) (hmark : ∀ q, pg ≤ q → q < pg + n → bitmapGet s q = true) :
    Exact (freeRange s pg n) := by
  have hcard := card_clearBits_clear hend hmark fun q _ => bitmapGet_freeRange s pg n q
  have hle := hexact.le
  have hold : s.freePages = (clearBits s.totalPages (bitmapGet s)).card := hexact
  have hnew := freeRange_freePages (s := s) pg n (by omega)
  change (freeRange s pg n).freePages =
    (clearBits (freeRange s pg n).totalPages (bitmapGet (freeRange s pg n))).card
  rw [(freeRange_shape s pg n).1.totalPages, hnew, hcard]
  omega

theorem bitmapGet_reserveRange (s : Manager) (pg n q : ℕ) :
    bitmapGet (reserveRange s pg n) q = if pg ≤ q ∧ q < pg + n then true else bitmapGet s q := by
  induction n generalizing s pg with
  | zero =>
    have hq : ¬ (pg ≤ q ∧ q < pg + 0) := by omega
    simp only [reserveRange, hq, if_false]
  | succ n ih =>
    have hiff : q ≠ pg → ((pg + 1 ≤ q ∧ q < pg + 1 + n) ↔ (pg ≤ q ∧ q < pg + (n + 1))) := by omega
    rw [reserveRange]
    split_ifs with hget hin hin
    · rw [ih]
      by_cases hq : q = pg
      · simp [hq, hget]
      · rw [if_pos ((hiff hq).mpr hin)]
    · rw [ih, if_neg fun h => hin ⟨by omega, by omega⟩]
    · rw [ih, bitmapGet_recount, bitmapGet_bitmapSet]
      by_cases hq : q = pg
      · simp [hq]
      · rw [if_pos ((hiff hq).mpr hin)]
    · rw [ih, bitmapGet_recount, bitmapGet_bitmapSet, if_neg fun h => hin ⟨by omega, by omega⟩,
        if_neg fun h => hin (by omega)]

theorem exact_reservePage (hlt : s.totalPages < 2 ^ 52) (hexact : Exact s) {pg : ℕ}
    (hpg : pg < s.totalPages) (hget : bitmapGet s pg = false) :
    Exact { bitmapSet s pg true with
      freePages := sub64 (bitmapSet s pg true).freePages 1 } := by
  have hbits : ∀ q < s.totalPages, bitmapGet (bitmapSet s pg true) q =
      if pg ≤ q ∧ q < pg + 1 then true else bitmapGet s q := fun q _ => by
    have hone : (q = pg) = (pg ≤ q ∧ q < pg + 1) := by
      rw [eq_iff_iff]
      omega
    rw [bitmapGet_bitmapSet]
    simp only [hone]
  have hcard := card_clearBits_mark hpg (fun q h1 h2 => by rwa [show q = pg by omega]) hbits
  have hle := hexact.le
  have hold : s.freePages = (clearBits s.totalPages (bitmapGet s)).card := hexact
  have hsame : (bitmapSet s pg true).freePages = s.freePages := rfl
  apply exact_recount
  rw [hsame, sub64_eq (by omega) (by omega)]
  change s.freePages - 1 = (clearBits s.totalPages (bitmapGet (bitmapSet s pg true))).card
  omega

theorem exact_reserveRange (hlt : s.totalPages < 2 ^ 52) (hexact : Exact s) {pg n : ℕ}
    (hend : pg + n ≤ s.totalPages) : Exact (reserveRange s pg n) := by
  induction n generalizing s pg with
  | zero => exact hexact
  | succ n ih =>
    rw [reserveRange]
    by_cases hget : bitmapGet s pg = true
    · rw [if_pos hget]
      exact ih hlt hexact (by omega)
    · rw [if_neg hget]
      have hpage := exact_reservePage hlt hexact (show pg < s.totalPages by omega)
        (by simpa using hget)
      have hsame : (bitmapSet s pg true).totalPages = s.totalPages := rfl
      generalize bitmapSet s pg true = t at hpage hsame ⊢
      refine ih ?_ hpage ?_ <;> dsimp only <;> omega

theorem highestEnd_ge_start (highest : ℕ) (mmap : List MemmapEntry) :
    highest ≤ highestEnd highest mmap := by
  induction mmap generalizing highest with
  | nil => exact le_rfl
  | cons e es ih =>
    rw [highestEnd]
    refine le_trans ?_ (ih _)
    split_ifs with h
    · exact h.2.le
    · exact le_rfl

theorem highestEnd_ge {e : MemmapEntry} (he : e ∈ mmap) (husable : e.type = .usable) (highest : ℕ) :
    (e.base + e.length) % 2 ^ 64 ≤ highestEnd highest mmap := by
  induction mmap generalizing highest with
  | nil => simp at he
  | cons f es ih =>
    rw [highestEnd]
    rcases List.mem_cons.mp he with rfl | he
    · refine le_trans ?_ (highestEnd_ge_start _ es)
      split_ifs with h
      · exact le_rfl
      · simp only [husable, MemmapType.counted, true_and] at h
        omega
    · exact ih he _

structure Markable (s : Manager) (mmap : List MemmapEntry) : Prop where
  apart : mmap.Pairwise fun e f => e.type = .usable → f.type = .usable →
    ∀ q, e.Pages q → ¬ f.Pages q
  fits : ∀ e ∈ mmap, e.type = .usable → e.base + e.length < 2 ^ 64 ∧
    (e.base + e.length) / pmmPageSize ≤ s.totalPages
  marked : ∀ e ∈ mmap, e.type = .usable → ∀ q, e.Pages q → bitmapGet s q = true

theorem freeEntry_spec (hlt : s.totalPages < 2 ^ 52) (hexact : Exact s) {e : MemmapEntry}
    (hfits : e.base + e.length < 2 ^ 64) (htotal : (e.base + e.length) / pmmPageSize ≤ s.totalPages)
    (hmarked : ∀ q, e.Pages q → bitmapGet s q = true) {t : Manager}
    (ht : t = freeRange s (e.base / pmmPageSize)
      ((e.base + e.length) % 2 ^ 64 / pmmPageSize - e.base / pmmPageSize)) :
    t.totalPages = s.totalPages ∧ Exact t ∧
      ∀ q, bitmapGet t q = if e.Pages q then false else bitmapGet s q := by
  have hbase : e.base / pmmPageSize ≤ (e.base + e.length) / pmmPageSize :=
    Nat.div_le_div_right (by omega)
  rw [Nat.mod_eq_of_lt hfits] at ht
  have hpages : ∀ q, e.Pages q ↔ e.base / pmmPageSize ≤ q ∧ q < e.base / pmmPageSize +
      ((e.base + e.length) / pmmPageSize - e.base / pmmPageSize) := fun q => by
    rw [MemmapEntry.Pages]
    omega
  subst ht
  refine ⟨(freeRange_shape _ _ _).1.totalPages, exact_freeRange hlt hexact (by omega)
    fun q h1 h2 => hmarked q ((hpages q).mpr ⟨h1, h2⟩), fun q => ?_⟩
  rw [bitmapGet_freeRange]
  exact if_congr (hpages q).symm rfl rfl

theorem freeUsable_spec (hlt : s.totalPages < 2 ^ 52) (hexact : Exact s) (h : Markable s mmap) :
    Exact (freeUsable s mmap) ∧
      ∀ q, bitmapGet (freeUsable s mmap) q = false ↔ bitmapGet s q = false ∨ UsablePage mmap q := by
  induction mmap generalizing s with
  | nil => exact ⟨hexact, fun q => by simp [freeUsable, UsablePage]⟩
  | cons e es ih =>
    obtain ⟨hhead, hrest⟩ := List.pairwise_cons.mp h.apart
    have hcons : ∀ q, UsablePage (e :: es) q ↔ (e.type = .usable ∧ e.Pages q) ∨ UsablePage es q :=
      fun q => by simp only [UsablePage, List.exists_mem_cons_iff]
    rw [freeUsable]
    by_cases husable : e.type = .usable
    · rw [if_pos husable]
      dsimp only
      generalize ht : freeRange s _ _ = t
      obtain ⟨hfits, htotal⟩ := h.fits e List.mem_cons_self husable
      obtain ⟨hsame, hex, hbits⟩ := freeEntry_spec hlt hexact hfits htotal
        (h.marked e List.mem_cons_self husable) ht.symm
      have hleft : Markable t es := by
        refine ⟨hrest, fun f hf hu => ?_, fun f hf hu q hq => ?_⟩
        · rw [hsame]
          exact h.fits f (List.mem_cons_of_mem _ hf) hu
        · rw [hbits, if_neg fun he => hhead f hf husable hu q he hq]
          exact h.marked f (List.mem_cons_of_mem _ hf) hu q hq
      obtain ⟨hex', hbits'⟩ := ih (hsame ▸ hlt) hex hleft
      refine ⟨hex', fun q => ?_⟩
      rw [hbits', hbits, hcons]
      by_cases he : e.Pages q
      · simp [he, husable]
      · simp [he]
    · rw [if_neg husable]
      obtain ⟨hex', hbits'⟩ := ih hlt hexact ⟨hrest,
        fun f hf => h.fits f (List.mem_cons_of_mem _ hf),
        fun f hf => h.marked f (List.mem_cons_of_mem _ hf)⟩
      refine ⟨hex', fun q => ?_⟩
      rw [hbits', hcons]
      simp [husable]

def LongEnough (needed : ℕ) (e : MemmapEntry) : Prop := e.type = .usable ∧ needed ≤ e.length

instance (needed : ℕ) (e : MemmapEntry) : Decidable (LongEnough needed e) :=
  inferInstanceAs (Decidable (_ ∧ _))

def MemmapEntry.drop (needed : ℕ) (e : MemmapEntry) : MemmapEntry :=
  { e with base := (e.base + needed) % 2 ^ 64, length := e.length - needed }

theorem chooseEntry_eq (needed : ℕ) (mmap : List MemmapEntry) {e : MemmapEntry}
    (h : mmap.find? (fun e => LongEnough needed e) = some e) :
    ∃ front back, mmap = front ++ e :: back ∧ LongEnough needed e ∧
      chooseEntry needed mmap = some (e.base, front ++ e.drop needed :: back) := by
  induction mmap with
  | nil => simp at h
  | cons f es ih =>
    rw [List.find?_cons] at h
    by_cases hf : LongEnough needed f
    · simp only [hf, decide_true, Option.some.injEq] at h
      subst h
      exact ⟨[], es, rfl, hf, if_pos hf⟩
    · simp only [hf, decide_false] at h
      obtain ⟨front, back, rfl, he, heq⟩ := ih h
      have hshort : ¬ (f.type = .usable ∧ needed ≤ f.length) := hf
      refine ⟨f :: front, back, rfl, he, ?_⟩
      rw [chooseEntry, if_neg hshort, heq]
      rfl

theorem usablePage_split (front back : List MemmapEntry) (e : MemmapEntry) (q : ℕ) :
    UsablePage (front ++ e :: back) q ↔
      UsablePage (front ++ back) q ∨ e.type = .usable ∧ e.Pages q := by
  simp only [UsablePage, List.mem_append, List.mem_cons]
  constructor
  · rintro ⟨f, hf | rfl | hf, h⟩
    · exact Or.inl ⟨f, Or.inl hf, h⟩
    · exact Or.inr h
    · exact Or.inl ⟨f, Or.inr hf, h⟩
  · rintro (⟨f, hf | hf, h⟩ | h)
    · exact ⟨f, Or.inl hf, h⟩
    · exact ⟨f, Or.inr (Or.inr hf), h⟩
    · exact ⟨e, Or.inr (Or.inl rfl), h⟩

/-- A boot loader's map: the usable entries are page-aligned ranges of addresses that do
not meet and do not contain page 0. -/
structure GoodMap (mmap : List MemmapEntry) : Prop where
  aligned : ∀ e ∈ mmap, e.type = .usable → pmmPageSize ∣ e.base ∧ pmmPageSize ∣ e.length
  fits : ∀ e ∈ mmap, e.type = .usable → e.base + e.length < 2 ^ 64
  apart : mmap.Pairwise fun e f => e.type = .usable → f.type = .usable →
    ∀ x, e.base ≤ x → x < e.base + e.length → ¬ (f.base ≤ x ∧ x < f.base + f.length)
  notZero : ∀ e ∈ mmap, e.type = .usable → ¬ (e.base = 0 ∧ 0 < e.length)

theorem MemmapEntry.pages_iff {e : MemmapEntry} (hbase : pmmPageSize ∣ e.base)
    (hlength : pmmPageSize ∣ e.length) (q : ℕ) :
    e.Pages q ↔ e.base ≤ q * pmmPageSize ∧ q * pmmPageSize < e.base + e.length := by
  simp only [MemmapEntry.Pages, pmmPageSize] at *
  omega

theorem GoodMap.pages_apart (h : GoodMap mmap) :
    mmap.Pairwise fun e f => e.type = .usable → f.type = .usable → ∀ q, e.Pages q →
      ¬ f.Pages q := by
  refine h.apart.imp_of_mem fun he hf hapart heu hfu q heq hfq => ?_
  rw [MemmapEntry.pages_iff (h.aligned _ he heu).1 (h.aligned _ he heu).2] at heq
  rw [MemmapEntry.pages_iff (h.aligned _ hf hfu).1 (h.aligned _ hf hfu).2] at hfq
  exact hapart heu hfu _ heq.1 heq.2 hfq

theorem drop_pages {e : MemmapEntry} {needed : ℕ} (hfits : e.base + e.length < 2 ^ 64)
    (hlong : needed ≤ e.length) (q : ℕ) :
    (e.drop needed).base + (e.drop needed).length = e.base + e.length ∧
      ((e.drop needed).Pages q ↔
        (e.base + needed) / pmmPageSize ≤ q ∧ q < (e.base + e.length) / pmmPageSize) := by
  have hbase : (e.drop needed).base = e.base + needed := Nat.mod_eq_of_lt (by omega)
  have hsum : (e.drop needed).base + (e.drop needed).length = e.base + e.length := by
    rw [hbase]
    change e.base + needed + (e.length - needed) = _
    omega
  rw [MemmapEntry.Pages, hsum, hbase]
  exact ⟨rfl, Iff.rfl⟩

theorem drop_pages_sub {e : MemmapEntry} {needed : ℕ} (hfits : e.base + e.length < 2 ^ 64)
    (hlong : needed ≤ e.length) {q : ℕ} (h : (e.drop needed).Pages q) : e.Pages q := by
  rw [(drop_pages hfits hlong q).2] at h
  exact ⟨(Nat.div_le_div_right (by omega)).trans h.1, h.2⟩

theorem pairwise_replace {α : Type*} {R : α → α → Prop} {front back : List α} {a b : α}
    (h : (front ++ a :: back).Pairwise R) (hleft : ∀ x, R x a → R x b)
    (hright : ∀ x, R a x → R b x) : (front ++ b :: back).Pairwise R := by
  simp only [List.pairwise_append, List.pairwise_cons, List.mem_cons, forall_eq_or_imp] at h ⊢
  exact ⟨h.1, ⟨fun x hx => hright x (h.2.1.1 x hx), h.2.1.2⟩,
    fun x hx => ⟨hleft x (h.2.2 x hx).1, (h.2.2 x hx).2⟩⟩

def bootPages (mmap : List MemmapEntry) : ℕ := highestEnd 0 mmap / pmmPageSize

def bootBitmapBytes (mmap : List MemmapEntry) : ℕ := (bootPages mmap + 7) / 8

def bootBytes (mmap : List MemmapEntry) : ℕ := bootBitmapBytes mmap + framesStackPages * pmmPageSize

theorem bootBytes_eq (mmap : List MemmapEntry) : bootBytes mmap = bootBitmapBytes mmap + 8192 := rfl

def bootEntry (mmap : List MemmapEntry) : Option MemmapEntry :=
  mmap.find? fun e => LongEnough (bootBytes mmap) e

def InMetadata (s : Manager) (q : ℕ) : Prop :=
  q * pmmPageSize < s.bitmapPhys + (s.totalPages + 7) / 8 + 2 * pmmPageSize ∧
    s.bitmapPhys < q * pmmPageSize + pmmPageSize

def InKernel (q : ℕ) : Prop :=
  q * pmmPageSize < kernelEnd ∧ kernelStart < q * pmmPageSize + pmmPageSize

instance (q : ℕ) : Decidable (InKernel q) := inferInstanceAs (Decidable (_ ∧ _))

def RightBitmap (mmap : List MemmapEntry) (s : Manager) : Prop :=
  (∀ q < s.totalPages, bitmapGet s q = false ↔
    (∃ e ∈ mmap, e.type = .usable ∧ e.base ≤ q * pmmPageSize ∧
      q * pmmPageSize + pmmPageSize ≤ e.base + e.length) ∧ ¬ InMetadata s q ∧ ¬ InKernel q) ∧
  s.freePages = freeCount s

/-- The bitmap fills its last page, or the page in which the cache ends is the kernel's. -/
def MetadataFits (mmap : List MemmapEntry) (e : MemmapEntry) : Prop :=
  bootBitmapBytes mmap % pmmPageSize = 0 ∨ InKernel ((e.base + bootBytes mmap) / pmmPageSize)

theorem GoodMap.end_le (h : GoodMap mmap) {e : MemmapEntry} (he : e ∈ mmap)
    (husable : e.type = .usable) : (e.base + e.length) / pmmPageSize ≤ bootPages mmap := by
  have hge := highestEnd_ge he husable 0
  rw [Nat.mod_eq_of_lt (h.fits e he husable)] at hge
  exact Nat.div_le_div_right hge

structure Blank (mmap : List MemmapEntry) (base : ℕ) (s : Manager) : Prop where
  totalPages : s.totalPages = bootPages mmap
  bitmapPhys : s.bitmapPhys = base
  freePages : s.freePages = 0
  marked : ∀ q < s.totalPages, bitmapGet s q = true

theorem Blank.exact {base : ℕ} (h : Blank mmap base s) : Exact s := by
  have hnone : clearBits s.totalPages (bitmapGet s) = ∅ := by
    rw [Finset.eq_empty_iff_forall_notMem]
    intro q hq
    rw [mem_clearBits] at hq
    rw [h.marked q hq.1] at hq
    exact absurd hq.2 (by decide)
  rw [Exact, freeCount, hnone, h.freePages]
  rfl

theorem pmmInit_eq (mmap : List MemmapEntry) (mem : Mem) {front back : List MemmapEntry}
    {e : MemmapEntry} (hchoose : chooseEntry (bootBytes mmap) mmap =
      some (e.base, front ++ e.drop (bootBytes mmap) :: back)) (hzero : e.base ≠ 0)
    (hfits : e.base + bootBytes mmap < 2 ^ 64) :
    ∃ s, Blank mmap e.base s ∧ pmmInit (some mmap) mem = some
      (reserveRange (reserveRange (reserveRange
        (freeUsable s (front ++ e.drop (bootBytes mmap) :: back))
        (e.base / pmmPageSize)
          ((e.base + bootBitmapBytes mmap + pmmPageSize - 1) / pmmPageSize - e.base / pmmPageSize))
        ((e.base + bootBitmapBytes mmap) / pmmPageSize)
          ((e.base + bootBytes mmap) / pmmPageSize - (e.base + bootBitmapBytes mmap) / pmmPageSize))
        (kernelStart / pmmPageSize)
          ((kernelEnd + pmmPageSize - 1) / pmmPageSize - kernelStart / pmmPageSize)) := by
  have hbytes := bootBytes_eq mmap
  have hstack : (e.base + bootBitmapBytes mmap) % 2 ^ 64 = e.base + bootBitmapBytes mmap :=
    Nat.mod_eq_of_lt (by omega)
  have hbm : (e.base + bootBitmapBytes mmap + pmmPageSize - 1) % 2 ^ 64 =
      e.base + bootBitmapBytes mmap + pmmPageSize - 1 :=
    Nat.mod_eq_of_lt (by rw [pmmPageSize]; omega)
  have hfs : (e.base + bootBitmapBytes mmap + framesStackPages * pmmPageSize) % 2 ^ 64 =
      e.base + bootBytes mmap := by
    rw [Nat.add_assoc, ← bootBytes, Nat.mod_eq_of_lt hfits]
  rw [bootBytes, bootBitmapBytes, bootPages] at hchoose
  rw [pmmInit]
  dsimp only
  rw [hchoose]
  dsimp only
  rw [if_neg hzero, ← bootPages, ← bootBitmapBytes, ← bootBytes, hstack, hbm, hfs]
  refine ⟨_, ⟨rfl, rfl, rfl, fun q hq => ?_⟩, rfl⟩
  have hbyte : q / 8 < bootBitmapBytes mmap := by
    simp only [bootBitmapBytes, bootPages] at hq ⊢
    omega
  rw [bitmapGet]
  dsimp only
  rw [fill_inside mem ⟨by omega, by omega⟩]
  exact getBit_full (Nat.mod_lt _ (by decide))

theorem freeRange_bitmapPhys (s : Manager) (pg n : ℕ) :
    (freeRange s pg n).bitmapPhys = s.bitmapPhys := by
  induction n generalizing s pg with
  | zero => rfl
  | succ n ih =>
    rw [freeRange, ih]
    rfl

theorem freeUsable_bitmapPhys (s : Manager) (mmap : List MemmapEntry) :
    (freeUsable s mmap).bitmapPhys = s.bitmapPhys := by
  induction mmap generalizing s with
  | nil => rfl
  | cons e es ih =>
    rw [freeUsable]
    split_ifs
    · rw [ih, freeRange_bitmapPhys]
    · exact ih s

theorem reserveRange_bitmapPhys (s : Manager) (pg n : ℕ) :
    (reserveRange s pg n).bitmapPhys = s.bitmapPhys := by
  induction n generalizing s pg with
  | zero => rfl
  | succ n ih =>
    rw [reserveRange]
    split_ifs
    · exact ih s _
    · rw [ih]
      rfl

structure Booted (mmap : List MemmapEntry) (e : MemmapEntry) (s : Manager) : Prop where
  totalPages : s.totalPages = bootPages mmap
  bitmapPhys : s.bitmapPhys = e.base
  exact : Exact s
  clear : ∀ q < s.totalPages, bitmapGet s q = false ↔ UsablePage mmap q ∧
    (e.Pages q → (e.base + bootBytes mmap) / pmmPageSize ≤ q) ∧ ¬ InKernel q

theorem inKernel_iff (q : ℕ) : InKernel q ↔ 256 ≤ q ∧ q < 512 := by
  simp only [InKernel, kernelEnd, kernelStart, pmmPageSize]
  omega

theorem usablePage_drop {front back : List MemmapEntry} {e : MemmapEntry} {needed : ℕ}
    (hgood : GoodMap (front ++ e :: back)) (husable : e.type = .usable)
    (hlong : needed ≤ e.length) (q : ℕ) :
    UsablePage (front ++ e.drop needed :: back) q ↔
      UsablePage (front ++ e :: back) q ∧ (e.Pages q → (e.base + needed) / pmmPageSize ≤ q) := by
  have hpages := (drop_pages (hgood.fits e (by simp) husable) hlong q).2
  have hdrop : (e.drop needed).type = .usable := husable
  have hrest : UsablePage (front ++ back) q → ¬ e.Pages q := by
    rintro ⟨f, hf, hfu, hfq⟩ heq
    obtain ⟨-, hback, hfront⟩ := List.pairwise_append.mp hgood.pages_apart
    rcases List.mem_append.mp hf with hf | hf
    · exact hfront f hf e List.mem_cons_self hfu husable q hfq heq
    · exact (List.pairwise_cons.mp hback).1 f hf husable hfu q heq hfq
  rw [usablePage_split, usablePage_split, hpages]
  constructor
  · rintro (h | ⟨-, h⟩)
    · exact ⟨Or.inl h, fun he => absurd he (hrest h)⟩
    · exact ⟨Or.inr ⟨husable, (Nat.div_le_div_right (by omega)).trans h.1, h.2⟩, fun _ => h.1⟩
  · rintro ⟨h | ⟨-, h⟩, hbound⟩
    · exact Or.inl h
    · exact Or.inr ⟨hdrop, hbound h, h.2⟩

theorem Blank.markable {front back : List MemmapEntry} {e : MemmapEntry} {needed base : ℕ}
    (h : Blank mmap base s) (hsplit : mmap = front ++ e :: back) (hgood : GoodMap mmap)
    (husable : e.type = .usable) (hlong : needed ≤ e.length) :
    Markable s (front ++ e.drop needed :: back) := by
  have hend : ∀ f ∈ mmap, f.type = .usable → (f.base + f.length) / pmmPageSize ≤ s.totalPages := by
    intro f hf hfu
    rw [h.totalPages]
    exact hgood.end_le hf hfu
  have hmem : e ∈ mmap := by simp [hsplit]
  have hfits := hgood.fits e hmem husable
  have hsum := (drop_pages hfits hlong 0).1
  have hsub := fun q => drop_pages_sub (q := q) hfits hlong
  have hother : ∀ f ∈ front ++ e.drop needed :: back, f ∈ mmap ∨ f = e.drop needed := by
    intro f hf
    simp only [hsplit, List.mem_append, List.mem_cons] at hf ⊢
    tauto
  have hbounds : ∀ f ∈ front ++ e.drop needed :: back, f.type = .usable →
      f.base + f.length < 2 ^ 64 ∧ (f.base + f.length) / pmmPageSize ≤ s.totalPages := by
    intro f hf hfu
    rcases hother f hf with hf | rfl
    · exact ⟨hgood.fits f hf hfu, hend f hf hfu⟩
    · rw [hsum]
      exact ⟨hfits, hend e hmem husable⟩
  refine ⟨?_, hbounds, fun f hf hfu q hq => h.marked q (hq.2.trans_le (hbounds f hf hfu).2)⟩
  have hapart := hgood.pages_apart
  rw [hsplit] at hapart
  exact pairwise_replace hapart (fun f hfe hfu _ q hfq hdq => hfe hfu husable q hfq (hsub q hdq))
    fun f hef _ hfu q hdq hfq => hef husable hfu q (hsub q hdq) hfq

theorem reserveRange_spec (hlt : s.totalPages < 2 ^ 52) (hexact : Exact s) {lo hi : ℕ}
    (hend : hi ≤ s.totalPages) {t : Manager} (ht : t = reserveRange s lo (hi - lo)) :
    t.totalPages = s.totalPages ∧ t.bitmapPhys = s.bitmapPhys ∧ Exact t ∧
      ∀ q, bitmapGet t q = false ↔ bitmapGet s q = false ∧ ¬ (lo ≤ q ∧ q < hi) := by
  subst ht
  refine ⟨(reserveRange_shape _ _ _).1.totalPages, reserveRange_bitmapPhys _ _ _, ?_, fun q => ?_⟩
  · by_cases h : lo ≤ hi
    · exact exact_reserveRange hlt hexact (by omega)
    · rw [show hi - lo = 0 by omega]
      exact hexact
  · have hiff : (lo ≤ q ∧ q < lo + (hi - lo)) ↔ (lo ≤ q ∧ q < hi) := by omega
    rw [bitmapGet_reserveRange]
    by_cases hin : lo ≤ q ∧ q < hi
    · simp [hin, hiff.mpr hin]
    · rw [if_neg fun h => hin (hiff.mp h)]
      simp [hin]

theorem pmmInit_booted (mem : Mem) (hgood : GoodMap mmap) (htotal : 512 ≤ bootPages mmap)
    {e : MemmapEntry} (hentry : bootEntry mmap = some e) :
    ∃ s, pmmInit (some mmap) mem = some s ∧ Booted mmap e s := by
  obtain ⟨front, back, hsplit, ⟨husable, hlong⟩, hchoose⟩ := chooseEntry_eq _ _ hentry
  have hmem : e ∈ mmap := by simp [hsplit]
  have hfits := hgood.fits e hmem husable
  have hbytes := bootBytes_eq mmap
  have hzero : e.base ≠ 0 := fun h => hgood.notZero e hmem husable ⟨h, by omega⟩
  obtain ⟨s, hblank, hinit⟩ := pmmInit_eq mmap mem hchoose hzero (by omega)
  have hmarkable := hblank.markable hsplit hgood husable hlong
  have hlt : s.totalPages < 2 ^ 52 := by
    have hhigh := highestEnd_lt mmap (show 0 < 2 ^ 64 by decide)
    rw [hblank.totalPages, bootPages, pmmPageSize]
    omega
  have hdrop := fun q => usablePage_drop (hsplit ▸ hgood) husable hlong q
  rw [← hsplit] at hdrop
  have hend : (e.base + e.length) / pmmPageSize ≤ s.totalPages := by
    rw [hblank.totalPages]
    exact hgood.end_le hmem husable
  obtain ⟨hex₁, hbits₁⟩ := freeUsable_spec hlt hblank.exact hmarkable
  have hsame₁ := (freeUsable_shape s (front ++ e.drop (bootBytes mmap) :: back)).1.totalPages
  have hphys₁ := freeUsable_bitmapPhys s (front ++ e.drop (bootBytes mmap) :: back)
  generalize freeUsable s _ = s₁ at hinit hex₁ hbits₁ hsame₁ hphys₁
  have hle : (e.base + bootBytes mmap) / pmmPageSize ≤ (e.base + e.length) / pmmPageSize :=
    Nat.div_le_div_right (by omega)
  have hlebm : (e.base + bootBitmapBytes mmap + pmmPageSize - 1) / pmmPageSize ≤
      (e.base + bootBytes mmap) / pmmPageSize :=
    Nat.div_le_div_right (by rw [pmmPageSize]; omega)
  have hlow : e.base / pmmPageSize ≤ (e.base + bootBitmapBytes mmap) / pmmPageSize :=
    Nat.div_le_div_right (by omega)
  generalize ht₂ : reserveRange s₁ _ _ = s₂ at hinit
  obtain ⟨hsame₂, hphys₂, hex₂, hbits₂⟩ := reserveRange_spec (hsame₁ ▸ hlt) hex₁ (by omega) ht₂.symm
  generalize ht₃ : reserveRange s₂ _ _ = s₃ at hinit
  obtain ⟨hsame₃, hphys₃, hex₃, hbits₃⟩ := reserveRange_spec (by omega) hex₂ (by omega) ht₃.symm
  generalize ht₄ : reserveRange s₃ _ _ = s₄ at hinit
  have hkernel : (kernelEnd + pmmPageSize - 1) / pmmPageSize = 512 := by decide
  obtain ⟨hsame₄, hphys₄, hex₄, hbits₄⟩ := reserveRange_spec (by omega) hex₃
    (by have := hblank.totalPages; omega) ht₄.symm
  refine ⟨s₄, hinit, ?_, ?_, hex₄, fun q hq => ?_⟩
  · rw [hsame₄, hsame₃, hsame₂, hsame₁, hblank.totalPages]
  · rw [hphys₄, hphys₃, hphys₂, hphys₁, hblank.bitmapPhys]
  have hset : bitmapGet s q = true := hblank.marked q (by omega)
  have hks : kernelStart / pmmPageSize = 256 := by decide
  rw [hbits₄, hbits₃, hbits₂, hbits₁, hdrop, inKernel_iff, hkernel, hks, hset]
  simp only [MemmapEntry.Pages, Bool.true_eq_false, false_or]
  constructor
  · rintro ⟨⟨⟨⟨h1, h2⟩, h3⟩, h4⟩, h5⟩
    exact ⟨h1, h2, h5⟩
  · rintro ⟨h1, h2, h5⟩
    refine ⟨⟨⟨⟨h1, h2⟩, fun h => ?_⟩, fun h => ?_⟩, h5⟩
    · have := h2 ⟨h.1, by omega⟩
      omega
    · have := h2 ⟨by omega, by omega⟩
      omega

theorem GoodMap.usablePage_iff (h : GoodMap mmap) (q : ℕ) :
    UsablePage mmap q ↔ ∃ e ∈ mmap, e.type = .usable ∧ e.base ≤ q * pmmPageSize ∧
      q * pmmPageSize + pmmPageSize ≤ e.base + e.length := by
  refine exists_congr fun e => and_congr_right fun he => and_congr_right fun hu => ?_
  obtain ⟨hbase, hlength⟩ := h.aligned e he hu
  simp only [MemmapEntry.Pages, pmmPageSize] at *
  omega

/-- The pages of the chosen entry that the metadata overlaps are those before the page
in which the cache ends, and this page if the cache ends inside it. -/
theorem Booted.inMetadata_iff {e : MemmapEntry} (h : Booted mmap e s) (hbase : pmmPageSize ∣ e.base)
    (q : ℕ) : InMetadata s q ↔ e.base / pmmPageSize ≤ q ∧
      (q < (e.base + bootBytes mmap) / pmmPageSize ∨
        q = (e.base + bootBytes mmap) / pmmPageSize ∧ bootBitmapBytes mmap % pmmPageSize ≠ 0) := by
  have hbytes := bootBytes_eq mmap
  have hbitmap : (s.totalPages + 7) / 8 = bootBitmapBytes mmap := by
    rw [h.totalPages, bootBitmapBytes]
  rw [InMetadata, hbitmap, h.bitmapPhys]
  simp only [pmmPageSize] at *
  omega

theorem Booted.right_iff {e : MemmapEntry} (h : Booted mmap e s) (hgood : GoodMap mmap)
    (hentry : bootEntry mmap = some e) : RightBitmap mmap s ↔ MetadataFits mmap e := by
  obtain ⟨front, back, hsplit, ⟨husable, hlong⟩, -⟩ := chooseEntry_eq _ _ hentry
  have hmem : e ∈ mmap := by simp [hsplit]
  obtain ⟨hbase, hlength⟩ := hgood.aligned e hmem husable
  have hmeta := h.inMetadata_iff hbase
  have hle : (e.base + bootBytes mmap) / pmmPageSize ≤ (e.base + e.length) / pmmPageSize :=
    Nat.div_le_div_right (by omega)
  have hlow : e.base / pmmPageSize ≤ (e.base + bootBytes mmap) / pmmPageSize :=
    Nat.div_le_div_right (by omega)
  generalize hlast : (e.base + bootBytes mmap) / pmmPageSize = last at *
  have hinside : bootBitmapBytes mmap % pmmPageSize ≠ 0 → e.Pages last := by
    have hbytes := bootBytes_eq mmap
    intro hrest
    refine ⟨hlow, ?_⟩
    simp only [pmmPageSize] at *
    omega
  rw [MetadataFits, hlast]
  constructor
  · rintro ⟨hright, -⟩
    by_contra! hnot
    -- the page in which the cache ends was freed with the rest of the entry
    have hpages := hinside hnot.1
    have hlt : last < s.totalPages := by
      rw [h.totalPages]
      exact hpages.2.trans_le (hgood.end_le hmem husable)
    have hclear := (h.clear last hlt).mpr ⟨⟨e, hmem, husable, hpages⟩, fun _ => hlast.le, hnot.2⟩
    exact ((hright last hlt).mp hclear).2.1 ((hmeta last).mpr ⟨hlow, Or.inr ⟨rfl, hnot.1⟩⟩)
  · intro hfit
    refine ⟨fun q hq => ?_, h.exact⟩
    rw [h.clear q hq, ← hgood.usablePage_iff, hmeta, hlast]
    refine and_congr_right fun _ => and_congr_left fun hker => ?_
    constructor
    · rintro hpast ⟨hstart, hlt | ⟨rfl, hrest⟩⟩
      · exact absurd (hpast ⟨hstart, hlt.trans_le hle⟩) (by omega)
      · exact hker (hfit.resolve_left hrest)
    · intro hout hpages
      by_contra hlt
      exact hout ⟨hpages.1, Or.inl (by omega)⟩

/-- `pmm_init` succeeds, and what it builds is right just if the cache ends at the end of
a page or in a page of the kernel. -/
theorem boot_bitmap_iff (mmap : List MemmapEntry) (mem : Mem) (hgood : GoodMap mmap)
    (htotal : 512 ≤ bootPages mmap)
    (hroom : ∃ e ∈ mmap, e.type = .usable ∧ bootBytes mmap ≤ e.length) :
    ∃ s e, pmmInit (some mmap) mem = some s ∧ bootEntry mmap = some e ∧
      (RightBitmap mmap s ↔ MetadataFits mmap e) := by
  obtain ⟨e, hentry⟩ : ∃ e, bootEntry mmap = some e := by
    obtain ⟨e, he, hlong⟩ := hroom
    rw [← Option.isSome_iff_exists, bootEntry, List.find?_isSome]
    exact ⟨e, he, decide_eq_true hlong⟩
  obtain ⟨s, hinit, hboot⟩ := pmmInit_booted mem hgood htotal hentry
  exact ⟨s, e, hinit, hentry, hboot.right_iff hgood hentry⟩

def oneRegion (base length : ℕ) : List MemmapEntry := [⟨base, length, .usable⟩]

theorem oneRegion_good {base length : ℕ} (hbase : pmmPageSize ∣ base)
    (hlength : pmmPageSize ∣ length) (hfits : base + length < 2 ^ 64) (hzero : base ≠ 0) :
    GoodMap (oneRegion base length) := by
  constructor
  · simp [oneRegion, hbase, hlength]
  · simpa [oneRegion] using hfits
  · simp [oneRegion]
  · simp [oneRegion, hzero]

theorem boot_bitmap_inside_kernel :
    ∃ s, pmmInit (some (oneRegion 0x100000 0x200000)) (fun _ => 0) = some s ∧
      RightBitmap (oneRegion 0x100000 0x200000) s := by
  obtain ⟨s, e, hinit, hentry, hiff⟩ := boot_bitmap_iff (oneRegion 0x100000 0x200000) (fun _ => 0)
    (oneRegion_good (by decide) (by decide) (by decide) (by decide)) (by decide)
    ⟨_, List.mem_cons_self, rfl, by decide⟩
  have hbase : (bootEntry (oneRegion 0x100000 0x200000)).map MemmapEntry.base = some 0x100000 := by
    decide
  rw [hentry, Option.map_some, Option.some.injEq] at hbase
  refine ⟨s, hinit, hiff.mpr (Or.inr ?_)⟩
  rw [hbase]
  decide

/-- With 3 MiB of memory the bitmap has 96 bytes; the cache ends in page 514, which is
free after initialisation. -/
theorem cache_page_left_free :
    GoodMap (oneRegion 0x200000 0x100000) ∧ 512 ≤ bootPages (oneRegion 0x200000 0x100000) ∧
    ∃ s, pmmInit (some (oneRegion 0x200000 0x100000)) (fun _ => 0) = some s ∧
      ¬ RightBitmap (oneRegion 0x200000 0x100000) s ∧
      s.totalPages = 768 ∧ bitmapGet s 514 = false ∧ InMetadata s 514 := by
  have hgood : GoodMap (oneRegion 0x200000 0x100000) :=
    oneRegion_good (by decide) (by decide) (by decide) (by decide)
  have hentry : bootEntry (oneRegion 0x200000 0x100000) = some ⟨0x200000, 0x100000, .usable⟩ := rfl
  obtain ⟨s, hinit, hboot⟩ := pmmInit_booted (fun _ => 0) hgood (by decide) hentry
  have htotal : s.totalPages = 768 := hboot.totalPages
  have hpage : bitmapGet s 514 = false := (hboot.clear 514 (by omega)).mpr
    ⟨⟨_, List.mem_cons_self, rfl, by decide⟩, by decide, by rw [inKernel_iff]; decide⟩
  have hmeta : InMetadata s 514 := (hboot.inMetadata_iff (by decide) 514).mpr (by decide)
  exact ⟨hgood, by decide, s, hinit,
    fun hright => ((hright.1 514 (by omega)).mp hpage).2.1 hmeta, htotal, hpage, hmeta⟩

end XldKernel.Pmm
