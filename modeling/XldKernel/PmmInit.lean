import XldKernel.PmmAlloc

/-!
# Initialisation from the boot loader's memory map

`pmm_init` of `kernel/src/pmm.c`. The map is an input; `none` is a `panic`. The
entry chosen for the bitmap and the frame cache is shortened in place before
the usable regions are marked free. The probe that writes and restores one byte
of the bitmap is left out.
-/

namespace XldKernel.Pmm
open ByteMemory

inductive MemmapType where
  | usable
  | acpiReclaimable
  | bootloaderReclaimable
  | other
  deriving DecidableEq

structure MemmapEntry where
  base : ℕ
  length : ℕ
  type : MemmapType

def MemmapType.counted : MemmapType → Bool
  | .usable | .acpiReclaimable | .bootloaderReclaimable => true
  | .other => false

def highestEnd : ℕ → List MemmapEntry → ℕ
  | highest, [] => highest
  | highest, e :: es =>
    let stop := (e.base + e.length) % 2 ^ 64
    highestEnd (if e.type.counted ∧ highest < stop then stop else highest) es

def framesStackPages : ℕ :=
  max ((framesStackEntries * 8 + pmmPageSize - 1) / pmmPageSize) 2

/-- The first usable entry that is long enough, taken from its start. -/
def chooseEntry (needed : ℕ) : List MemmapEntry → Option (ℕ × List MemmapEntry)
  | [] => none
  | e :: es =>
    if e.type = .usable ∧ needed ≤ e.length then
      some (e.base,
        { e with base := (e.base + needed) % 2 ^ 64, length := e.length - needed } :: es)
    else (chooseEntry needed es).map fun (p, es') => (p, e :: es')

def freeRange (s : Manager) (pg : ℕ) : ℕ → Manager
  | 0 => s
  | n + 1 =>
    let t := bitmapSet s pg false
    freeRange { t with freePages := (t.freePages + 1) % 2 ^ 64 } (pg + 1) n

def freeUsable (s : Manager) : List MemmapEntry → Manager
  | [] => s
  | e :: es =>
    if e.type = .usable then
      let startPage := e.base / pmmPageSize
      let endPage := (e.base + e.length) % 2 ^ 64 / pmmPageSize
      freeUsable (freeRange s startPage (endPage - startPage)) es
    else freeUsable s es

def reserveRange (s : Manager) (pg : ℕ) : ℕ → Manager
  | 0 => s
  | n + 1 =>
    if bitmapGet s pg then reserveRange s (pg + 1) n
    else
      let t := bitmapSet s pg true
      reserveRange { t with freePages := sub64 t.freePages 1 } (pg + 1) n

def kernelStart : ℕ := 0x100000
def kernelEnd : ℕ := 0x200000

def pmmInit (response : Option (List MemmapEntry)) (mem : Mem) : Option Manager :=
  match response with
  | none => none
  | some mmap =>
    let highest := highestEnd 0 mmap
    let totalPages := highest / pmmPageSize
    let bitmapSizeBytes := (totalPages + 7) / 8
    let bitmapPages := (bitmapSizeBytes + pmmPageSize - 1) / pmmPageSize
    let neededBytes := bitmapSizeBytes + framesStackPages * pmmPageSize
    match chooseEntry neededBytes mmap with
    | none => none
    | some (chosenPhys, mmap') =>
      if chosenPhys = 0 then none
      else
        let bitmap := physToVirt chosenPhys
        let framesStackPhys := (chosenPhys + bitmapSizeBytes) % 2 ^ 64
        let s₀ : Manager := {
          mem := fill mem bitmap bitmapSizeBytes 0xFF
          bitmap := bitmap
          bitmapPages := bitmapPages
          totalPages := totalPages
          freePages := 0
          totalMemory := highest
          bitmapPhys := chosenPhys
          framesStack := physToVirt framesStackPhys
          stackTop := 0 }
        let s₁ := freeUsable s₀ mmap'
        let bmStart := chosenPhys / pmmPageSize
        let bmEnd := (chosenPhys + bitmapSizeBytes + pmmPageSize - 1) % 2 ^ 64 / pmmPageSize
        let s₂ := reserveRange s₁ bmStart (bmEnd - bmStart)
        let fsStart := framesStackPhys / pmmPageSize
        let fsEnd := (framesStackPhys + framesStackPages * pmmPageSize) % 2 ^ 64 / pmmPageSize
        let s₃ := reserveRange s₂ fsStart (fsEnd - fsStart)
        let ks := kernelStart / pmmPageSize
        let ke := (kernelEnd + pmmPageSize - 1) / pmmPageSize
        some (reserveRange s₃ ks (ke - ks))

theorem highestEnd_lt {highest : ℕ} (mmap : List MemmapEntry) (h : highest < 2 ^ 64) :
    highestEnd highest mmap < 2 ^ 64 := by
  induction mmap generalizing highest with
  | nil => exact h
  | cons e es ih =>
    simp only [highestEnd]
    apply ih
    split_ifs
    · exact Nat.mod_lt _ (by decide)
    · exact h

theorem freeRange_shape (s : Manager) (pg n : ℕ) :
    SameShape s (freeRange s pg n) ∧ (freeRange s pg n).stackTop = s.stackTop := by
  induction n generalizing s pg with
  | zero => exact ⟨SameShape.refl s, rfl⟩
  | succ n ih =>
    have h0 : SameShape s { bitmapSet s pg false with
        freePages := ((bitmapSet s pg false).freePages + 1) % 2 ^ 64 } := ⟨rfl, rfl, rfl⟩
    have h1 := ih { bitmapSet s pg false with
        freePages := ((bitmapSet s pg false).freePages + 1) % 2 ^ 64 } (pg + 1)
    exact ⟨h0.trans h1.1, h1.2⟩

theorem freeUsable_shape (s : Manager) (mmap : List MemmapEntry) :
    SameShape s (freeUsable s mmap) ∧ (freeUsable s mmap).stackTop = s.stackTop := by
  induction mmap generalizing s with
  | nil => exact ⟨SameShape.refl s, rfl⟩
  | cons e es ih =>
    simp only [freeUsable]
    split_ifs
    · have h0 := freeRange_shape s (e.base / pmmPageSize)
        ((e.base + e.length) % 2 ^ 64 / pmmPageSize - e.base / pmmPageSize)
      have h1 := ih (freeRange s (e.base / pmmPageSize)
        ((e.base + e.length) % 2 ^ 64 / pmmPageSize - e.base / pmmPageSize))
      exact ⟨h0.1.trans h1.1, h1.2.trans h0.2⟩
    · exact ih s

theorem reserveRange_shape (s : Manager) (pg n : ℕ) :
    SameShape s (reserveRange s pg n) ∧ (reserveRange s pg n).stackTop = s.stackTop := by
  induction n generalizing s pg with
  | zero => exact ⟨SameShape.refl s, rfl⟩
  | succ n ih =>
    simp only [reserveRange]
    split_ifs
    · exact ih s (pg + 1)
    · have h0 : SameShape s { bitmapSet s pg true with
          freePages := sub64 (bitmapSet s pg true).freePages 1 } := ⟨rfl, rfl, rfl⟩
      have h1 := ih { bitmapSet s pg true with
          freePages := sub64 (bitmapSet s pg true).freePages 1 } (pg + 1)
      exact ⟨h0.trans h1.1, h1.2⟩

theorem pmmInit_sane {response : Option (List MemmapEntry)} {mem : Mem} {s : Manager}
    (h : pmmInit response mem = some s) : Sane s ∧ s.stackTop = 0 := by
  cases response with
  | none => simp [pmmInit] at h
  | some mmap =>
    simp only [pmmInit] at h
    split at h
    · simp at h
    · rename_i chosenPhys mmap' hchoose
      split_ifs at h with hzero
      have hlt := highestEnd_lt mmap (show 0 < 2 ^ 64 by decide)
      generalize highestEnd 0 mmap = highest at h hlt
      rw [Option.some.injEq] at h
      subst h
      refine ⟨Sane.of_shape ?_ (((freeUsable_shape _ mmap').1.trans
        (reserveRange_shape _ _ _).1).trans ((reserveRange_shape _ _ _).1.trans
          (reserveRange_shape _ _ _).1)) ?_, ?_⟩
      · constructor
        · simp only [pmmPageSize]
          omega
        · simp
        · simp only [physToVirt, kernelVirtOffset, pmmPageSize, framesStackEntries]
          omega
      · simp [reserveRange_shape, freeUsable_shape]
      · simp [reserveRange_shape, freeUsable_shape]

end XldKernel.Pmm
