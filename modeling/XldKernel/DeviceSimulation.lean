import XldKernel.BlockDevice

/-!
# One block device in the place of another

Two devices run in step when their reads fail together or fill the 512 bytes of
a buffer alike, and their writes of such buffers succeed together. Nothing is
said of what a buffer holds behind its 512 bytes, so a program that runs alike on
every two such devices never looks there.
-/

namespace XldKernel.BlockDevice
open ByteMemory

def Agree (b b' : Mem) : Prop := ∀ i < sectorSize, b i = b' i

namespace Agree
variable {b b' : Mem} (h : Agree b b')
include h

theorem load {a n : ℕ} (ha : a + n ≤ sectorSize) : load b a n = load b' a n :=
  load_congr fun i hi => h (a + i) (by omega)

theorem read {a n : ℕ} (ha : a + n ≤ sectorSize) : read b a n = read b' a n :=
  read_congr fun i hi => h (a + i) (by omega)

theorem store (a n v : ℕ) : Agree (store b a n v) (store b' a n v) := by
  intro i hi
  simp only [ByteMemory.store, h i hi]

theorem write (a : ℕ) (bs : List UInt8) : Agree (write b a bs) (write b' a bs) := by
  intro i hi
  simp only [ByteMemory.write, h i hi]

theorem fill (a n : ℕ) (v : UInt8) : Agree (fill b a n v) (fill b' a n v) := by
  intro i hi
  simp only [ByteMemory.fill, h i hi]

theorem update (a : ℕ) (v : UInt8) : Agree (Function.update b a v) (Function.update b' a v) := by
  intro i hi
  simp only [Function.update_apply, h i hi]

end Agree

theorem Agree.refl (b : Mem) : Agree b b := fun _ _ => rfl

theorem putSector_congr {b b' : Mem} (h : Agree b b') (m : Mem) (s : ℕ) :
    putSector m s b = putSector m s b' := by
  funext x
  simp only [putSector]
  split_ifs with hx
  · exact h _ (by omega)
  · rfl

variable {σ τ α : Type}

/-- The two devices run in step from states that `R` relates. -/
structure Simulates (dev₁ : BlockDev σ) (dev₂ : BlockDev τ) (R : σ → τ → Prop) : Prop where
  read : ∀ {x y}, R x y → ∀ s,
    (∃ x' y', dev₁.read s x = (none, x') ∧ dev₂.read s y = (none, y') ∧ R x' y') ∨
      ∃ b b' x' y', dev₁.read s x = (some b, x') ∧ dev₂.read s y = (some b', y') ∧
        Agree b b' ∧ R x' y'
  write : ∀ {x y b b'}, R x y → Agree b b' → ∀ s,
    ∃ ok x' y', dev₁.write s b x = (ok, x') ∧ dev₂.write s b' y = (ok, y') ∧ R x' y'

def SameOut (R : σ → τ → Prop) (p : α × σ) (q : α × τ) : Prop :=
  ∃ a x y, p = (a, x) ∧ q = (a, y) ∧ R x y

def SameRun (R : σ → τ → Prop) (p : Option (α × σ)) (q : Option (α × τ)) : Prop :=
  (p = none ∧ q = none) ∨ ∃ a x y, p = some (a, x) ∧ q = some (a, y) ∧ R x y

variable {R : σ → τ → Prop}

theorem SameOut.mk (a : α) {x : σ} {y : τ} (h : R x y) : SameOut R (a, x) (a, y) :=
  ⟨a, x, y, rfl, rfl, h⟩

theorem SameRun.none : SameRun R (none : Option (α × σ)) (none : Option (α × τ)) :=
  Or.inl ⟨rfl, rfl⟩

theorem SameRun.some (a : α) {x : σ} {y : τ} (h : R x y) : SameRun R (some (a, x)) (some (a, y)) :=
  Or.inr ⟨a, x, y, rfl, rfl, h⟩

theorem SameOut.some {p : α × σ} {q : α × τ} (h : SameOut R p q) :
    SameRun R (some p) (some q) := by
  obtain ⟨a, x, y, rfl, rfl, hR⟩ := h
  exact SameRun.some a hR

theorem SameRun.map {β : Type} {p : Option (α × σ)} {q : Option (α × τ)} (f : α → β)
    (h : SameRun R p q) :
    SameRun R (p.map fun r => (f r.1, r.2)) (q.map fun r => (f r.1, r.2)) := by
  rcases h with ⟨rfl, rfl⟩ | ⟨a, x, y, rfl, rfl, hR⟩
  · exact SameRun.none
  · exact SameRun.some (f a) hR

end XldKernel.BlockDevice
