import XldKernel.BlockDevice

/-!
# Failing accesses and what reading costs

`Later` says where the schedules of a faulty device stand after some accesses. A
program that only reads and stops at the first failed read is described by
`Costs`: its result on a disk without faults, the number of sectors it reads
there, and what it returns when one of these reads fails.
-/

namespace XldKernel.BlockDevice
open ByteMemory

/-- `d'` is `d` after `r` reads and `w` writes, whatever these did to the disk. -/
def Faulty.Later (d d' : Faulty) (r w : ℕ) : Prop :=
  (∀ k, d'.readFails k = d.readFails (k + r)) ∧ ∀ k, d'.writeFails k = d.writeFails (k + w)

def Faulty.FailsIn (d : Faulty) (r w : ℕ) : Prop :=
  (∃ j < r, d.readFails j = true) ∨ ∃ j < w, d.writeFails j = true

def Faulty.FailsAt (d : Faulty) (r w : ℕ) : Prop := d.readFails r = true ∨ d.writeFails w = true

structure Faulty.AtMostOne (d : Faulty) : Prop where
  reads : ∀ i j, d.readFails i = true → d.readFails j = true → i = j
  writes : ∀ i j, d.writeFails i = true → d.writeFails j = true → i = j
  either : ∀ i j, d.readFails i = true → d.writeFails j = false

def Faulty.NoFaults (d : Faulty) : Prop :=
  (∀ k, d.readFails k = false) ∧ ∀ k, d.writeFails k = false

variable {d d₁ d₂ : Faulty} {r r' w w' : ℕ}

theorem Faulty.later_refl (d : Faulty) : d.Later d 0 0 := ⟨fun _ => rfl, fun _ => rfl⟩

theorem Faulty.later_skip (d : Faulty) (n : ℕ) : d.Later (d.skip n) n 0 :=
  ⟨fun _ => rfl, fun _ => rfl⟩

theorem Faulty.Later.trans (h : d.Later d₁ r w) (h' : d₁.Later d₂ r' w') :
    d.Later d₂ (r + r') (w + w') := by
  refine ⟨fun k => ?_, fun k => ?_⟩
  · rw [h'.1, h.1, Nat.add_assoc, Nat.add_comm r']
  · rw [h'.2, h.2, Nat.add_assoc, Nat.add_comm w']

theorem Faulty.FailsIn.mono (h : d.FailsIn r w) (hr : r ≤ r') (hw : w ≤ w') : d.FailsIn r' w' := by
  rcases h with ⟨j, hj, hf⟩ | ⟨j, hj, hf⟩
  · exact Or.inl ⟨j, by omega, hf⟩
  · exact Or.inr ⟨j, by omega, hf⟩

theorem Faulty.Later.failsIn (h : d.Later d₁ r w) (hf : d₁.FailsIn r' w') :
    d.FailsIn (r + r') (w + w') := by
  rcases hf with ⟨j, hj, hf⟩ | ⟨j, hj, hf⟩
  · exact Or.inl ⟨j + r, by omega, by rw [← h.1, hf]⟩
  · exact Or.inr ⟨j + w, by omega, by rw [← h.2, hf]⟩

theorem Faulty.Later.failsAt (h : d.Later d₁ r w) :
    d₁.FailsAt r' w' ↔ d.FailsAt (r + r') (w + w') := by
  rw [Faulty.FailsAt, Faulty.FailsAt, h.1, h.2, Nat.add_comm r', Nat.add_comm w']

theorem Faulty.AtMostOne.later (h : d.AtMostOne) (hl : d.Later d₁ r w) : d₁.AtMostOne := by
  refine ⟨fun i j hi hj => ?_, fun i j hi hj => ?_, fun i j hi => ?_⟩
  · rw [hl.1] at hi hj
    have := h.reads _ _ hi hj
    omega
  · rw [hl.2] at hi hj
    have := h.writes _ _ hi hj
    omega
  · rw [hl.1] at hi
    rw [hl.2]
    exact h.either _ _ hi

theorem Faulty.AtMostOne.noFaults (h : d.AtMostOne) (hl : d.Later d₁ r w) (hf : d.FailsIn r w) :
    d₁.NoFaults := by
  refine ⟨fun k => ?_, fun k => ?_⟩
  · rw [hl.1]
    rcases hf with ⟨j, hj, hf⟩ | ⟨j, hj, hf⟩
    · refine Bool.eq_false_iff.mpr fun hk => ?_
      have := h.reads _ _ hk hf
      omega
    · refine Bool.eq_false_iff.mpr fun hk => ?_
      rw [h.either _ j hk] at hf
      cases hf
  · rw [hl.2]
    rcases hf with ⟨j, hj, hf⟩ | ⟨j, hj, hf⟩
    · exact h.either _ _ hf
    · refine Bool.eq_false_iff.mpr fun hk => ?_
      have := h.writes _ _ hk hf
      omega

theorem Faulty.AtMostOne.not_failsAt (h : d.AtMostOne) (hf : d.FailsIn r w) (hr : r ≤ r')
    (hw : w ≤ w') : ¬ d.FailsAt r' w' := by
  have hlater : d.Later ⟨d.mem, fun k => d.readFails (k + r), fun k => d.writeFails (k + w)⟩ r w :=
    ⟨fun _ => rfl, fun _ => rfl⟩
  have hnone := h.noFaults hlater hf
  have hread := hnone.1 (r' - r)
  have hwrite := hnone.2 (w' - w)
  simp only [Nat.sub_add_cancel hr, Nat.sub_add_cancel hw] at hread hwrite
  simp [Faulty.FailsAt, hread, hwrite]

structure Counted where
  mem : Mem
  reads : ℕ

def countedDisk : BlockDev Counted where
  read s d := (some (sector d.mem s), { d with reads := d.reads + 1 })
  write s buf d := (true, { d with mem := putSector d.mem s buf })

abbrev Program (α : Type) := (σ : Type) → BlockDev σ → σ → Option (α × σ)

/-- On the disk `m` the program reads `n` sectors, changes nothing and returns `r`; at
the first of these reads that fails it returns `z`. -/
structure Costs {α : Type} (F : Program α) (m : Mem) (n : ℕ) (r z : α) : Prop where
  ram : F Mem ramDisk m = some (r, m)
  counted : ∀ k, F Counted countedDisk ⟨m, k⟩ = some (r, ⟨m, k + n⟩)
  faulty : ∀ d : Faulty, d.mem = m →
    ((∀ j < n, d.readFails j = false) ∧ F Faulty faultyDisk d = some (r, d.skip n)) ∨
    ∃ j < n, d.readFails j = true ∧ F Faulty faultyDisk d = some (z, d.skip (j + 1))

section Rules
variable {α β : Type} {m : Mem} {n k : ℕ}

theorem costs_pure (m : Mem) (a z : α) : Costs (fun _ _ s => some (a, s)) m 0 a z where
  ram := rfl
  counted _ := rfl
  faulty d _ := Or.inl ⟨by simp, rfl⟩

theorem Costs.congr {F G : Program α} {a z : α} (hF : Costs F m n a z)
    (heq : ∀ σ dev s, G σ dev s = F σ dev s) : Costs G m n a z := by
  have hFG : G = F := by
    funext σ dev s
    exact heq σ dev s
  rwa [hFG]

theorem costs_read (m : Mem) (s : ℕ) :
    Costs (fun _ dev st => some (dev.read s st)) m 1 (some (sector m s)) none where
  ram := rfl
  counted _ := rfl
  faulty d hd := by
    cases h : d.readFails 0 with
    | false =>
      refine Or.inl ⟨fun j hj => ?_, by rw [read_good h, hd]⟩
      rwa [Nat.lt_one_iff.mp hj]
    | true => exact Or.inr ⟨0, one_pos, h, by rw [read_bad h]⟩

/-- One program after another; at the value that a failed read leaves, the second one
returns at once. -/
theorem Costs.bind {F : Program α} {G : α → Program β} {a z : α} {b y : β}
    (hF : Costs F m n a z) (hG : Costs (G a) m k b y)
    (hz : ∀ d : Faulty, G z Faulty faultyDisk d = some (y, d)) :
    Costs (fun σ dev s => (F σ dev s).bind fun x => G x.1 σ dev x.2) m (n + k) b y where
  ram := by simp only [hF.ram, Option.bind_some, hG.ram]
  counted i := by simp only [hF.counted, Option.bind_some, hG.counted, Nat.add_assoc]
  faulty d hd := by
    rcases hF.faulty d hd with ⟨hgood, hrun⟩ | ⟨j, hj, hbad, hrun⟩
    · simp only [hrun, Option.bind_some]
      rcases hG.faulty (d.skip n) hd with ⟨hgood', hrun'⟩ | ⟨j, hj, hbad, hrun'⟩
      · refine Or.inl ⟨fun i hi => ?_, by rw [hrun', Faulty.skip_skip]⟩
        by_cases hin : i < n
        · exact hgood i hin
        · have hrest := hgood' (i - n) (by omega)
          rwa [Faulty.skip_readFails, Nat.sub_add_cancel (by omega)] at hrest
      · refine Or.inr ⟨j + n, by omega, hbad, ?_⟩
        rw [hrun', Faulty.skip_skip, Nat.add_comm n, Nat.add_right_comm]
    · exact Or.inr ⟨j, by omega, hbad, by simp only [hrun, Option.bind_some, hz]⟩

theorem Costs.map {F : Program α} {a z : α} (hF : Costs F m n a z) (f : α → β) :
    Costs (fun σ dev s => (F σ dev s).map fun x => (f x.1, x.2)) m n (f a) (f z) where
  ram := by rw [hF.ram, Option.map_some]
  counted i := by rw [hF.counted, Option.map_some]
  faulty d hd := by
    rcases hF.faulty d hd with ⟨hgood, hrun⟩ | ⟨j, hj, hbad, hrun⟩
    · exact Or.inl ⟨hgood, by rw [hrun, Option.map_some]⟩
    · exact Or.inr ⟨j, hj, hbad, by rw [hrun, Option.map_some]⟩

end Rules

end XldKernel.BlockDevice
