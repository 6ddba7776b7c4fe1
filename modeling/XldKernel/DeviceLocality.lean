import XldKernel.BlockDevice

/-!
# Runs that never leave what two devices have in common

Two devices on the same states may answer alike as long as they are asked for
certain sectors only. States in which one has been asked for another sector are
`lost`, and stay so. A program that is a sequence of accesses then runs alike on
both unless it ends lost on both: what it returns depends on the answers it gets
and on nothing else.
-/

namespace XldKernel.BlockDevice

variable {σ α β : Type}

structure AgreeUntil (dev₁ dev₂ : BlockDev σ) (lost : σ → Prop) : Prop where
  read : ∀ s x, dev₁.read s x = dev₂.read s x ∨ lost (dev₁.read s x).2 ∧ lost (dev₂.read s x).2
  write : ∀ s b x,
    dev₁.write s b x = dev₂.write s b x ∨ lost (dev₁.write s b x).2 ∧ lost (dev₂.write s b x).2
  keepRead : ∀ s {x}, lost x → lost (dev₁.read s x).2 ∧ lost (dev₂.read s x).2
  keepWrite : ∀ s b {x}, lost x → lost (dev₁.write s b x).2 ∧ lost (dev₂.write s b x).2

def EndsLost (lost : σ → Prop) (o : Option (α × σ)) : Prop := ∀ r, o = some r → lost r.2

structure Until (dev₁ dev₂ : BlockDev σ) (lost : σ → Prop)
    (p : BlockDev σ → σ → Option (α × σ)) : Prop where
  same : ∀ x, p dev₁ x = p dev₂ x ∨ EndsLost lost (p dev₁ x) ∧ EndsLost lost (p dev₂ x)
  keep : ∀ {x}, lost x → EndsLost lost (p dev₁ x) ∧ EndsLost lost (p dev₂ x)

theorem endsLost_some {lost : σ → Prop} {r : α × σ} : EndsLost lost (some r) ↔ lost r.2 := by
  simp [EndsLost]

variable {dev₁ dev₂ : BlockDev σ} {lost : σ → Prop}

theorem until_pure (a : α) : Until dev₁ dev₂ lost fun _ x => some (a, x) :=
  ⟨fun _ => .inl rfl, fun h => ⟨endsLost_some.mpr h, endsLost_some.mpr h⟩⟩

theorem until_none : Until dev₁ dev₂ lost fun _ _ => (none : Option (α × σ)) :=
  ⟨fun _ => .inl rfl, fun _ => ⟨by simp [EndsLost], by simp [EndsLost]⟩⟩

theorem AgreeUntil.until_read (h : AgreeUntil dev₁ dev₂ lost) (s : ℕ) :
    Until dev₁ dev₂ lost fun dev x => some (dev.read s x) :=
  ⟨fun x => (h.read s x).imp (congrArg some) (And.imp endsLost_some.mpr endsLost_some.mpr),
    fun hx => (h.keepRead s hx).imp endsLost_some.mpr endsLost_some.mpr⟩

theorem AgreeUntil.until_write (h : AgreeUntil dev₁ dev₂ lost) (s : ℕ) (b : ByteMemory.Mem) :
    Until dev₁ dev₂ lost fun dev x => some (dev.write s b x) :=
  ⟨fun x => (h.write s b x).imp (congrArg some) (And.imp endsLost_some.mpr endsLost_some.mpr),
    fun hx => (h.keepWrite s b hx).imp endsLost_some.mpr endsLost_some.mpr⟩

/-- A program that goes on after `p` in a way that depends on what `p` returns and on
the state in which `p` was started. -/
theorem Until.bind {p : BlockDev σ → σ → Option (β × σ)} {q : BlockDev σ → σ → Option (α × σ)}
    (hp : Until dev₁ dev₂ lost p) (hnone : ∀ dev x, p dev x = none → q dev x = none)
    (hsome : ∀ b x, ∃ r, Until dev₁ dev₂ lost r ∧
      ∀ dev y, p dev x = some (b, y) → q dev x = r dev y) : Until dev₁ dev₂ lost q := by
  choose r hr hq using hsome
  have hlost (dev : BlockDev σ) {x : σ} (hkeep : ∀ b {y}, lost y → EndsLost lost (r b x dev y))
      (h : EndsLost lost (p dev x)) : EndsLost lost (q dev x) := by
    rcases hpx : p dev x with _ | ⟨b, y⟩
    · rw [hnone dev x hpx]
      exact fun _ hr => nomatch hr
    · rw [hq b x dev y hpx]
      exact hkeep b (h _ hpx)
  have hkeep₁ (x : σ) (b : β) {y : σ} (hy : lost y) := ((hr b x).keep hy).1
  have hkeep₂ (x : σ) (b : β) {y : σ} (hy : lost y) := ((hr b x).keep hy).2
  refine ⟨fun x => ?_, fun hx => ?_⟩
  · rcases hp.same x with heq | ⟨h₁, h₂⟩
    · rcases hpx : p dev₁ x with _ | ⟨b, y⟩
      · exact .inl ((hnone dev₁ x hpx).trans (hnone dev₂ x (heq ▸ hpx)).symm)
      · rw [hq b x dev₁ y hpx, hq b x dev₂ y (heq ▸ hpx)]
        exact (hr b x).same y
    · exact .inr ⟨hlost dev₁ (hkeep₁ x) h₁, hlost dev₂ (hkeep₂ x) h₂⟩
  · exact ⟨hlost dev₁ (hkeep₁ _) (hp.keep hx).1, hlost dev₂ (hkeep₂ _) (hp.keep hx).2⟩

theorem Until.step {p : BlockDev σ → σ → β × σ} {q : BlockDev σ → σ → Option (α × σ)}
    (hp : Until dev₁ dev₂ lost fun dev x => some (p dev x))
    (hsome : ∀ b x, ∃ r, Until dev₁ dev₂ lost r ∧
      ∀ dev y, p dev x = (b, y) → q dev x = r dev y) : Until dev₁ dev₂ lost q :=
  hp.bind (fun _ _ h => nomatch h) fun b x =>
    (hsome b x).imp fun _ hr => ⟨hr.1, fun dev y h => hr.2 dev y (Option.some_inj.mp h)⟩

theorem Until.map {p : BlockDev σ → σ → Option (β × σ)} (hp : Until dev₁ dev₂ lost p) (f : β → α) :
    Until dev₁ dev₂ lost fun dev x => (p dev x).map fun r => (f r.1, r.2) :=
  hp.bind (fun dev x h => by rw [h]; rfl) fun b _ =>
    ⟨_, until_pure (f b), fun dev y h => by rw [h]; rfl⟩

theorem Until.eq {p : BlockDev σ → σ → Option (α × σ)} (hp : Until dev₁ dev₂ lost p) {x y : σ}
    {a : α} (hrun : p dev₁ x = some (a, y)) (hy : ¬ lost y) : p dev₂ x = some (a, y) := by
  rcases hp.same x with heq | ⟨h, -⟩
  · rw [← heq, hrun]
  · exact absurd (h _ hrun) hy

end XldKernel.BlockDevice
