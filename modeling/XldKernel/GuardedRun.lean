import Mathlib.Tactic

/-!
# Finite runs of a partial step function under a guard on every step

`step s a = none` means that the call does not return. `Allowed` asks the guard
of each call in the state the earlier calls have reached, so that a hypothesis
on a run is a hypothesis on its steps.
-/

namespace XldKernel.GuardedRun
variable {S A : Type*}

def run (step : S → A → Option S) : S → List A → Option S
  | s, [] => some s
  | s, a :: as => (step s a).bind fun t => run step t as

def Allowed (step : S → A → Option S) (ok : S → A → Prop) : S → List A → Prop
  | _, [] => True
  | s, a :: as => ok s a ∧ ∀ t, step s a = some t → Allowed step ok t as

instance Allowed.decidable {step : S → A → Option S} {ok : S → A → Prop}
    [∀ s a, Decidable (ok s a)] : ∀ s as, Decidable (Allowed step ok s as)
  | _, [] => isTrue trivial
  | s, a :: as =>
    match h : step s a with
    | none => decidable_of_iff (ok s a) (by simp [Allowed, h])
    | some t =>
      have := @Allowed.decidable step ok _ t as
      decidable_of_iff (ok s a ∧ Allowed step ok t as) (by simp [Allowed, h])

theorem allowed_true (step : S → A → Option S) (s : S) (as : List A) :
    Allowed step (fun _ _ => True) s as := by
  induction as generalizing s with
  | nil => trivial
  | cons a as ih => exact ⟨trivial, fun t _ => ih t⟩

theorem run_append (step : S → A → Option S) (s : S) (as bs : List A) :
    run step s (as ++ bs) = (run step s as).bind fun t => run step t bs := by
  induction as generalizing s with
  | nil => rfl
  | cons a as ih =>
    simp only [List.cons_append, run, Option.bind_assoc]
    exact congrArg _ (funext ih)

theorem Allowed.append {step : S → A → Option S} {ok : S → A → Prop} {s t : S} {as bs : List A}
    (hok : Allowed step ok s (as ++ bs)) (hrun : run step s as = some t) :
    Allowed step ok s as ∧ Allowed step ok t bs := by
  induction as generalizing s with
  | nil =>
    cases hrun
    exact ⟨trivial, hok⟩
  | cons a as ih =>
    obtain ⟨ha, hrest⟩ := hok
    obtain ⟨u, hu, hrun⟩ := Option.bind_eq_some_iff.mp hrun
    refine ⟨⟨ha, fun v hv => ?_⟩, (ih (hrest u hu) hrun).2⟩
    rw [hu] at hv
    cases hv
    exact (ih (hrest u hu) hrun).1

/-- Partial correctness: whatever state an allowed run returns satisfies every
property that allowed steps preserve. -/
theorem run_invariant {step : S → A → Option S} {ok : S → A → Prop} {inv : S → Prop}
    (hstep : ∀ s a t, inv s → ok s a → step s a = some t → inv t)
    {s t : S} {as : List A} (hok : Allowed step ok s as) (hs : inv s)
    (hrun : run step s as = some t) : inv t := by
  induction as generalizing s with
  | nil =>
    cases hrun
    exact hs
  | cons a as ih =>
    obtain ⟨ha, hrest⟩ := hok
    cases h : step s a with
    | none => simp [run, h] at hrun
    | some u =>
      simp only [run, h, Option.bind_some] at hrun
      exact ih (hrest u h) (hstep s a u hs ha h) hrun

/-- Total correctness: an allowed run returns when every allowed step does. -/
theorem run_total {step : S → A → Option S} {ok : S → A → Prop} {inv : S → Prop}
    (hstep : ∀ s a, inv s → ok s a → ∃ t, step s a = some t ∧ inv t)
    {s : S} {as : List A} (hok : Allowed step ok s as) (hs : inv s) :
    ∃ t, run step s as = some t ∧ inv t := by
  induction as generalizing s with
  | nil => exact ⟨s, rfl, hs⟩
  | cons a as ih =>
    obtain ⟨ha, hrest⟩ := hok
    obtain ⟨u, hu, hiu⟩ := hstep s a hs ha
    obtain ⟨t, ht, hit⟩ := ih (hrest u hu) hiu
    exact ⟨t, by simp only [run, hu, Option.bind_some, ht], hit⟩

end XldKernel.GuardedRun
