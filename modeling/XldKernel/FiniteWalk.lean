import Mathlib.Data.Finset.Card
import Mathlib.Data.Fintype.Card
import Mathlib.Logic.Function.Iterate

/-!
# Walks along a function

A walk starts at `a` and moves along `f` as long as `go` holds. When `f` has finitely
many values, the walk ends just if it does not come back to where it was before, and
it then ends within as many steps as there are values.
-/

namespace XldKernel.FiniteWalk

variable {α : Type*} {f : α → α} {go : α → Prop} {a b : α}

def StepsTo (f : α → α) (go : α → Prop) (a : α) (n : ℕ) (b : α) : Prop :=
  f^[n] a = b ∧ ∀ k < n, go (f^[k] a)

def Ends (f : α → α) (go : α → Prop) (a : α) : Prop := ∃ n b, StepsTo f go a n b ∧ ¬ go b

def ComesBack (f : α → α) (go : α → Prop) (a : α) : Prop :=
  ∃ i j b, i < j ∧ StepsTo f go a i b ∧ StepsTo f go a j b

theorem stepsTo_zero : StepsTo f go a 0 a := ⟨rfl, fun k hk => by omega⟩

theorem stepsTo_succ {n : ℕ} : StepsTo f go a (n + 1) b ↔ go a ∧ StepsTo f go (f a) n b := by
  constructor
  · rintro ⟨hb, hgo⟩
    exact ⟨hgo 0 (by omega), hb, fun k hk => hgo (k + 1) (by omega)⟩
  · rintro ⟨hstart, hb, hgo⟩
    refine ⟨hb, fun k hk => ?_⟩
    cases k with
    | zero => exact hstart
    | succ k => exact hgo k (by omega)

theorem ComesBack.not_ends (h : ComesBack f go a) : ¬ Ends f go a := by
  obtain ⟨i, j, b, hij, ⟨hi, -⟩, hj, hgo⟩ := h
  have hall : ∀ n, go (f^[n] a) := by
    intro n
    induction n using Nat.strong_induction_on with
    | _ n ih =>
      rcases Nat.lt_or_ge n j with hn | hn
      · exact hgo n hn
      · obtain ⟨r, rfl⟩ := Nat.exists_eq_add_of_le' hn
        have hsame : f^[r + j] a = f^[r + i] a := by
          rw [Function.iterate_add_apply, Function.iterate_add_apply, hi, hj]
        rw [hsame]
        exact ih (r + i) (by omega)
  rintro ⟨n, c, ⟨rfl, -⟩, hno⟩
  exact hno (hall n)

variable {s : Finset α}

theorem comesBack_of_long (hs : ∀ x, f x ∈ s) (hgo : ∀ k < s.card + 1, go (f^[k] a)) :
    ComesBack f go a := by
  have hmaps : ∀ k ∈ Finset.range (s.card + 1), f^[k + 1] a ∈ s := fun k _ => by
    rw [Function.iterate_succ_apply']
    exact hs _
  obtain ⟨i, hi, j, hj, hne, heq⟩ :=
    Finset.exists_ne_map_eq_of_card_lt_of_maps_to (by rw [Finset.card_range]; omega) hmaps
  rw [Finset.mem_range] at hi hj
  rcases lt_or_gt_of_ne hne with hlt | hlt
  · exact ⟨i + 1, j + 1, _, by omega, ⟨heq, fun k hk => hgo k (by omega)⟩,
      rfl, fun k hk => hgo k (by omega)⟩
  · exact ⟨j + 1, i + 1, _, by omega, ⟨rfl, fun k hk => hgo k (by omega)⟩,
      heq, fun k hk => hgo k (by omega)⟩

theorem ends_iff (hs : ∀ x, f x ∈ s) : Ends f go a ↔ ¬ ComesBack f go a := by
  refine ⟨fun hends hback => hback.not_ends hends, fun hno => ?_⟩
  by_contra hends
  refine hno (comesBack_of_long hs fun k _ => ?_)
  induction k using Nat.strong_induction_on with
  | _ k ih =>
    by_contra hk
    exact hends ⟨k, _, ⟨rfl, fun j hj => ih j hj (by omega)⟩, hk⟩

theorem Ends.bounded (hs : ∀ x, f x ∈ s) (h : Ends f go a) :
    ∃ n b, n ≤ s.card ∧ StepsTo f go a n b ∧ ¬ go b := by
  by_contra! hlong
  refine (ends_iff hs).mp h (comesBack_of_long hs fun k hk => ?_)
  induction k using Nat.strong_induction_on with
  | _ k ih => exact hlong k _ (by omega) ⟨rfl, fun j hj => ih j hj (by omega)⟩

end XldKernel.FiniteWalk
