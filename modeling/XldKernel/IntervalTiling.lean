import Mathlib.Data.List.Perm.Basic
import Mathlib.Tactic

/-!
# Tilings of a set of addresses by half-open intervals

Intervals are non-empty. A list of intervals tiles a set when its members are pairwise
apart and their union is that set. Cutting one interval in two, joining two that touch,
adding a fresh one and reordering all keep a tiling.
-/

namespace XldKernel.IntervalTiling

structure Interval where
  lo : ℕ
  hi : ℕ
  pos : lo < hi

def Interval.Has (i : Interval) (x : ℕ) : Prop := i.lo ≤ x ∧ x < i.hi

def Interval.Apart (i j : Interval) : Prop := i.hi ≤ j.lo ∨ j.hi ≤ i.lo

theorem Interval.Apart.symm {i j : Interval} (h : i.Apart j) : j.Apart i := Or.symm h

structure Tiles (is : List Interval) (P : ℕ → Prop) : Prop where
  apart : is.Pairwise Interval.Apart
  cover : ∀ x, P x ↔ ∃ i ∈ is, i.Has x

variable {is js : List Interval} {P : ℕ → Prop}

theorem Tiles.perm (h : Tiles is P) (hp : is.Perm js) : Tiles js P := by
  refine ⟨(hp.pairwise_iff (fun h => Interval.Apart.symm h)).mp h.apart, ?_⟩
  intro x
  rw [h.cover x]
  constructor
  · rintro ⟨i, hi, hx⟩
    exact ⟨i, hp.mem_iff.mp hi, hx⟩
  · rintro ⟨i, hi, hx⟩
    exact ⟨i, hp.mem_iff.mpr hi, hx⟩

theorem Tiles.split {lo m hi : ℕ} {h0 : lo < hi} (h : Tiles (⟨lo, hi, h0⟩ :: is) P)
    (h1 : lo < m) (h2 : m < hi) : Tiles (⟨lo, m, h1⟩ :: ⟨m, hi, h2⟩ :: is) P := by
  obtain ⟨hhead, htail⟩ := List.pairwise_cons.mp h.apart
  refine ⟨List.pairwise_cons.mpr ⟨?_, List.pairwise_cons.mpr ⟨?_, htail⟩⟩, ?_⟩
  · intro i hi'
    rcases List.mem_cons.mp hi' with rfl | hi'
    · exact Or.inl le_rfl
    · have := hhead i hi'
      simp only [Interval.Apart] at *
      omega
  · intro i hi'
    have := hhead i hi'
    simp only [Interval.Apart] at *
    omega
  · intro x
    rw [h.cover x]
    simp only [List.mem_cons, exists_eq_or_imp, Interval.Has]
    constructor
    · rintro (hx | hx)
      · by_cases hm : x < m
        · exact Or.inl ⟨hx.1, hm⟩
        · exact Or.inr (Or.inl ⟨by omega, hx.2⟩)
      · exact Or.inr (Or.inr hx)
    · rintro (hx | hx | hx)
      · exact Or.inl ⟨hx.1, by omega⟩
      · exact Or.inl ⟨by omega, hx.2⟩
      · exact Or.inr hx

theorem Tiles.join {lo mid hi : ℕ} {h1 : lo < mid} {h2 : mid < hi}
    (h : Tiles (⟨lo, mid, h1⟩ :: ⟨mid, hi, h2⟩ :: is) P) :
    Tiles (⟨lo, hi, h1.trans h2⟩ :: is) P := by
  obtain ⟨hfst, hrest⟩ := List.pairwise_cons.mp h.apart
  obtain ⟨hsnd, htail⟩ := List.pairwise_cons.mp hrest
  refine ⟨List.pairwise_cons.mpr ⟨?_, htail⟩, ?_⟩
  · intro i hi'
    have ha := hfst i (List.mem_cons_of_mem _ hi')
    have hb := hsnd i hi'
    have hpos := i.pos
    simp only [Interval.Apart] at *
    omega
  · intro x
    rw [h.cover x]
    simp only [List.mem_cons, exists_eq_or_imp, Interval.Has]
    constructor
    · rintro (hx | hx | hx)
      · exact Or.inl ⟨hx.1, by omega⟩
      · exact Or.inl ⟨by omega, hx.2⟩
      · exact Or.inr hx
    · rintro (hx | hx)
      · by_cases hm : x < mid
        · exact Or.inl ⟨hx.1, hm⟩
        · exact Or.inr (Or.inl ⟨by omega, hx.2⟩)
      · exact Or.inr (Or.inr hx)

theorem Tiles.add (h : Tiles is P) {i : Interval} (hout : ∀ x, i.Has x → ¬ P x) :
    Tiles (i :: is) (fun x => i.Has x ∨ P x) := by
  refine ⟨List.pairwise_cons.mpr ⟨?_, h.apart⟩, ?_⟩
  · intro j hj
    -- two intervals that are not apart share the larger of their starts
    by_contra hno
    have hipos := i.pos
    have hjpos := j.pos
    simp only [Interval.Apart, not_or, not_le] at hno
    refine hout (max i.lo j.lo) ⟨le_max_left _ _, by omega⟩ ?_
    exact (h.cover _).mpr ⟨j, hj, le_max_right _ _, by omega⟩
  · intro x
    rw [h.cover x]
    simp

end XldKernel.IntervalTiling
