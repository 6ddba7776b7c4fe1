import Mathlib.Data.List.Nodup
import Mathlib.Algebra.BigOperators.Group.Finset.Basic
import Mathlib.Tactic

/-!
# Levels of a tree and sums over them

A tree is given by the children of its nodes. `level children k xs` are the nodes `k`
steps below `xs`, and `deepSum children f n x` adds up `f` over the first `n` levels
below `x` in the order of a recursive descent. When no two nodes hold the same thing, the
sum is one over the set of the nodes.
-/

namespace XldKernel.TreeLevels
variable {α : Type*} {children : α → List α} {x : α} {xs : List α}

def level (children : α → List α) : ℕ → List α → List α
  | 0, xs => xs
  | k + 1, xs => level children k (xs.flatMap children)

def firstLevels (children : α → List α) (n : ℕ) (xs : List α) : List α :=
  (List.range n).flatMap fun k => level children k xs

theorem level_succ (k : ℕ) (xs : List α) :
    level children (k + 1) xs = (level children k xs).flatMap children := by
  induction k generalizing xs with
  | zero => rfl
  | succ k ih => exact ih (xs.flatMap children)

@[simp] theorem level_nil (k : ℕ) : level children k [] = [] := by
  induction k with
  | zero => rfl
  | succ k ih => exact ih

theorem firstLevels_succ (n : ℕ) (xs : List α) :
    firstLevels children (n + 1) xs = xs ++ firstLevels children n (xs.flatMap children) := by
  rw [firstLevels, List.range_succ_eq_map, List.flatMap_cons, List.flatMap_map]
  rfl

section Sums
variable {M : Type*} [AddCommMonoid M] (f : α → M)

def deepSum (children : α → List α) (f : α → M) : ℕ → α → M
  | 0, _ => 0
  | n + 1, x => f x + ((children x).map (deepSum children f n)).sum

theorem sum_deepSum (children : α → List α) (n : ℕ) (xs : List α) :
    (xs.map (deepSum children f n)).sum = ((firstLevels children n xs).map f).sum := by
  induction n generalizing xs with
  | zero =>
    have hzero : xs.map (deepSum children f 0) = xs.map fun _ => 0 := rfl
    rw [hzero, List.sum_map_zero]
    rfl
  | succ n ih =>
    have hstep : xs.map (deepSum children f (n + 1)) =
        xs.map fun x => f x + ((children x).map (deepSum children f n)).sum := rfl
    rw [hstep, List.sum_map_add, firstLevels_succ, List.map_append, List.sum_append, ← ih,
      List.map_flatMap, List.flatMap_def, List.sum_flatten, List.map_map]
    rfl

end Sums

section Disjoint
variable {β M : Type*} [DecidableEq α] [AddCommMonoid M] {g : α → List β} {f : α → M}

theorem count_le_one_of_disjoint (hg : (xs.flatMap g).Nodup) (hx : g x ≠ []) : xs.count x ≤ 1 := by
  have hapart := (List.nodup_flatMap.mp hg).2
  have hholders : (xs.filter fun y => g y ≠ []).Nodup := by
    refine (hapart.filter _).imp_of_mem fun {y z} hy _ hdisj => ?_
    rintro rfl
    have hne : g y ≠ [] := by simpa using (List.mem_filter.mp hy).2
    obtain ⟨b, hb⟩ := List.exists_mem_of_ne_nil _ hne
    exact hdisj hb hb
  have hcount := List.nodup_iff_count_le_one.mp hholders x
  rwa [List.count_filter (by simpa using hx)] at hcount

theorem sum_map_eq_sum_toFinset (hg : (xs.flatMap g).Nodup) (hf : ∀ x, g x = [] → f x = 0) :
    (xs.map f).sum = ∑ x ∈ xs.toFinset, f x := by
  rw [Finset.sum_list_map_count]
  refine Finset.sum_congr rfl fun x hx => ?_
  by_cases hnil : g x = []
  · rw [hf x hnil, smul_zero]
  · have hpos := List.count_pos_iff.mpr (List.mem_toFinset.mp hx)
    have hone : xs.count x = 1 := le_antisymm (count_le_one_of_disjoint hg hnil) hpos
    rw [hone, one_smul]

end Disjoint

end XldKernel.TreeLevels
