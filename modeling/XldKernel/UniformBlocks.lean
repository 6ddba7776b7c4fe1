import Mathlib.Data.List.Basic
import Mathlib.Tactic

/-!
# Concatenations of blocks of one length, and reading a list in pieces

Element `n` of a concatenation of blocks of length `k` is element `n % k` of
block `n / k`.
-/

namespace XldKernel.UniformBlocks
variable {α β : Type*}

theorem length_flatMap {f : β → List α} {k : ℕ} {xs : List β} (hf : ∀ x ∈ xs, (f x).length = k) :
    (xs.flatMap f).length = xs.length * k := by
  induction xs with
  | nil => simp
  | cons x xs ih =>
    rw [List.flatMap_cons, List.length_append, hf x List.mem_cons_self,
      ih fun y hy => hf y (List.mem_cons_of_mem _ hy), List.length_cons, Nat.add_mul, Nat.one_mul,
      Nat.add_comm]

theorem getElem?_flatMap {f : β → List α} {k : ℕ} (hk : 0 < k) {xs : List β}
    (hf : ∀ x ∈ xs, (f x).length = k) (n : ℕ) :
    (xs.flatMap f)[n]? = xs[n / k]?.bind fun x => (f x)[n % k]? := by
  induction xs generalizing n with
  | nil => simp
  | cons x xs ih =>
    have hx := hf x List.mem_cons_self
    rw [List.flatMap_cons]
    by_cases hn : n < k
    · rw [List.getElem?_append_left (by omega), Nat.div_eq_of_lt hn, Nat.mod_eq_of_lt hn]
      rfl
    · have hdiv : n / k = (n - k) / k + 1 := by
        rw [← Nat.sub_add_cancel (Nat.le_of_not_lt hn), Nat.add_div_right _ hk, Nat.add_sub_cancel]
      have hmod : n % k = (n - k) % k := by
        rw [Nat.mod_eq_sub_mod (Nat.le_of_not_lt hn)]
      rw [List.getElem?_append_right (by omega), hx,
        ih (fun y hy => hf y (List.mem_cons_of_mem _ hy)) (n - k), hdiv, hmod,
        List.getElem?_cons_succ]

theorem pos_inside {pos n k : ℕ} (hin : pos % k + n < k) :
    (pos + n) / k = pos / k ∧ (pos + n) % k = pos % k + n := by
  constructor
  · nth_rewrite 1 [← Nat.div_add_mod pos k]
    rw [Nat.add_assoc, Nat.mul_add_div (by omega), Nat.div_eq_of_lt hin, Nat.add_zero]
  · rw [← Nat.mod_add_mod, Nat.mod_eq_of_lt hin]

theorem pos_boundary {pos n k : ℕ} (hk : 0 < k) (hfull : pos % k + n = k) :
    pos + n = (pos / k + 1) * k ∧ (pos + n) / k = pos / k + 1 ∧ (pos + n) % k = 0 := by
  have hdm := Nat.div_add_mod pos k
  have hnew : pos + n = (pos / k + 1) * k := by
    rw [Nat.add_mul, Nat.one_mul, Nat.mul_comm]
    omega
  refine ⟨hnew, ?_, ?_⟩
  · rw [hnew, Nat.mul_div_cancel _ hk]
  · rw [hnew, Nat.mul_mod_left]

def pieces : List α → List ℕ → List (List α)
  | _, [] => []
  | xs, n :: ns => xs.take n :: pieces (xs.drop n) ns

def counts : ℕ → List ℕ → List ℕ
  | _, [] => []
  | r, n :: ns => min n r :: counts (r - n) ns

theorem pieces_lengths (xs : List α) (ns : List ℕ) :
    (pieces xs ns).map List.length = counts xs.length ns := by
  induction ns generalizing xs with
  | nil => rfl
  | cons n ns ih => rw [pieces, List.map_cons, ih, counts, List.length_take, List.length_drop]

theorem pieces_flatten (xs : List α) (ns : List ℕ) : (pieces xs ns).flatten = xs.take ns.sum := by
  induction ns generalizing xs with
  | nil => simp [pieces]
  | cons n ns ih => rw [pieces, List.flatten_cons, ih, List.sum_cons, List.take_add]

end XldKernel.UniformBlocks
