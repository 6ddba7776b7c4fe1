import Mathlib.Data.List.Basic
import Mathlib.Tactic

/-!
# Paths of a successor function

`Path next p xs q` says that following `next` from `p` visits exactly the nodes
`xs`, in this order, and then stands at `q`. A list in memory that ends in a
null pointer and a cluster chain that ends in an end mark are paths to their
terminator.
-/

namespace XldKernel.LinkedPath
variable {α : Type*} {next next' : α → α} {p q r : α} {xs ys : List α}

def Path (next : α → α) : α → List α → α → Prop
  | p, [], q => p = q
  | p, x :: xs, q => p = x ∧ Path next (next x) xs q

@[simp] theorem path_nil : Path next p [] q ↔ p = q := Iff.rfl

@[simp] theorem path_cons {x : α} :
    Path next p (x :: xs) q ↔ p = x ∧ Path next (next x) xs q := Iff.rfl

instance Path.decidable [DecidableEq α] : ∀ p xs q, Decidable (Path next p xs q)
  | p, [], q => inferInstanceAs (Decidable (p = q))
  | p, x :: xs, q =>
    have := Path.decidable (next x) xs q
    inferInstanceAs (Decidable (p = x ∧ Path next (next x) xs q))

theorem path_append :
    Path next p (xs ++ ys) q ↔ ∃ r, Path next p xs r ∧ Path next r ys q := by
  induction xs generalizing p with
  | nil => simp
  | cons x xs ih => simp [ih, and_assoc]

theorem path_snoc {x : α} : Path next p (xs ++ [x]) q ↔ Path next p xs x ∧ next x = q := by
  simp [path_append]

theorem path_range' {next : ℕ → ℕ} {a n : ℕ} (h : ∀ x, a ≤ x → x < a + n → next x = x + 1) :
    Path next a (List.range' a n) (a + n) := by
  induction n generalizing a with
  | zero => rfl
  | succ n ih =>
    refine ⟨rfl, ?_⟩
    rw [h a le_rfl (by omega), ← Nat.add_assoc, Nat.add_right_comm]
    exact ih fun x hle hlt => h x (by omega) (by omega)

theorem Path.congr (h : Path next p xs q) (heq : ∀ x ∈ xs, next' x = next x) :
    Path next' p xs q := by
  induction xs generalizing p with
  | nil => exact h
  | cons x xs ih =>
    refine ⟨h.1, ?_⟩
    rw [heq x List.mem_cons_self]
    exact ih h.2 fun y hy => heq y (List.mem_cons_of_mem _ hy)

theorem Path.split {x : α} (h : Path next p (xs ++ x :: ys) q) :
    Path next p xs x ∧ Path next (next x) ys q := by
  obtain ⟨r, h1, h2, h3⟩ := path_append.mp h
  exact ⟨h2 ▸ h1, h3⟩

theorem Path.join {x : α} (h1 : Path next p xs x) (h2 : Path next (next x) ys q) :
    Path next p (xs ++ x :: ys) q :=
  path_append.mpr ⟨x, h1, rfl, h2⟩

theorem Path.unique (h : Path next p xs q) (h' : Path next p ys q) (hx : q ∉ xs) (hy : q ∉ ys) :
    xs = ys := by
  induction xs generalizing p ys with
  | nil =>
    cases ys with
    | nil => rfl
    | cons y ys =>
      have hp : p = q := h
      exact absurd (by rw [← hp, h'.1]; exact List.mem_cons_self) hy
  | cons x xs ih =>
    cases ys with
    | nil =>
      have hp : p = q := h'
      exact absurd (by rw [← hp, h.1]; exact List.mem_cons_self) hx
    | cons y ys =>
      have hxy : x = y := h.1.symm.trans h'.1
      subst hxy
      rw [ih h.2 h'.2 (fun hm => hx (List.mem_cons_of_mem _ hm))
        (fun hm => hy (List.mem_cons_of_mem _ hm))]

theorem Path.next_mem (h : Path next p xs q) {x : α} (hx : x ∈ xs) :
    next x ∈ xs ∨ next x = q := by
  obtain ⟨as, bs, rfl⟩ := List.append_of_mem hx
  have hrest := h.split.2
  cases bs with
  | nil => exact Or.inr hrest
  | cons b bs =>
    left
    rw [hrest.1]
    simp

theorem Path.next_getElem (h : Path next p xs q) {k : ℕ} (hk : k + 1 < xs.length) :
    next xs[k] = xs[k + 1] := by
  induction xs generalizing p k with
  | nil => simp at hk
  | cons x xs ih =>
    cases k with
    | zero =>
      cases xs with
      | nil => simp at hk
      | cons y ys => exact h.2.1
    | succ k => exact ih h.2 (by simpa using hk)

theorem Path.next_last (h : Path next p xs q) {k : ℕ} (hk : k + 1 = xs.length) :
    next xs[k] = q := by
  induction xs generalizing p k with
  | nil => simp at hk
  | cons x xs ih =>
    cases k with
    | zero =>
      have hnil : xs = [] := by simpa using hk
      subst hnil
      exact h.2
    | succ k => exact ih h.2 (by simpa using hk)

/-- A node met twice would be followed by two different paths to `q`. -/
theorem Path.nodup (h : Path next p xs q) (hq : q ∉ xs) : xs.Nodup := by
  induction xs generalizing p with
  | nil => exact List.nodup_nil
  | cons x xs ih =>
    have hq' : q ∉ xs := fun hm => hq (List.mem_cons_of_mem _ hm)
    refine List.nodup_cons.mpr ⟨?_, ih h.2 hq'⟩
    intro hx
    obtain ⟨as, bs, hsplit⟩ := List.append_of_mem hx
    have hpath := h.2
    rw [hsplit] at hpath
    have hbs : q ∉ bs := fun hm => hq' (by rw [hsplit]; simp [hm])
    have heq := hpath.split.2.unique h.2 hbs hq'
    have hlen := congrArg List.length hsplit
    rw [← heq] at hlen
    simp only [List.length_append, List.length_cons] at hlen
    omega

end XldKernel.LinkedPath
