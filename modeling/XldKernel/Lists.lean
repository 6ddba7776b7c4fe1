import Mathlib.Data.List.Nodup
import Mathlib.Tactic

/-!
# Lists

Lists without repetitions, filters of ranges, and a list that is laid over the start of
another one.
-/

namespace XldKernel.Lists
variable {α β : Type*}

theorem takeWhile_congr {p q : α → Bool} {xs : List α} (h : ∀ a ∈ xs, p a = q a) :
    xs.takeWhile p = xs.takeWhile q := by
  induction xs with
  | nil => rfl
  | cons x xs ih =>
    rw [List.takeWhile_cons, List.takeWhile_cons, h x List.mem_cons_self,
      ih fun a ha => h a (List.mem_cons_of_mem _ ha)]

theorem mem_before {pre post pre' post' : List α} {a b : α} (hnodup : (pre ++ b :: post).Nodup)
    (hsplit : pre ++ b :: post = pre' ++ a :: post') (ha : a ∈ post) : b ∈ pre' := by
  induction pre generalizing pre' with
  | nil =>
    have hb : b ∉ post := (List.nodup_cons.mp hnodup).1
    cases pre' with
    | nil =>
      obtain ⟨rfl, -⟩ := List.cons.inj hsplit
      exact absurd ha hb
    | cons x xs =>
      obtain ⟨rfl, -⟩ := List.cons.inj hsplit
      exact List.mem_cons_self
  | cons y ys ih =>
    obtain ⟨hy, hys⟩ := List.nodup_cons.mp hnodup
    cases pre' with
    | nil =>
      obtain ⟨rfl, -⟩ := List.cons.inj hsplit
      exact absurd (by simp [ha]) hy
    | cons x xs => exact List.mem_cons_of_mem x (ih hys (List.cons.inj hsplit).2)

theorem ne_of_nodup_middle {f : α → β} {pre post : List α} {m : α}
    (h : ((pre ++ m :: post).map f).Nodup) : ∀ m' ∈ pre ++ post, f m' ≠ f m := by
  intro m' hm' heq
  rw [List.map_append, List.map_cons, List.nodup_middle, List.nodup_cons, ← List.map_append] at h
  exact h.1 (heq ▸ List.mem_map_of_mem hm')

theorem filterMap_unique {f : α → Option β} {l : List α} (h : (l.filterMap f).Nodup) {a b : α}
    {c : β} (ha : a ∈ l) (hb : b ∈ l) (hac : f a = some c) (hbc : f b = some c) : a = b := by
  induction l with
  | nil => simp at ha
  | cons x l ih =>
    have hrest : (l.filterMap f).Nodup := h.sublist ((List.sublist_cons_self x l).filterMap f)
    have hno : ∀ y ∈ l, f x = some c → f y ≠ some c := by
      intro y hy hx hfy
      rw [List.filterMap_cons_some hx, List.nodup_cons] at h
      exact h.1 (List.mem_filterMap.mpr ⟨y, hy, hfy⟩)
    rcases List.mem_cons.mp ha with rfl | ha' <;> rcases List.mem_cons.mp hb with rfl | hb'
    · rfl
    · exact absurd hbc (hno b hb' hac)
    · exact absurd hac (hno a ha' hbc)
    · exact ih hrest ha' hb'

theorem filter_range_first {p : ℕ → Bool} {n y : ℕ} (hy : y < n) (hp : p y = true)
    (hmin : ∀ c < y, p c = false) :
    (List.range n).filter p = y :: ((List.range n).filter p).erase y := by
  obtain ⟨k, rfl⟩ : ∃ k, n = y + (k + 1) := ⟨n - y - 1, by omega⟩
  have hlow : (List.range y).filter p = [] := by
    rw [List.filter_eq_nil_iff]
    intro c hc
    rw [hmin c (List.mem_range.mp hc)]
    exact Bool.false_ne_true
  have hsplit : List.range (y + (k + 1)) =
      List.range y ++ y :: (List.range k).map (fun i => y + (i + 1)) := by
    rw [List.range_add, List.range_succ_eq_map, List.map_cons, List.map_map]
    rfl
  rw [hsplit, List.filter_append, hlow, List.nil_append, List.filter_cons_of_pos hp,
    List.erase_cons_head]

theorem filter_range_erase {p q : ℕ → Bool} {n y : ℕ} (hq : ∀ c < n, q c = (p c && c != y)) :
    (List.range n).filter q = ((List.range n).filter p).erase y := by
  rw [(List.nodup_range.filter p).erase_eq_filter, List.filter_filter]
  apply List.filter_congr
  intro c hc
  rw [hq c (List.mem_range.mp hc), Bool.and_comm]

section Overlay
variable {xs ys : List α} {s : ℕ}

theorem getElem?_overlay (q : ℕ) :
    (ys ++ xs.drop ys.length)[q]? = if q < ys.length then ys[q]? else xs[q]? := by
  by_cases hq : q < ys.length
  · rw [if_pos hq, List.getElem?_append_left hq]
  · rw [if_neg hq, List.getElem?_append_right (by omega), List.getElem?_drop,
      Nat.add_sub_cancel' (by omega)]

theorem getElem?_extend (hs : s ≤ xs.length) (q : ℕ) :
    (xs.take s ++ ys)[q]? = if q < s then xs[q]? else ys[q - s]? := by
  have hlen : (xs.take s).length = s := by simp [hs]
  by_cases hq : q < s
  · rw [if_pos hq, List.getElem?_append_left (by omega), List.getElem?_take_of_lt hq]
  · rw [if_neg hq, List.getElem?_append_right (by omega), hlen]

/-- A list laid over the start of another one continues its first `s` elements exactly
when these elements come again and again, in the list and behind it. -/
theorem extend_prefix_overlay (hs : 0 < s) (hxs : s ≤ xs.length) :
    xs.take s ++ ys <+: ys ++ xs.drop ys.length ↔
      (∀ q < ys.length, ys[q]? = xs[q % s]?) ∧
        ∀ q, s ≤ q → ys.length ≤ q → q < s + ys.length → xs[q]? = xs[q % s]? := by
  have hlen : (xs.take s ++ ys).length = s + ys.length := by simp [hxs]
  rw [List.prefix_iff_getElem?]
  simp only [hlen]
  constructor
  · intro h
    have hat : ∀ q < s + ys.length,
        (if q < ys.length then ys[q]? else xs[q]?) = if q < s then xs[q]? else ys[q - s]? := by
      intro q hq
      rw [← getElem?_overlay, ← getElem?_extend hxs, h q hq, List.getElem?_eq_getElem]
    -- by induction on the number of times that the elements have come already
    have hcyc : ∀ q < s + ys.length, (if q < ys.length then ys[q]? else xs[q]?) = xs[q % s]? := by
      intro q
      induction q using Nat.strong_induction_on with
      | _ q ih =>
        intro hq
        rw [hat q hq]
        by_cases hqs : q < s
        · rw [if_pos hqs, Nat.mod_eq_of_lt hqs]
        · have hback := ih (q - s) (by omega) (by omega)
          rw [if_pos (by omega), ← Nat.mod_eq_sub_mod (not_lt.mp hqs)] at hback
          rw [if_neg hqs, hback]
    refine ⟨fun q hq => ?_, fun q hqs hqy hq => ?_⟩
    · simpa only [if_pos hq] using hcyc q (by omega)
    · simpa only [if_neg (not_lt.mpr hqy)] using hcyc q hq
  · rintro ⟨hys, hbehind⟩ q hq
    rw [← List.getElem?_eq_getElem, getElem?_overlay, getElem?_extend hxs]
    by_cases hqs : q < s
    · rw [if_pos hqs]
      split_ifs with hqy
      · rw [hys q hqy, Nat.mod_eq_of_lt hqs]
      · rfl
    · rw [if_neg hqs, hys (q - s) (by omega), ← Nat.mod_eq_sub_mod (not_lt.mp hqs)]
      split_ifs with hqy
      · exact hys q hqy
      · exact hbehind q (not_lt.mp hqs) (not_lt.mp hqy) hq

end Overlay

end XldKernel.Lists
