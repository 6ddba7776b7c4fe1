import Mathlib.Data.List.TakeWhile
import Mathlib.Tactic

/-!
# The components of a list between separators

`components sep xs` are the pieces of `xs` between the separators `sep` that are not
empty, and `joined sep cs` has one separator between each two of the lists `cs`. The
two are inverse to each other on proper components and on lists in which every
separator stands between two components. An induction over a list goes from piece to
piece by `piece_induction`.
-/

namespace XldKernel.Components
variable {α : Type*} {sep : α} {xs x : List α} {cs ds : List (List α)}

def components [DecidableEq α] (sep : α) (xs : List α) : List (List α) :=
  (xs.splitOn sep).filter (· ≠ [])

def joined (sep : α) (cs : List (List α)) : List α := [sep].intercalate cs

def Proper (sep : α) (cs : List (List α)) : Prop := ∀ x ∈ cs, x ≠ [] ∧ sep ∉ x

theorem piece_induction (sep : α) {motive : List α → Prop} (nil : motive [])
    (last : ∀ x, sep ∉ x → x ≠ [] → motive x) (skip : ∀ xs, motive xs → motive (sep :: xs))
    (step : ∀ x xs, sep ∉ x → x ≠ [] → motive xs → motive (x ++ sep :: xs)) (xs : List α) :
    motive xs := by
  induction hn : xs.length using Nat.strong_induction_on generalizing xs with
  | _ n ih =>
    subst hn
    by_cases hsep : sep ∈ xs
    · obtain ⟨x, tail, rfl, hx⟩ := List.eq_append_cons_of_mem hsep
      have htail : motive tail := ih tail.length (by simp; omega) tail rfl
      by_cases hne : x = []
      · subst hne
        exact skip tail htail
      · exact step x tail hx hne htail
    · by_cases hne : xs = []
      · exact hne ▸ nil
      · exact last xs hsep hne

@[simp] theorem joined_nil : joined sep [] = [] := rfl

@[simp] theorem joined_singleton : joined sep [x] = x := List.intercalate_singleton

theorem joined_cons (x : List α) (hne : cs ≠ []) :
    joined sep (x :: cs) = x ++ sep :: joined sep cs := by
  obtain ⟨y, ys, rfl⟩ := List.exists_cons_of_ne_nil hne
  rw [joined, List.intercalate_cons_cons, List.append_assoc]
  rfl

theorem joined_append (hcs : cs ≠ []) (hds : ds ≠ []) :
    joined sep (cs ++ ds) = joined sep cs ++ sep :: joined sep ds := by
  induction cs with
  | nil => exact absurd rfl hcs
  | cons x cs ih =>
    by_cases hnil : cs = []
    · rw [hnil, List.singleton_append, joined_cons x hds, joined_singleton]
    · rw [List.cons_append, joined_cons x (by simp [hds]), ih hnil, joined_cons x hnil,
        List.append_assoc, List.cons_append]

theorem joined_length_lt (hcs : cs ≠ []) (h : cs <+: ds) (hlt : cs.length < ds.length) :
    (joined sep cs).length < (joined sep ds).length := by
  obtain ⟨es, rfl⟩ := h
  have hes : es ≠ [] := by
    rintro rfl
    simp at hlt
  rw [joined_append hcs hes, List.length_append, List.length_cons]
  omega

theorem joined_length_le_iff {es : List (List α)} (hcs : cs ≠ []) (hds : ds ≠ []) (hces : cs <+: es)
    (hdes : ds <+: es) :
    (joined sep cs).length ≤ (joined sep ds).length ↔ cs.length ≤ ds.length := by
  constructor
  · intro hle
    by_contra hlt
    have hpre := List.prefix_of_prefix_length_le hdes hces (not_le.mp hlt).le
    exact absurd hle (not_le.mpr (joined_length_lt hds hpre (not_le.mp hlt)))
  · intro hle
    have hpre := List.prefix_of_prefix_length_le hces hdes hle
    rcases hle.lt_or_eq with hlt | heq
    · exact (joined_length_lt hcs hpre hlt).le
    · rw [hpre.eq_of_length heq]

variable [DecidableEq α]

@[simp] theorem components_nil : components sep [] = [] := by simp [components]

theorem components_append_sep (sep : α) (xs ys : List α) :
    components sep (xs ++ sep :: ys) = components sep xs ++ components sep ys := by
  have hsplit : (xs ++ sep :: ys).splitOn sep = xs.splitOn sep ++ ys.splitOn sep :=
    List.splitOnP_append_cons xs ys (by simp)
  rw [components, hsplit, List.filter_append]
  rfl

@[simp] theorem components_sep_cons (xs : List α) :
    components sep (sep :: xs) = components sep xs := by
  simpa using components_append_sep sep [] xs

theorem components_piece (hx : sep ∉ x) (hne : x ≠ []) : components sep x = [x] := by
  rw [components, List.splitOn_eq_singleton hx]
  simp [hne]

theorem components_piece_sep (hx : sep ∉ x) (hne : x ≠ []) (xs : List α) :
    components sep (x ++ sep :: xs) = x :: components sep xs := by
  rw [components_append_sep, components_piece hx hne]
  rfl

theorem components_proper (sep : α) (xs : List α) : Proper sep (components sep xs) := by
  induction xs using piece_induction sep with
  | nil => simp [Proper]
  | last x hx hne => simp [Proper, components_piece hx hne, hx, hne]
  | skip xs ih => rwa [components_sep_cons]
  | step x xs hx hne ih =>
    rw [components_piece_sep hx hne]
    exact List.forall_mem_cons.mpr ⟨⟨hne, hx⟩, ih⟩

theorem components_flatten (sep : α) (xs : List α) :
    (components sep xs).flatten = xs.filter (· ≠ sep) := by
  have hkeep : ∀ {x : List α}, sep ∉ x → x.filter (· ≠ sep) = x := by
    intro x hx
    rw [List.filter_eq_self]
    intro c hc
    simpa using fun h : c = sep => hx (h ▸ hc)
  induction xs using piece_induction sep with
  | nil => simp
  | last x hx hne => rw [components_piece hx hne, hkeep hx, List.flatten_singleton]
  | skip xs ih => rw [components_sep_cons, ih, List.filter_cons_of_neg (by simp)]
  | step x xs hx hne ih =>
    rw [components_piece_sep hx hne, List.flatten_cons, ih, List.filter_append, hkeep hx,
      List.filter_cons_of_neg (by simp)]

theorem components_cons_of_ne {c : α} (hc : c ≠ sep) (xs : List α) :
    components sep (c :: xs) =
      (c :: xs.takeWhile (· ≠ sep)) :: components sep (xs.dropWhile (· ≠ sep)) := by
  have hpiece : ∀ {x : List α}, sep ∉ x → sep ∉ c :: x := fun hx => by
    simpa using ⟨Ne.symm hc, hx⟩
  have htake : ∀ {x : List α}, sep ∉ x → ∀ d ∈ x, decide (d ≠ sep) = true := fun hx d hd => by
    simpa using fun h : d = sep => hx (h ▸ hd)
  by_cases hsep : sep ∈ xs
  · obtain ⟨x, tail, rfl, hx⟩ := List.eq_append_cons_of_mem hsep
    rw [List.takeWhile_append_of_pos (htake hx), List.dropWhile_append_of_pos (htake hx),
      List.takeWhile_cons_of_neg (by simp), List.dropWhile_cons_of_neg (by simp), List.append_nil,
      components_sep_cons, ← List.cons_append, components_piece_sep (hpiece hx) (by simp)]
  · rw [List.takeWhile_eq_self_iff.mpr (htake hsep), List.dropWhile_eq_nil_iff.mpr (htake hsep),
      components_piece (hpiece hsep) (by simp), components_nil]

theorem components_append_seps {seps : List α} (hseps : ∀ c ∈ seps, c = sep) (xs : List α) :
    components sep (xs ++ seps) = components sep xs := by
  induction seps generalizing xs with
  | nil => rw [List.append_nil]
  | cons c seps ih =>
    obtain rfl : c = sep := hseps c List.mem_cons_self
    have hempty := ih (fun c hc => hseps c (List.mem_cons_of_mem _ hc)) []
    rw [List.nil_append, components_nil] at hempty
    rw [components_append_sep, hempty, List.append_nil]

theorem components_joined (hcs : Proper sep cs) : components sep (joined sep cs) = cs := by
  induction cs with
  | nil => simp
  | cons x cs ih =>
    obtain ⟨⟨hne, hx⟩, hcs⟩ := List.forall_mem_cons.mp hcs
    by_cases hnil : cs = []
    · rw [hnil, joined_singleton, components_piece hx hne]
    · rw [joined_cons x hnil, components_piece_sep hx hne, ih hcs]

theorem joined_components (hhead : xs.head? ≠ some sep) (hlast : xs.getLast? ≠ some sep)
    (hsingle : ¬ [sep, sep] <:+: xs) : joined sep (components sep xs) = xs := by
  induction xs using piece_induction sep with
  | nil => simp
  | last x hx hne => rw [components_piece hx hne, joined_singleton]
  | skip xs ih => simp at hhead
  | step x xs hx hne ih =>
    have hxs : xs ≠ [] := by
      rintro rfl
      simp at hlast
    have hrest := ih (fun h => hsingle ?_) (fun h => hlast ?_)
      fun h =>
        hsingle (h.trans (((List.suffix_cons sep xs).trans (List.suffix_append x _)).isInfix))
    · have hcomp : components sep xs ≠ [] := by
        intro hnil
        rw [hnil, joined_nil] at hrest
        exact hxs hrest.symm
      rw [components_piece_sep hx hne, joined_cons x hcomp, hrest]
    · obtain ⟨t, rfl⟩ := List.head?_eq_some_iff.mp h
      exact ⟨x, t, by simp⟩
    · rw [List.getLast?_append_of_ne_nil _ (by simp), List.getLast?_cons_of_ne_nil hxs, h]

def Closed (sep : α) (xs : List α) : Prop := xs = [] ∨ xs.getLast? = some sep

instance (sep : α) (xs : List α) : Decidable (Closed sep xs) := inferInstanceAs (Decidable (_ ∨ _))

def followed (sep : α) (xs : List α) : List (List α) :=
  if Closed sep xs then components sep xs else (components sep xs).dropLast

def final (sep : α) (xs : List α) : Option (List α) :=
  if Closed sep xs then none else (components sep xs).getLast?

omit [DecidableEq α] in
theorem closed_append_sep (xs ys : List α) : Closed sep (xs ++ sep :: ys) ↔ Closed sep ys := by
  cases ys with
  | nil => simp [Closed]
  | cons c ys => simp [Closed]

theorem components_ne_nil (h : ¬ Closed sep xs) : components sep xs ≠ [] := by
  induction xs using piece_induction sep with
  | nil => exact absurd (Or.inl rfl) h
  | last x hx hne => simp [components_piece hx hne]
  | skip xs ih =>
    rw [components_sep_cons]
    exact ih fun hxs => h ((closed_append_sep [] xs).mpr hxs)
  | step x xs hx hne ih => simp [components_piece_sep hx hne]

omit [DecidableEq α] in
theorem not_closed_piece (hx : sep ∉ x) (hne : x ≠ []) : ¬ Closed sep x := by
  rintro (h | h)
  · exact hne h
  · exact hx (List.mem_of_getLast? h)

theorem followed_piece (hx : sep ∉ x) (hne : x ≠ []) : followed sep x = [] := by
  rw [followed, if_neg (not_closed_piece hx hne), components_piece hx hne]
  rfl

theorem final_piece (hx : sep ∉ x) (hne : x ≠ []) : final sep x = some x := by
  rw [final, if_neg (not_closed_piece hx hne), components_piece hx hne]
  rfl

@[simp] theorem followed_sep_cons (xs : List α) : followed sep (sep :: xs) = followed sep xs := by
  have hclosed : Closed sep (sep :: xs) ↔ Closed sep xs := closed_append_sep [] xs
  simp only [followed, hclosed, components_sep_cons]

@[simp] theorem final_sep_cons (xs : List α) : final sep (sep :: xs) = final sep xs := by
  have hclosed : Closed sep (sep :: xs) ↔ Closed sep xs := closed_append_sep [] xs
  simp only [final, hclosed, components_sep_cons]

theorem followed_piece_sep (hx : sep ∉ x) (hne : x ≠ []) (xs : List α) :
    followed sep (x ++ sep :: xs) = x :: followed sep xs := by
  simp only [followed, closed_append_sep, components_piece_sep hx hne]
  split_ifs with h
  · rfl
  · rw [List.dropLast_cons_of_ne_nil (components_ne_nil h)]

theorem final_piece_sep (hx : sep ∉ x) (hne : x ≠ []) (xs : List α) :
    final sep (x ++ sep :: xs) = final sep xs := by
  simp only [final, closed_append_sep, components_piece_sep hx hne]
  split_ifs with h
  · rfl
  · rw [List.getLast?_cons_of_ne_nil (components_ne_nil h)]

omit [DecidableEq α] in
theorem joined_drop (hne : cs ≠ []) :
    (joined sep (cs ++ ds)).drop (joined sep cs).length =
      if ds = [] then [] else sep :: joined sep ds := by
  split_ifs with hds
  · rw [hds, List.append_nil, List.drop_length]
  · rw [joined_append hne hds, List.drop_left]

omit [DecidableEq α] in
theorem joined_head (hcs : Proper sep cs) : (joined sep cs).head? ≠ some sep := by
  cases cs with
  | nil => simp
  | cons x cs =>
    obtain ⟨⟨hne, hx⟩, -⟩ := List.forall_mem_cons.mp hcs
    obtain ⟨c, x, rfl⟩ := List.exists_cons_of_ne_nil hne
    have hc : c ≠ sep := fun h => hx (h ▸ List.mem_cons_self)
    by_cases hnil : cs = []
    · simpa [hnil] using hc
    · simpa [joined_cons _ hnil] using hc

theorem prefix_iff_joined (hcs : Proper sep cs) (hds : Proper sep ds) (hne : cs ≠ []) :
    cs <+: ds ↔ joined sep cs <+: joined sep ds ∧
      (((joined sep ds).drop (joined sep cs).length).head? = some sep ∨
        (joined sep ds).drop (joined sep cs).length = []) := by
  constructor
  · rintro ⟨es, rfl⟩
    rw [joined_drop hne]
    by_cases hes : es = []
    · simp [hes]
    · rw [if_neg hes, joined_append hne hes]
      exact ⟨List.prefix_append _ _, Or.inl rfl⟩
  · rintro ⟨⟨t, ht⟩, hend⟩
    rw [← ht, List.drop_left] at hend
    rw [← components_joined hds, ← ht]
    rcases hend with hhead | rfl
    · obtain ⟨t, rfl⟩ := List.head?_eq_some_iff.mp hhead
      rw [components_append_sep, components_joined hcs]
      exact List.prefix_append _ _
    · rw [List.append_nil, components_joined hcs]

theorem joined_rest (hds : Proper sep ds) (hne : cs ≠ []) :
    ((joined sep (cs ++ ds)).drop (joined sep cs).length).dropWhile (· = sep) = joined sep ds := by
  have hkeep : (joined sep ds).dropWhile (· = sep) = joined sep ds := by
    have hhead := joined_head hds
    cases hj : joined sep ds with
    | nil => rfl
    | cons c t =>
      rw [hj, List.head?_cons, ne_eq, Option.some_inj] at hhead
      rw [List.dropWhile_cons_of_neg (by simpa using hhead)]
  rw [joined_drop hne]
  split_ifs with hnil
  · simp [hnil]
  · rw [List.dropWhile_cons_of_pos (by simp), hkeep]

end XldKernel.Components
