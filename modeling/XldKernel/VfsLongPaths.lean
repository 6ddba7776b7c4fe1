import XldKernel.VfsComponents

/-!
# VFS: paths that are longer than their buffers

Source: `kernel/src/vfs.c` (`translate_path`, `vfs_mount`, `vfs_umount`). The branch of
`translate_path` for a bind checks the length of what it builds. The branch without one,
`vfs_mount` and `vfs_umount` copy the first 255 characters and go on with these.
-/

namespace XldKernel.Vfs
open Components
variable {α : Type} {path : List UInt8}

/-- No character behind the first 255 is part of a component. -/
def NothingCut (path : List UInt8) : Prop :=
  ∀ c ∈ path.drop (pathMax - 1), c = slash ∨ ¬ (32 ≤ c ∧ c ≤ 126)

theorem pathComponents_take_iff (n : ℕ) (path : List UInt8) :
    pathComponents (path.take n) = pathComponents path ↔
      ∀ c ∈ path.drop n, c = slash ∨ ¬ (32 ≤ c ∧ c ≤ 126) := by
  have hsplit : path.filter (fun c => 32 ≤ c ∧ c ≤ 126) =
      (path.take n).filter (fun c => 32 ≤ c ∧ c ≤ 126) ++
        (path.drop n).filter fun c => 32 ≤ c ∧ c ≤ 126 := by
    rw [← List.filter_append, List.take_append_drop]
  constructor
  · intro h c hc
    by_contra hno
    obtain ⟨hslash, hprint⟩ := not_or.mp hno
    -- the components of the whole path have one more character
    have hflat := congrArg List.flatten h
    rw [pathComponents, pathComponents, components_flatten, components_flatten, hsplit,
      List.filter_append, List.self_eq_append_right, List.filter_eq_nil_iff] at hflat
    have hmem : c ∈ (path.drop n).filter fun c => 32 ≤ c ∧ c ≤ 126 := by
      rw [List.mem_filter, decide_eq_true_eq]
      exact ⟨hc, not_not.mp hprint⟩
    exact hflat c hmem (by simpa using hslash)
  · intro h
    rw [pathComponents, pathComponents, hsplit, components_append_seps]
    intro c hc
    obtain ⟨hc, hprint⟩ := List.mem_filter.mp hc
    exact (h c hc).resolve_right (not_not_intro (by simpa using hprint))

section Cut
variable (hhead : path.head? = some slash)
include hhead

theorem head_take : (path.take (pathMax - 1)).head? = some slash := by
  obtain ⟨src, rfl⟩ := List.head?_eq_some_iff.mp hhead
  rfl

theorem normalizePath_fst : (normalizePath path).1 = true := by rw [normalizePath_eq hhead]

theorem normalizePath_cut_iff :
    (normalizePath (path.take (pathMax - 1))).2 = (normalizePath path).2 ↔ NothingCut path := by
  rw [normalizePath_eq hhead, normalizePath_eq (head_take hhead),
    canonicalPath_inj (pathComponents_proper _) (pathComponents_proper _), pathComponents_take_iff]
  rfl

end Cut

/-- The string that a user path stands for: the path of the bind, if there is one, and the
user path behind it. -/
def completePath (s : State α) (userPath : List UInt8) : List UInt8 :=
  s.bindPath.elim userPath (· ++ userPath)

def TranslatesWhole (s : State α) (path : List UInt8) : Prop :=
  ∀ realPath, translatePath s path = some realPath →
    normalizePath (completePath s path) = (true, realPath)

def MountsWhole (s : State α) (path : List UInt8) (fs : α) (node : Option ℕ) (copy : Bool) : Prop :=
  (∃ e t, vfsMount s path fs node copy = (.error e, t) ∧ t.mounts = s.mounts ∧
    t.rootBind = s.rootBind) ∨
  ∃ addr t, vfsMount s path fs node copy = (.ok (), t) ∧
    t.mounts = ⟨addr, (normalizePath path).2, fs⟩ :: s.mounts

def UmountsWhole (s : State α) (path : List UInt8) : Prop :=
  (∃ e, vfsUmount s path = (.error e, s)) ∨
  ∃ pre m post t, vfsUmount s path = (.ok (), t) ∧ s.mounts = pre ++ m :: post ∧
    m.path = (normalizePath path).2 ∧ t.mounts = pre ++ post

theorem unlink_none_iff {norm : List UInt8} {ms : List (Mount α)} :
    unlink norm ms = none ↔ ∀ m ∈ ms, m.path ≠ norm := by
  induction ms with
  | nil => simp [unlink]
  | cons m ms ih =>
    rw [unlink, List.forall_mem_cons]
    split_ifs with hm
    · simp [hm]
    · simp [hm, ih]

theorem taken_out_unique {pre post pre' post' : List (Mount α)} {m m' : Mount α}
    (hpaths : ((pre ++ m :: post).map (·.path)).Nodup)
    (hsplit : pre ++ m :: post = pre' ++ m' :: post') (hrest : pre ++ post = pre' ++ post') :
    m = m' := by
  by_contra hne
  have hother : m ∈ pre' ++ post' := by
    have hm : m ∈ pre' ++ m' :: post' := hsplit ▸ List.mem_append_right _ List.mem_cons_self
    simpa [hne] using hm
  rw [← hrest] at hother
  exact Lists.ne_of_nodup_middle hpaths m hother rfl

section Calls
variable {s : State α} (hs : Consistent s) (hhead : path.head? = some slash)
include hhead

theorem translatePath_cut (hbind : s.bindPath = none) :
    translatePath s path = some (normalizePath (path.take (pathMax - 1))).2 := by
  rw [translatePath, if_neg (not_not_intro hhead), hbind]
  dsimp only
  rw [normalizePath_eq (head_take hhead)]

theorem translatePath_whole (hbind : s.bindPath = some mntPath) : TranslatesWhole s path := by
  intro realPath hreal
  rw [completePath, hbind]
  rw [translatePath, if_neg (not_not_intro hhead), hbind] at hreal
  dsimp only at hreal
  split_ifs at hreal with hone hlong
  · -- `/` alone, where the path of the bind is copied
    obtain ⟨src, rfl⟩ := List.head?_eq_some_iff.mp hhead
    obtain rfl : src = [] := List.length_eq_zero_iff.mp (by simpa using hone)
    rw [← Option.some_inj.mp hreal]
    decide
  · have hmnt : (mntPath ++ path).head? = some slash := rfl
    rw [normalizePath_eq hmnt] at hreal
    rw [← Option.some_inj.mp hreal, ← normalizePath_eq hmnt]
    rfl

include hs

theorem translatesWhole_iff :
    TranslatesWhole s path ↔ (∃ m ∈ s.mounts, m.path = mntPath) ∨ NothingCut path := by
  by_cases hmnt : ∃ m ∈ s.mounts, m.path = mntPath
  · exact iff_of_true (translatePath_whole hhead (hs.bindPath hmnt)) (Or.inl hmnt)
  have hbind : s.bindPath = none := hs.unboundPath fun m hm hpath => hmnt ⟨m, hm, hpath⟩
  rw [or_iff_right hmnt, ← normalizePath_cut_iff hhead, TranslatesWhole,
    translatePath_cut hhead hbind, completePath, hbind]
  simp only [Option.some_inj, forall_eq', Option.elim_none]
  constructor
  · intro h
    rw [h]
  · exact fun h => Prod.ext (normalizePath_fst hhead) h.symm

theorem mountsWhole_iff (fs : α) (node : Option ℕ) (copy : Bool) :
    MountsWhole s path fs node copy ↔ NothingCut path ∨
      (∃ m ∈ s.mounts, m.path = (normalizePath (path.take (pathMax - 1))).2) ∨
      node = none ∨ copy = false := by
  rw [← normalizePath_cut_iff hhead]
  obtain ⟨cut, hcut⟩ : ∃ cut, normalizePath (path.take (pathMax - 1)) = (true, cut) :=
    ⟨_, normalizePath_eq (head_take hhead)⟩
  have hfails : ∀ e, vfsMount s path fs node copy = (.error e, { s with initialized := true }) →
      MountsWhole s path fs node copy := fun e he => Or.inl ⟨e, _, he, rfl, rfl⟩
  rw [vfsMount, hs.init, hcut] at hfails
  dsimp only at hfails ⊢
  by_cases hany : ∃ m ∈ s.mounts, m.path = cut
  · obtain ⟨m, hm, hpath⟩ := hany
    have hexists : s.mounts.any (·.path = cut) = true :=
      List.any_eq_true.mpr ⟨m, hm, decide_eq_true hpath⟩
    rw [if_pos hexists] at hfails
    exact iff_of_true (hfails _ rfl) (by rw [hcut]; exact Or.inr (Or.inl ⟨m, hm, hpath⟩))
  · have hnew : ¬ s.mounts.any (·.path = cut) = true := by simpa using hany
    rw [if_neg hnew] at hfails
    cases node with
    | none => exact iff_of_true (hfails _ rfl) (by simp)
    | some addr =>
      cases copy with
      | false => exact iff_of_true (hfails _ rfl) (by simp)
      | true =>
        have hok : vfsMount s path fs (some addr) true =
            (.ok (), ⟨⟨addr, cut, fs⟩ :: s.mounts, if cut = mntPath then some addr else s.rootBind,
              true⟩) := by
          rw [vfsMount, hs.init, hcut]
          dsimp only
          rw [if_neg hnew]
        rw [MountsWhole, hok, hcut]
        simp [hany]

theorem umountsWhole_iff :
    UmountsWhole s path ↔ NothingCut path ∨
      ∀ m ∈ s.mounts, m.path ≠ (normalizePath (path.take (pathMax - 1))).2 := by
  rw [← normalizePath_cut_iff hhead]
  generalize hcut : (normalizePath (path.take (pathMax - 1))).2 = cut
  cases hunlink : unlink cut s.mounts with
  | none =>
    refine iff_of_true (Or.inl ⟨.notFound, ?_⟩) (Or.inr (unlink_none_iff.mp hunlink))
    rw [vfsUmount, hcut, hunlink]
  | some found =>
    obtain ⟨m, rest⟩ := found
    obtain ⟨pre, post, hsplit, rfl, hpath⟩ := unlink_some hunlink
    have hmem : m ∈ s.mounts := by simp [hsplit]
    have hres : vfsUmount s path = (.ok (), ⟨pre ++ post,
        if some m.addr = s.rootBind then none else s.rootBind, s.initialized⟩) := by
      rw [vfsUmount, hcut, hunlink]
    rw [or_iff_left fun h => h m hmem hpath]
    constructor
    · rintro (⟨e, he⟩ | ⟨pre', m', post', t, ht, hsplit', hpath', hmounts⟩)
      · rw [hres] at he
        simp at he
      · rw [hres] at ht
        obtain rfl := (Prod.mk.inj ht).2
        obtain rfl := taken_out_unique (hsplit ▸ hs.paths) (hsplit.symm.trans hsplit') hmounts
        exact hpath.symm.trans hpath'
    · intro heq
      exact Or.inr ⟨pre, m, post, _, hres, hsplit, hpath.trans heq, rfl⟩

end Calls

/-- Without a bind the path is cut after 255 characters, and so it is by the two calls that
change the table, unless the call fails for another reason. -/
theorem paths_whole_iff (s : State α) (hs : Consistent s) (path : List UInt8)
    (hhead : path.head? = some slash) (fs : α) (node : Option ℕ) (copy : Bool) :
    (TranslatesWhole s path ↔ (∃ m ∈ s.mounts, m.path = mntPath) ∨ NothingCut path) ∧
    (MountsWhole s path fs node copy ↔ NothingCut path ∨
      (∃ m ∈ s.mounts, m.path = (normalizePath (path.take (pathMax - 1))).2) ∨
      node = none ∨ copy = false) ∧
    (UmountsWhole s path ↔ NothingCut path ∨
      ∀ m ∈ s.mounts, m.path ≠ (normalizePath (path.take (pathMax - 1))).2) :=
  ⟨translatesWhole_iff hs hhead, mountsWhole_iff hs hhead fs node copy, umountsWhole_iff hs hhead⟩

theorem paths_whole_short :
    TranslatesWhole (State.start : State Unit) [47, 97, 47] ∧
    MountsWhole (State.start : State Unit) [47, 97, 47] () (some 8) true ∧
    UmountsWhole (State.start : State Unit) [47, 97, 47] := by
  obtain ⟨htrans, hmount, humount⟩ := paths_whole_iff (State.start : State Unit) consistent_start
    [47, 97, 47] rfl () (some 8) true
  have hnothing : NothingCut [47, 97, 47] := by simp [NothingCut, pathMax]
  exact ⟨htrans.mpr (Or.inr hnothing), hmount.mpr (Or.inl hnothing), humount.mpr (Or.inl hnothing)⟩

def longPath : List UInt8 := 47 :: List.replicate 300 97

def cutMounted : State Unit := ⟨[⟨8, longPath.take 255, ()⟩], none, true⟩

theorem long_paths_cut :
    normalizePath longPath = (true, longPath) ∧
    translatePath (State.start : State Unit) longPath = some (longPath.take 255) ∧
    vfsMount (State.start : State Unit) longPath () (some 8) true = (.ok (), cutMounted) ∧
    vfsUmount cutMounted longPath = (.ok (), ⟨[], none, true⟩) ∧ longPath.take 255 ≠ longPath := by
  have hcut : normalizePath (longPath.take (pathMax - 1)) = (true, longPath.take 255) := by
    decide +kernel
  refine ⟨by decide +kernel, by decide +kernel, ?_, ?_, by decide +kernel⟩
  · rw [vfsMount, hcut]
    rfl
  · rw [vfsUmount, hcut, cutMounted, unlink, if_pos rfl]
    rfl

end XldKernel.Vfs
