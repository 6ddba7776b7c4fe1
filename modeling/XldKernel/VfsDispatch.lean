import XldKernel.Vfs

/-!
# VFS: which mount a path is dispatched to

Source: `kernel/src/vfs.c`, the part of `vfs_open`, `vfs_stat` and `vfs_mkdir` before
the call of the driver. A path below a mount point reaches the mount when no bind
rewrites it and the mount point is not the root, whose only character is the slash that
the boundary check then looks for behind it.
-/

namespace XldKernel.Vfs
open GuardedRun
variable {α : Type}

def dispatch (noMount : VfsErr) (s : State α) (path : List UInt8) :
    Except VfsErr (Mount α × List UInt8) :=
  if path.head? ≠ some slash then .error .generic
  else
    match translatePath s path with
    | none => .error .generic
    | some realPath =>
      match findMountForRealPath s realPath with
      | none => .error noMount
      | some (m, relPath) => .ok (m, relPath)

def vfsOpenDispatch (s : State α) (path : List UInt8) := dispatch .notFound s path

def vfsStatDispatch (s : State α) (path : List UInt8) := dispatch .notSupp s path

def vfsMkdirDispatch (s : State α) (path : List UInt8) := dispatch .notSupp s path

theorem dispatch_ok {noMount : VfsErr} {s : State α} {path : List UInt8}
    {found : Mount α × List UInt8} :
    dispatch noMount s path = .ok found ↔ route s path = some found := by
  rw [dispatch, route]
  by_cases hhead : path.head? ≠ some slash
  · simp [if_pos hhead, translatePath]
  rw [if_neg hhead]
  cases translatePath s path with
  | none => simp
  | some realPath =>
    dsimp only [Option.bind_some]
    cases findMountForRealPath s realPath <;> simp

theorem normalizeLoop_self {path : List UInt8} {lastSlash : Bool}
    (hsingle : ¬ [slash, slash] <:+: path) (hprint : ∀ c ∈ path, 32 ≤ c ∧ c ≤ 126)
    (hhead : lastSlash = true → path.head? ≠ some slash) : normalizeLoop lastSlash path = path := by
  induction path generalizing lastSlash with
  | nil => rfl
  | cons c path ih =>
    rw [slashes_infix_cons, not_or] at hsingle
    have hrest : ∀ c ∈ path, 32 ≤ c ∧ c ≤ 126 := fun x hx => hprint x (List.mem_cons_of_mem _ hx)
    rw [normalizeLoop]
    by_cases hc : c = slash
    · have hlast : ¬ lastSlash = true := fun h => hhead h (by rw [hc]; rfl)
      rw [if_pos hc, if_neg hlast, ih hsingle.2 hrest fun _ h => hsingle.1 ⟨hc, h⟩, hc]
    · rw [if_neg hc, if_pos (hprint c List.mem_cons_self), ih hsingle.2 hrest (by simp)]

theorem Normalized.eq_self {path : List UInt8} (h : Normalized path) :
    normalizePath path = (true, path) := by
  have hne : path ≠ [] := by
    rintro rfl
    exact absurd h.head (by simp)
  have hlast : ¬ (1 < path.length ∧ path.getLast? = some slash) := by
    rintro ⟨hlen, hlast⟩
    rw [h.last hlast] at hlen
    exact absurd hlen (by decide)
  rw [normalizePath, if_neg (not_not_intro h.head),
    normalizeLoop_self h.single h.printable (by simp)]
  dsimp only
  rw [if_neg hlast, if_neg hne]

theorem slashes_infix_append {xs ys : List UInt8} :
    [slash, slash] <:+: xs ++ ys ↔ [slash, slash] <:+: xs ∨ [slash, slash] <:+: ys ∨
      (xs.getLast? = some slash ∧ ys.head? = some slash) := by
  induction xs with
  | nil => simp
  | cons x xs ih =>
    rw [List.cons_append, slashes_infix_cons, ih, slashes_infix_cons]
    cases xs with
    | nil => simp; tauto
    | cons y xs => simp; tauto

structure NormalizedRel (r : List UInt8) : Prop where
  nonempty : r ≠ []
  normalized : Normalized (slash :: r)

def childPath (p r : List UInt8) : List UInt8 := if p = [slash] then slash :: r else p ++ slash :: r

theorem NormalizedRel.head {r : List UInt8} (h : NormalizedRel r) : r.head? ≠ some slash := by
  intro hhead
  exact h.normalized.single (slashes_infix_cons.mpr (Or.inl ⟨rfl, hhead⟩))

theorem Normalized.child {p r : List UInt8} (hp : Normalized p) (hr : NormalizedRel r) :
    Normalized (childPath p r) := by
  rw [childPath]
  split_ifs with hroot
  · exact hr.normalized
  refine ⟨?_, ?_, ?_, ?_⟩
  · rw [List.head?_append, hp.head]
    rfl
  · rw [slashes_infix_append]
    rintro (hin | hin | ⟨hlast, -⟩)
    · exact hp.single hin
    · exact hr.normalized.single hin
    · exact hroot (hp.last hlast)
  · intro hlast
    rw [List.getLast?_append_of_ne_nil _ (by simp)] at hlast
    exact absurd (List.cons.inj (hr.normalized.last hlast)).2 hr.nonempty
  · intro c hc
    rcases List.mem_append.mp hc with hc | hc
    · exact hp.printable c hc
    · exact hr.normalized.printable c hc

theorem childPath_length {p r : List UInt8} (hr : r ≠ []) : 1 < (childPath p r).length := by
  have hpos := List.length_pos_iff.mpr hr
  rw [childPath]
  split_ifs <;> simp <;> omega

theorem bestMount_covers {realPath : List UInt8} {best : Option (Mount α)} {ms : List (Mount α)}
    {m : Mount α} (h : bestMount realPath best ms = some m)
    (hbest : ∀ b, best = some b → b.Covers realPath) : m.Covers realPath := by
  induction ms generalizing best with
  | nil => exact hbest m h
  | cons x ms ih =>
    rw [bestMount] at h
    split_ifs at h with hx
    · exact ih h fun b hb => by rw [← Option.some_inj.mp hb]; exact hx.1
    · exact ih h hbest

theorem bestMount_longest {realPath : List UInt8} {best : Option (Mount α)} {ms : List (Mount α)}
    {m : Mount α} (hcov : m.Covers realPath)
    (hlong : ∀ m' ∈ ms, m'.Covers realPath → m' ≠ m → m'.path.length < m.path.length)
    (hbest : best = some m ∨ m ∈ ms ∧ best.elim 0 (fun b => b.path.length) < m.path.length) :
    bestMount realPath best ms = some m := by
  induction ms generalizing best with
  | nil => exact hbest.resolve_right (by simp)
  | cons x ms ih =>
    have hrest := fun m' hm' => hlong m' (List.mem_cons_of_mem _ hm')
    rw [bestMount]
    by_cases hx : x = m
    · rw [hx]
      split_ifs with hlt
      · exact ih hrest (Or.inl rfl)
      · refine ih hrest (Or.inl (hbest.resolve_right fun h => hlt ⟨hcov, h.2⟩))
    · have hxlong := fun hc => hlong x List.mem_cons_self hc hx
      split_ifs with hlt
      · have hshort := hxlong hlt.1
        refine ih hrest (Or.inr ⟨?_, hshort⟩)
        rcases hbest with rfl | ⟨hmem, -⟩
        · exact absurd hlt.2 (Nat.lt_asymm hshort)
        · exact (List.mem_cons.mp hmem).resolve_left (Ne.symm hx)
      · exact ih hrest (hbest.imp_right fun h =>
          ⟨(List.mem_cons.mp h.1).resolve_left (Ne.symm hx), h.2⟩)

def ComponentPrefix (p path : List UInt8) : Prop :=
  p = [slash] ∨ (p <+: path ∧ ((path.drop p.length).head? = some slash ∨ path.drop p.length = []))

theorem Consistent.bindPath {s : State α} (h : Consistent s)
    (hmnt : ∃ m ∈ s.mounts, m.path = mntPath) :
    s.bindPath = some mntPath := by
  obtain ⟨m, hm, hpath⟩ := hmnt
  rw [State.bindPath, h.bound m hm hpath, Option.bind_some]
  cases hfind : s.mounts.find? (·.addr = m.addr) with
  | none => exact absurd (List.find?_eq_none.mp hfind m hm) (by simp)
  | some m' =>
    have haddr : m'.addr = m.addr := by simpa using List.find?_some hfind
    obtain rfl : m' = m :=
      List.inj_on_of_nodup_map h.addrs (List.mem_of_find?_eq_some hfind) hm haddr
    rw [Option.map_some, hpath]

theorem Consistent.unboundPath {s : State α} (h : Consistent s)
    (hmnt : ∀ m ∈ s.mounts, m.path ≠ mntPath) : s.bindPath = none := by
  rw [State.bindPath, h.unbound hmnt, Option.bind_none]

theorem translatePath_unbound {s : State α} (hbind : s.bindPath = none) {path : List UInt8}
    (h : Normalized path) (hlen : path.length ≤ 255) : translatePath s path = some path := by
  rw [translatePath, if_neg (not_not_intro h.head), hbind]
  dsimp only
  rw [List.take_of_length_le (by rw [pathMax]; omega), h.eq_self]

theorem mntPath_normalized : Normalized mntPath :=
  ⟨rfl, by decide, by decide, by simp [mntPath]⟩

theorem translatePath_bound {s : State α} (hbind : s.bindPath = some mntPath)
    {path realPath : List UInt8} (h : Normalized path) (hlen : 1 < path.length)
    (hreal : translatePath s path = some realPath) :
    realPath = mntPath ++ path ∧ Normalized realPath := by
  obtain ⟨r, rfl⟩ := List.head?_eq_some_iff.mp h.head
  have hr : NormalizedRel r := by
    refine ⟨?_, h⟩
    rintro rfl
    exact absurd hlen (by simp)
  have hnorm : Normalized (mntPath ++ slash :: r) := mntPath_normalized.child hr
  rw [translatePath, if_neg (not_not_intro h.head), hbind] at hreal
  dsimp only at hreal
  rw [if_neg (by omega)] at hreal
  split_ifs at hreal
  rw [hnorm.eq_self] at hreal
  obtain rfl := Option.some_inj.mp hreal
  exact ⟨rfl, hnorm⟩

theorem root_not_covers {m : Mount α} (hroot : m.path = [slash]) {path : List UInt8}
    (h : Normalized path) (hlen : 1 < path.length) : ¬ m.Covers path := by
  rintro ⟨-, hend⟩
  obtain ⟨r, rfl⟩ := List.head?_eq_some_iff.mp h.head
  rw [hroot] at hend
  rcases hend with hhead | hnil
  · exact h.single (slashes_infix_cons.mpr (Or.inl ⟨rfl, hhead⟩))
  · obtain rfl : r = [] := by simpa using hnil
    exact absurd hlen (by simp)

theorem relPath_length {path : List UInt8} (h : Normalized path) (n : ℕ) :
    (path.drop n).length ≤ ((path.drop n).dropWhile (· = slash)).length + 1 := by
  have hsingle : ¬ [slash, slash] <:+: path.drop n := fun hin =>
    h.single (hin.trans (List.drop_suffix n path).isInfix)
  generalize path.drop n = d at hsingle
  match d with
  | [] => simp
  | [c] => simp
  | c :: c' :: d =>
    by_cases hc : c = slash
    · have hc' : c' ≠ slash :=
        fun hc' => hsingle (slashes_infix_cons.mpr (Or.inl ⟨hc, by rw [hc']; rfl⟩))
      simp [hc, hc']
    · simp [hc]

theorem childPath_covers {m : Mount α} {r : List UInt8} (hroot : m.path ≠ [slash]) :
    m.Covers (childPath m.path r) := by
  rw [childPath, if_neg hroot]
  exact ⟨List.prefix_append _ _, Or.inl (by simp)⟩

theorem Consistent.route_child {s : State α} (h : Consistent s) {m : Mount α} (hm : m ∈ s.mounts)
    {r : List UInt8} (hr : NormalizedRel r) (hfit : (childPath m.path r).length ≤ 255)
    (hlong : ∀ m' ∈ s.mounts, ComponentPrefix m'.path (childPath m.path r) →
      m'.path.length ≤ m.path.length)
    (hbind : ∀ m' ∈ s.mounts, m'.path ≠ mntPath) (hroot : m.path ≠ [slash]) :
    route s (childPath m.path r) = some (m, r) := by
  have hnorm := (h.normalized m hm).child hr
  have hcov : m.Covers (childPath m.path r) := childPath_covers hroot
  have hpos : 0 < m.path.length := by
    rw [List.length_pos_iff]
    intro hnil
    exact absurd (h.normalized m hm).head (by simp [hnil])
  have hstrict : ∀ m' ∈ s.mounts, m'.Covers (childPath m.path r) → m' ≠ m →
      m'.path.length < m.path.length := by
    intro m' hm' hcov' hne
    refine lt_of_le_of_ne (hlong m' hm' (Or.inr hcov')) fun hlen => hne ?_
    have hpath : m'.path = m.path :=
      (List.prefix_of_prefix_length_le hcov'.1 hcov.1 hlen.le).eq_of_length hlen
    exact List.inj_on_of_nodup_map h.paths hm' hm hpath
  have hne : childPath m.path r ≠ [] := by
    rw [← List.length_pos_iff]
    exact Nat.lt_trans Nat.zero_lt_one (childPath_length hr.nonempty)
  have hbest : bestMount (childPath m.path r) none s.mounts = some m :=
    bestMount_longest hcov hstrict (Or.inr ⟨hm, hpos⟩)
  rw [route, translatePath_unbound (h.unboundPath hbind) hnorm hfit, Option.bind_some,
    findMountForRealPath, if_neg hne, hbest, Option.map_some]
  obtain ⟨c, r, rfl⟩ := List.exists_cons_of_ne_nil hr.nonempty
  have hc : c ≠ slash := by simpa using hr.head
  simp [childPath, hroot, hc]

theorem Consistent.not_route_child {s : State α} (h : Consistent s) {m : Mount α}
    (hm : m ∈ s.mounts) {r : List UInt8} (hr : NormalizedRel r)
    (hfit : (childPath m.path r).length ≤ 255)
    (hbad : (∃ m' ∈ s.mounts, m'.path = mntPath) ∨ m.path = [slash]) :
    route s (childPath m.path r) ≠ some (m, r) := by
  intro hroute
  have hnorm := (h.normalized m hm).child hr
  have hlen : 1 < (childPath m.path r).length := childPath_length hr.nonempty
  obtain ⟨realPath, hreal, hfind⟩ := Option.bind_eq_some_iff.mp hroute
  rw [findMountForRealPath] at hfind
  split_ifs at hfind
  obtain ⟨m', hbest, heq⟩ := Option.map_eq_some_iff.mp hfind
  obtain ⟨rfl, hrel⟩ := Prod.mk.inj heq
  have hcov : m'.Covers realPath := bestMount_covers hbest (by simp)
  by_cases hmnt : ∃ m ∈ s.mounts, m.path = mntPath
  · obtain ⟨rfl, hnormal⟩ := translatePath_bound (h.bindPath hmnt) hnorm hlen hreal
    by_cases hroot : m'.path = [slash]
    · exact root_not_covers hroot hnormal (by rw [List.length_append]; omega) hcov
    · -- the driver would get a path that is too long by `/mnt`
      have hle := relPath_length hnormal m'.path.length
      have hmntlen : mntPath.length = 4 := rfl
      rw [hrel, childPath, if_neg hroot] at hle
      simp only [List.length_drop, List.length_append, List.length_cons, hmntlen] at hle
      omega
  · have hno : ∀ m ∈ s.mounts, m.path ≠ mntPath := fun m hm hpath => hmnt ⟨m, hm, hpath⟩
    rw [translatePath_unbound (h.unboundPath hno) hnorm hfit] at hreal
    obtain rfl := Option.some_inj.mp hreal
    exact root_not_covers (hbad.resolve_left hmnt) hnorm hlen hcov

/-- A path below a mount reaches the mount if and only if nothing is mounted on `/mnt` and the
mount point is not the root. -/
theorem mount_reached_iff (calls : List (Call α))
    (hok : Allowed State.step State.Permitted State.start calls) (s : State α)
    (hrun : run State.step State.start calls = some s) (m : Mount α) (hm : m ∈ s.mounts)
    (r : List UInt8) (hr : NormalizedRel r) (hfit : (childPath m.path r).length ≤ 255)
    (hlong : ∀ m' ∈ s.mounts, ComponentPrefix m'.path (childPath m.path r) →
      m'.path.length ≤ m.path.length) :
    (vfsOpenDispatch s (childPath m.path r) = .ok (m, r) ∧
      vfsStatDispatch s (childPath m.path r) = .ok (m, r) ∧
      vfsMkdirDispatch s (childPath m.path r) = .ok (m, r)) ↔
    (∀ m' ∈ s.mounts, m'.path ≠ mntPath) ∧ m.path ≠ [slash] := by
  have h : Consistent s := run_invariant (fun s call t hs hcall hstep => by
    rw [← Option.some_inj.mp hstep]
    exact hs.call hcall) hok consistent_start hrun
  simp only [vfsOpenDispatch, vfsStatDispatch, vfsMkdirDispatch, dispatch_ok, and_self]
  constructor
  · intro hroute
    refine ⟨fun m' hm' hpath => ?_, fun hroot => ?_⟩
    · exact h.not_route_child hm hr hfit (Or.inl ⟨m', hm', hpath⟩) hroute
    · exact h.not_route_child hm hr hfit (Or.inr hroot) hroute
  · rintro ⟨hbind, hroot⟩
    exact h.route_child hm hr hfit hlong hbind hroot

def mountA : Mount Unit := ⟨16, [47, 97], ()⟩

theorem normalizedRel_x : NormalizedRel [120] :=
  ⟨by simp, rfl, by decide, by decide, by simp [slash]⟩

theorem mount_reached_alone :
    ∃ s, run State.step State.start [Call.mount [47, 97] () (some 16) true] = some s ∧
      vfsOpenDispatch s [47, 97, 47, 120] = .ok (mountA, [120]) := by
  have hreached := mount_reached_iff [Call.mount [47, 97] () (some 16) true] (by decide)
    ⟨[mountA], none, true⟩ rfl mountA (by simp) [120] normalizedRel_x (by decide) (by simp)
  exact ⟨_, rfl, (hreached.mpr (by simp [mountA, mntPath, slash])).1⟩

/-- With a volume on `/mnt` the path `/a/x` goes to this volume, and `/x` does not reach a
mount on `/`. -/
theorem mounts_hidden :
    (∃ s, run State.step State.start [Call.mount mntPath () (some 8) true,
        Call.mount [47, 97] () (some 16) true] = some s ∧ mountA ∈ s.mounts ∧
      (vfsOpenDispatch s [47, 97, 47, 120]).map (fun found => (found.1.path, found.2)) =
        .ok (mntPath, [97, 47, 120]) ∧
      (vfsStatDispatch s [47, 97, 47, 120]).map (fun found => (found.1.path, found.2)) =
        .ok (mntPath, [97, 47, 120]) ∧
      (vfsMkdirDispatch s [47, 97, 47, 120]).map (fun found => (found.1.path, found.2)) =
        .ok (mntPath, [97, 47, 120])) ∧
    ∃ s, run State.step State.start [Call.mount [47] () (some 8) true] = some s ∧
      ⟨8, [slash], ()⟩ ∈ s.mounts ∧ vfsOpenDispatch s [47, 120] = .error .notFound ∧
      vfsStatDispatch s [47, 120] = .error .notSupp ∧
      vfsMkdirDispatch s [47, 120] = .error .notSupp :=
  ⟨⟨⟨[mountA, ⟨8, mntPath, ()⟩], some 8, true⟩, rfl, by simp, rfl, rfl, rfl⟩,
    ⟨[⟨8, [slash], ()⟩], none, true⟩, rfl, by simp, rfl, rfl, rfl⟩

end XldKernel.Vfs
