import XldKernel.Components
import XldKernel.VfsDispatch

/-!
# VFS: paths as lists of components

Source: `kernel/src/vfs.c` (`normalize_path`, `find_mount_for_real_path`). The loop of
`normalize_path` works on characters and the mount lookup compares characters; both come
to the same as working on the components of the path.
-/

namespace XldKernel.Vfs
open Components
variable {α : Type} {path : List UInt8}

def pathComponents (path : List UInt8) : List (List UInt8) :=
  components slash (path.filter fun c => 32 ≤ c ∧ c ≤ 126)

def canonicalPath (cs : List (List UInt8)) : List UInt8 := slash :: joined slash cs

theorem pathComponents_proper (path : List UInt8) : Proper slash (pathComponents path) :=
  components_proper _ _

/-- The loop changes neither the components nor, before a slash is written, where the
first of them ends. -/
theorem normalizeLoop_components (b : Bool) (src : List UInt8) :
    components slash (normalizeLoop b src) = pathComponents src ∧
    (b = false →
      (normalizeLoop b src).takeWhile (· ≠ slash) =
        (src.filter fun c => 32 ≤ c ∧ c ≤ 126).takeWhile (· ≠ slash) ∧
      components slash ((normalizeLoop b src).dropWhile (· ≠ slash)) =
        components slash ((src.filter fun c => 32 ≤ c ∧ c ≤ 126).dropWhile (· ≠ slash))) := by
  induction src generalizing b with
  | nil => simp [normalizeLoop, pathComponents]
  | cons c src ih =>
    rw [pathComponents, normalizeLoop]
    by_cases hc : c = slash
    · have hprint : 32 ≤ c ∧ c ≤ 126 := by rw [hc]; decide
      rw [if_pos hc, List.filter_cons_of_pos (by simpa using hprint), hc]
      have hcomp : components slash (normalizeLoop true src) =
          components slash (src.filter fun c => 32 ≤ c ∧ c ≤ 126) := (ih true).1
      cases b with
      | true => exact ⟨by rw [if_pos rfl, components_sep_cons, hcomp], by simp⟩
      | false =>
        rw [if_neg (by simp)]
        simp [hcomp]
    · rw [if_neg hc]
      by_cases hprint : 32 ≤ c ∧ c ≤ 126
      · obtain ⟨htake, hdrop⟩ := (ih false).2 rfl
        rw [if_pos hprint, List.filter_cons_of_pos (by simpa using hprint),
          components_cons_of_ne hc, components_cons_of_ne hc, htake, hdrop]
        refine ⟨rfl, fun _ => ?_⟩
        rw [List.takeWhile_cons_of_pos (by simpa using hc),
          List.takeWhile_cons_of_pos (by simpa using hc),
          List.dropWhile_cons_of_pos (by simpa using hc),
            List.dropWhile_cons_of_pos (by simpa using hc),
          htake, hdrop]
        exact ⟨rfl, rfl⟩
      · rw [if_neg hprint, List.filter_cons_of_neg (by simpa using hprint)]
        exact ih b

theorem normalizePath_components (src : List UInt8) :
    components slash (normalizePath (slash :: src)).2 = pathComponents (slash :: src) := by
  have hloop : components slash (slash :: normalizeLoop true src) = pathComponents (slash :: src) :=
    (normalizeLoop_components false (slash :: src)).1
  rw [normalizePath_cons]
  split_ifs with htrim
  · obtain ⟨ini, hini⟩ := List.getLast?_eq_some_iff.mp htrim.2
    rw [← hloop, hini, List.dropLast_concat, components_append_seps (by simp)]
  · exact hloop

theorem Normalized.ne_nil (h : Normalized path) : path ≠ [] := by
  rintro rfl
  exact absurd h.head (by simp)

theorem Normalized.pathComponents (h : Normalized path) :
    pathComponents path = components slash path := by
  rw [Vfs.pathComponents, List.filter_eq_self.mpr]
  intro c hc
  simpa using h.printable c hc

theorem Normalized.canonical (h : Normalized path) :
    path = canonicalPath (Vfs.pathComponents path) := by
  rw [h.pathComponents, canonicalPath]
  obtain ⟨r, rfl⟩ := List.head?_eq_some_iff.mp h.head
  rw [components_sep_cons, joined_components]
  · exact fun hhead => h.single (slashes_infix_cons.mpr (Or.inl ⟨rfl, hhead⟩))
  · intro hlast
    have hne : r ≠ [] := by
      rintro rfl
      simp at hlast
    have hall := h.last (by rw [List.getLast?_cons_of_ne_nil hne, hlast])
    exact hne (List.cons.inj hall).2
  · exact fun hin => h.single (slashes_infix_cons.mpr (Or.inr hin))

theorem normalizePath_eq (h : path.head? = some slash) :
    normalizePath path = (true, canonicalPath (pathComponents path)) := by
  obtain ⟨src, rfl⟩ := List.head?_eq_some_iff.mp h
  have hres : normalizePath (slash :: src) = (true, (normalizePath (slash :: src)).2) := by
    rw [normalizePath_cons]
  have hnorm := normalizePath_normalized hres
  rw [hres, hnorm.canonical, hnorm.pathComponents, normalizePath_components]

theorem canonicalPath_inj {cs ds : List (List UInt8)} (hcs : Proper slash cs)
    (hds : Proper slash ds) :
    canonicalPath cs = canonicalPath ds ↔ cs = ds := by
  refine ⟨fun h => ?_, congrArg _⟩
  rw [← components_joined hcs, (List.cons.inj h).2, components_joined hds]

/-- A path that begins with a slash becomes the slash and its components, joined by slashes;
any other is refused as it is. -/
theorem normalizePath_canonical (path : List UInt8) :
    (path.head? = some slash →
      normalizePath path = (true, slash :: joined slash (pathComponents path)) ∧
      normalizePath (normalizePath path).2 = normalizePath path ∧
      ∀ other : List UInt8, other.head? = some slash → pathComponents other = pathComponents path →
        normalizePath other = normalizePath path) ∧
    (path.head? ≠ some slash → normalizePath path = (false, path)) := by
  refine ⟨fun hhead => ⟨normalizePath_eq hhead, ?_, fun other hother hcomp => ?_⟩, fun hhead => ?_⟩
  · rw [normalizePath_eq hhead, (normalizePath_normalized (normalizePath_eq hhead)).eq_self]
  · rw [normalizePath_eq hhead, normalizePath_eq hother, hcomp]
  · rw [normalizePath, if_pos hhead]

theorem normalizePath_canonical_ab :
    normalizePath [47, 47, 97, 47, 1, 98, 47] = (true, [47, 97, 47, 98]) ∧
    normalizePath [47, 97, 47, 98] = (true, [47, 97, 47, 98]) := by
  obtain ⟨hres, hidem, -⟩ := (normalizePath_canonical [47, 47, 97, 47, 1, 98, 47]).1 rfl
  have hnorm : normalizePath [47, 47, 97, 47, 1, 98, 47] = (true, [47, 97, 47, 98]) := by
    rw [hres]
    decide
  rw [hnorm] at hidem
  exact ⟨hnorm, hidem⟩

theorem bestMount_none {realPath : List UInt8} {best : Option (Mount α)} {ms : List (Mount α)}
    (h : bestMount realPath best ms = none) :
    best = none ∧ ∀ m ∈ ms, m.path ≠ [] → ¬ m.Covers realPath := by
  induction ms generalizing best with
  | nil => exact ⟨h, by simp⟩
  | cons x ms ih =>
    rw [bestMount] at h
    split_ifs at h with hx
    · exact absurd (ih h).1 (by simp)
    · obtain ⟨rfl, hrest⟩ := ih h
      refine ⟨rfl, List.forall_mem_cons.mpr ⟨fun hne hcov => hx ⟨hcov, ?_⟩, hrest⟩⟩
      exact List.length_pos_iff.mpr hne

theorem bestMount_max {realPath : List UInt8} {best : Option (Mount α)} {ms : List (Mount α)}
    {m : Mount α} (h : bestMount realPath best ms = some m) :
    best.elim 0 (fun b => b.path.length) ≤ m.path.length ∧
      ∀ m' ∈ ms, m'.Covers realPath → m'.path.length ≤ m.path.length := by
  induction ms generalizing best with
  | nil =>
    obtain rfl : best = some m := h
    exact ⟨le_rfl, by simp⟩
  | cons x ms ih =>
    rw [bestMount] at h
    split_ifs at h with hx
    · obtain ⟨hle, hrest⟩ := ih h
      have hxm : x.path.length ≤ m.path.length := hle
      exact ⟨hx.2.le.trans hxm, List.forall_mem_cons.mpr ⟨fun _ => hxm, hrest⟩⟩
    · obtain ⟨hle, hrest⟩ := ih h
      refine ⟨hle, List.forall_mem_cons.mpr ⟨fun hcov => ?_, hrest⟩⟩
      exact (not_lt.mp fun hlt => hx ⟨hcov, hlt⟩).trans hle

structure ProperMount (m : Mount α) : Prop where
  normalized : Normalized m.path
  notRoot : m.path ≠ [slash]

theorem ProperMount.components_ne {m : Mount α} (h : ProperMount m) :
    pathComponents m.path ≠ [] := by
  intro hnil
  have hcanon := h.normalized.canonical
  rw [hnil] at hcanon
  exact h.notRoot hcanon

theorem ProperMount.covers_iff {m : Mount α} (h : ProperMount m) {realPath : List UInt8}
    (hreal : Normalized realPath) :
    m.Covers realPath ↔ pathComponents m.path <+: pathComponents realPath := by
  rw [prefix_iff_joined (pathComponents_proper _) (pathComponents_proper _) h.components_ne,
    Mount.Covers]
  have hm : m.path = slash :: joined slash (pathComponents m.path) := h.normalized.canonical
  have hr : realPath = slash :: joined slash (pathComponents realPath) := hreal.canonical
  generalize joined slash (pathComponents m.path) = p at hm ⊢
  generalize joined slash (pathComponents realPath) = r at hr ⊢
  rw [hm, hr, List.cons_prefix_cons, List.length_cons, List.drop_succ_cons]
  simp

theorem ProperMount.length_le_iff {m m' : Mount α} (h : ProperMount m) (h' : ProperMount m')
    {cs : List (List UInt8)} (hm : pathComponents m.path <+: cs)
    (hm' : pathComponents m'.path <+: cs) :
    m'.path.length ≤ m.path.length ↔
      (pathComponents m'.path).length ≤ (pathComponents m.path).length := by
  have hlen : ∀ {m : Mount α}, ProperMount m →
      m.path.length = (joined slash (pathComponents m.path)).length + 1 := fun h =>
    congrArg List.length h.normalized.canonical
  rw [hlen h, hlen h', Nat.add_le_add_iff_right, joined_length_le_iff h'.components_ne
    h.components_ne hm' hm]

/-- The mount has the longest of the component lists that are prefixes of the path's. -/
structure LongestPrefix (ms : List (Mount α)) (realPath : List UInt8) (m : Mount α) : Prop where
  mem : m ∈ ms
  covers : pathComponents m.path <+: pathComponents realPath
  longest : ∀ m' ∈ ms, pathComponents m'.path <+: pathComponents realPath →
    (pathComponents m'.path).length ≤ (pathComponents m.path).length

theorem longestPrefix_perm {ms ns : List (Mount α)} (h : ms.Perm ns) {realPath : List UInt8}
    {m : Mount α} : LongestPrefix ms realPath m ↔ LongestPrefix ns realPath m :=
  ⟨fun hm => ⟨h.mem_iff.mp hm.mem, hm.covers, fun m' hm' => hm.longest m' (h.mem_iff.mpr hm')⟩,
    fun hm => ⟨h.mem_iff.mpr hm.mem, hm.covers, fun m' hm' => hm.longest m' (h.mem_iff.mp hm')⟩⟩

section Lookup
variable {s : State α} {realPath : List UInt8} (hpaths : (s.mounts.map Mount.path).Nodup)
  (hmounts : ∀ m ∈ s.mounts, ProperMount m) (hreal : Normalized realPath)
include hmounts hreal

theorem bestMount_prefix {m : Mount α} (h : bestMount realPath none s.mounts = some m) :
    LongestPrefix s.mounts realPath m := by
  have hmem : m ∈ s.mounts := (bestMount_mem h).resolve_left (by simp)
  have hcov := ((hmounts m hmem).covers_iff hreal).mp (bestMount_covers h (by simp))
  refine ⟨hmem, hcov, fun m' hm' hcov' => ?_⟩
  rw [← (hmounts m hmem).length_le_iff (hmounts m' hm') hcov hcov']
  exact (bestMount_max h).2 m' hm' (((hmounts m' hm').covers_iff hreal).mpr hcov')

include hpaths in
theorem LongestPrefix.bestMount {m : Mount α} (h : LongestPrefix s.mounts realPath m) :
    bestMount realPath none s.mounts = some m := by
  have hm := hmounts m h.mem
  have hcov := (hm.covers_iff hreal).mpr h.covers
  refine bestMount_longest hcov (fun m' hm' hcov' hother => ?_)
    (Or.inr ⟨h.mem, List.length_pos_iff.mpr hm.normalized.ne_nil⟩)
  have hpre := ((hmounts m' hm').covers_iff hreal).mp hcov'
  have hle := (hm.length_le_iff (hmounts m' hm') h.covers hpre).mpr (h.longest m' hm' hpre)
  refine lt_of_le_of_ne hle fun hlen => hother ?_
  have hpath : m'.path = m.path :=
    (List.prefix_of_prefix_length_le hcov'.1 hcov.1 hlen.le).eq_of_length hlen
  exact List.inj_on_of_nodup_map hpaths hm' h.mem hpath

theorem LongestPrefix.relPath {m : Mount α} (h : LongestPrefix s.mounts realPath m) :
    (realPath.drop m.path.length).dropWhile (· = slash) =
      joined slash ((pathComponents realPath).drop (pathComponents m.path).length) := by
  obtain ⟨cs, hcs⟩ := h.covers
  have hproper : Proper slash cs := fun x hx =>
    pathComponents_proper realPath x (hcs ▸ List.mem_append_right _ hx)
  have hrest := joined_rest hproper (hmounts m h.mem).components_ne
  rw [hcs] at hrest
  have hm : m.path = slash :: joined slash (pathComponents m.path) :=
    (hmounts m h.mem).normalized.canonical
  have hr : realPath = slash :: joined slash (pathComponents realPath) := hreal.canonical
  have hdrop : realPath.drop m.path.length =
      (joined slash (pathComponents realPath)).drop
        (joined slash (pathComponents m.path)).length := by
    conv_lhs => rw [hm, hr]
    rfl
  rw [hdrop, hrest, ← hcs, List.drop_left]

include hpaths in
theorem findMountForRealPath_iff (m : Mount α) (relPath : List UInt8) :
    findMountForRealPath s realPath = some (m, relPath) ↔
      LongestPrefix s.mounts realPath m ∧
        relPath = joined slash ((pathComponents realPath).drop (pathComponents m.path).length) := by
  rw [findMountForRealPath, if_neg hreal.ne_nil, Option.map_eq_some_iff]
  constructor
  · rintro ⟨m', hbest, heq⟩
    obtain ⟨rfl, rfl⟩ := Prod.mk.inj heq
    have hlong := bestMount_prefix hmounts hreal hbest
    exact ⟨hlong, hlong.relPath hmounts hreal⟩
  · rintro ⟨hlong, rfl⟩
    exact ⟨m, hlong.bestMount hpaths hmounts hreal, by rw [hlong.relPath hmounts hreal]⟩

end Lookup

/-- The lookup goes by the components of the paths, in whatever order the mounts stand. -/
theorem find_mount_longest (s : State α) (realPath : List UInt8)
    (hpaths : (s.mounts.map Mount.path).Nodup) (hmounts : ∀ m ∈ s.mounts, ProperMount m)
    (hreal : Normalized realPath) :
    (∀ m relPath, findMountForRealPath s realPath = some (m, relPath) ↔
      LongestPrefix s.mounts realPath m ∧
        relPath = joined slash ((pathComponents realPath).drop (pathComponents m.path).length)) ∧
    (findMountForRealPath s realPath = none ↔
      ∀ m ∈ s.mounts, ¬ pathComponents m.path <+: pathComponents realPath) ∧
    ∀ t : State α, t.mounts.Perm s.mounts →
      findMountForRealPath t realPath = findMountForRealPath s realPath := by
  refine ⟨findMountForRealPath_iff hpaths hmounts hreal, ⟨fun hnone m hm hcov => ?_, fun hno => ?_⟩,
    fun t hperm => ?_⟩
  · rw [findMountForRealPath, if_neg hreal.ne_nil, Option.map_eq_none_iff] at hnone
    exact (bestMount_none hnone).2 m hm (hmounts m hm).normalized.ne_nil
      (((hmounts m hm).covers_iff hreal).mpr hcov)
  · rw [Option.eq_none_iff_forall_not_mem]
    rintro ⟨m, relPath⟩ hfound
    have hlong := ((findMountForRealPath_iff hpaths hmounts hreal m relPath).mp hfound).1
    exact hno m hlong.mem hlong.covers
  · have hpathst : (t.mounts.map Mount.path).Nodup := (hperm.map Mount.path).nodup_iff.mpr hpaths
    have hmountst : ∀ m ∈ t.mounts, ProperMount m := fun m hm => hmounts m (hperm.mem_iff.mp hm)
    ext ⟨m, relPath⟩
    rw [findMountForRealPath_iff hpathst hmountst hreal,
      findMountForRealPath_iff hpaths hmounts hreal, longestPrefix_perm hperm]

def nestedMounts : State Unit :=
  ⟨[⟨8, [47, 97, 98], ()⟩, ⟨16, [47, 97], ()⟩, ⟨24, [47, 97, 47, 98], ()⟩], none, true⟩

theorem nestedMounts_proper : ∀ m ∈ nestedMounts.mounts, ProperMount m := by
  simp only [nestedMounts, List.forall_mem_cons]
  exact ⟨⟨⟨rfl, by decide, by decide, by simp⟩, by decide⟩,
    ⟨⟨rfl, by decide, by decide, by simp⟩, by decide⟩,
    ⟨⟨rfl, by decide, by decide, by simp⟩, by decide⟩, by simp⟩

theorem find_mount_longest_nested :
    findMountForRealPath nestedMounts [47, 97, 47, 98, 47, 99] =
      some (⟨24, [47, 97, 47, 98], ()⟩, [99]) := by
  refine ((find_mount_longest nestedMounts [47, 97, 47, 98, 47, 99] (by decide)
    nestedMounts_proper ⟨rfl, by decide, by decide, by simp⟩).1 _ _).mpr ⟨⟨?_, ?_, ?_⟩, ?_⟩
  · simp [nestedMounts]
  · decide
  · decide
  · decide

end XldKernel.Vfs
