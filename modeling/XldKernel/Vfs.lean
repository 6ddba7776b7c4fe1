import XldKernel.GuardedRun
import XldKernel.Lists

/-!
# VFS: paths and the mount table

Source: `kernel/src/vfs.c` (`normalize_path` to `vfs_umount`). A path is the list of
its characters. The nodes of the mount list keep their addresses, since `root_bind`
points to one of them; a call of `vfs_mount` is given what `kmalloc` returns for the
node and whether it has room for the copy of the path.
-/

namespace XldKernel.Vfs
open GuardedRun

def slash : UInt8 := 47

def pathMax : ℕ := 256

inductive VfsErr where
  | generic
  | nomem
  | notFound
  | exists
  | notDir
  | perm
  | notSupp
  deriving DecidableEq

def normalizeLoop : Bool → List UInt8 → List UInt8
  | _, [] => []
  | lastSlash, c :: src =>
    if c = slash then
      if lastSlash then normalizeLoop true src else slash :: normalizeLoop true src
    else if 32 ≤ c ∧ c ≤ 126 then c :: normalizeLoop false src
    else normalizeLoop lastSlash src

/-- The flag is true for the result `0`; a path that is refused is left as it was. -/
def normalizePath (path : List UInt8) : Bool × List UInt8 :=
  if path.head? ≠ some slash then (false, path)
  else
    let dst := normalizeLoop false path
    let dst := if 1 < dst.length ∧ dst.getLast? = some slash then dst.dropLast else dst
    (true, if dst = [] then [slash] else dst)

structure Mount (α : Type) where
  addr : ℕ
  path : List UInt8
  fs : α

structure State (α : Type) where
  mounts : List (Mount α)
  rootBind : Option ℕ
  initialized : Bool

variable {α : Type}

def State.start : State α := ⟨[], none, false⟩

def State.bindPath (s : State α) : Option (List UInt8) :=
  s.rootBind.bind fun addr => (s.mounts.find? (·.addr = addr)).map Mount.path

def translatePath (s : State α) (userPath : List UInt8) : Option (List UInt8) :=
  let normalized (path : List UInt8) :=
    match normalizePath path with
    | (true, path) => some path
    | (false, _) => none
  if userPath.head? ≠ some slash then none
  else
    match s.bindPath with
    | none => normalized (userPath.take (pathMax - 1))
    | some mnt =>
      if userPath.length = 1 then some (mnt.take (pathMax - 1))
      else if pathMax ≤ mnt.length + userPath.length then none
      else normalized (mnt ++ userPath)

/-- The mount point is a prefix of the path that ends at the end of a component. -/
def Mount.Covers (m : Mount α) (realPath : List UInt8) : Prop :=
  m.path <+: realPath ∧
    ((realPath.drop m.path.length).head? = some slash ∨ realPath.drop m.path.length = [])

instance (m : Mount α) (realPath : List UInt8) : Decidable (m.Covers realPath) :=
  inferInstanceAs (Decidable (_ ∧ _))

def bestMount (realPath : List UInt8) : Option (Mount α) → List (Mount α) → Option (Mount α)
  | best, [] => best
  | best, m :: ms =>
    if m.Covers realPath ∧ best.elim 0 (fun b => b.path.length) < m.path.length then
      bestMount realPath (some m) ms
    else bestMount realPath best ms

def findMountForRealPath (s : State α) (realPath : List UInt8) : Option (Mount α × List UInt8) :=
  if realPath = [] then none
  else (bestMount realPath none s.mounts).map fun m =>
    (m, (realPath.drop m.path.length).dropWhile (· = slash))

def route (s : State α) (userPath : List UInt8) : Option (Mount α × List UInt8) :=
  (translatePath s userPath).bind (findMountForRealPath s)

theorem bestMount_mem {realPath : List UInt8} {best : Option (Mount α)} {ms : List (Mount α)}
    {m : Mount α} (h : bestMount realPath best ms = some m) : best = some m ∨ m ∈ ms := by
  induction ms generalizing best with
  | nil => exact Or.inl h
  | cons x ms ih =>
    rw [bestMount] at h
    split_ifs at h
    · rcases ih h with heq | hmem
      · exact Or.inr (by simp [Option.some_inj.mp heq])
      · exact Or.inr (List.mem_cons_of_mem _ hmem)
    · exact (ih h).imp_right (List.mem_cons_of_mem _)

theorem route_mem {s : State α} {userPath relPath : List UInt8} {m : Mount α}
    (h : route s userPath = some (m, relPath)) : m ∈ s.mounts := by
  obtain ⟨realPath, -, hfind⟩ := Option.bind_eq_some_iff.mp h
  rw [findMountForRealPath] at hfind
  split_ifs at hfind
  obtain ⟨m', hbest, heq⟩ := Option.map_eq_some_iff.mp hfind
  obtain rfl : m' = m := congrArg Prod.fst heq
  exact (bestMount_mem hbest).resolve_left (by simp)

def vfsInit (s : State α) : State α := if s.initialized then s else ⟨[], none, true⟩

def mntPath : List UInt8 := [47, 109, 110, 116]

def vfsMount (s : State α) (path : List UInt8) (fs : α) (node : Option ℕ) (copy : Bool) :
    Except VfsErr Unit × State α :=
  let s := vfsInit s
  match normalizePath (path.take (pathMax - 1)) with
  | (false, _) => (.error .generic, s)
  | (true, normPath) =>
    if s.mounts.any (·.path = normPath) then (.error .exists, s)
    else
      match node, copy with
      | none, _ => (.error .nomem, s)
      | some _, false => (.error .nomem, s)
      | some addr, true =>
        (.ok (), { s with
          mounts := ⟨addr, normPath, fs⟩ :: s.mounts
          rootBind := if normPath = mntPath then some addr else s.rootBind })

def unlink (normPath : List UInt8) : List (Mount α) → Option (Mount α × List (Mount α))
  | [] => none
  | m :: rest =>
    if m.path = normPath then some (m, rest)
    else (unlink normPath rest).map fun r => (r.1, m :: r.2)

def vfsUmount (s : State α) (path : List UInt8) : Except VfsErr Unit × State α :=
  match unlink (normalizePath (path.take (pathMax - 1))).2 s.mounts with
  | none => (.error .notFound, s)
  | some (m, rest) =>
    (.ok (), { s with
      mounts := rest
      rootBind := if some m.addr = s.rootBind then none else s.rootBind })

structure Normalized (path : List UInt8) : Prop where
  head : path.head? = some slash
  single : ¬ [slash, slash] <:+: path
  last : path.getLast? = some slash → path = [slash]
  printable : ∀ c ∈ path, 32 ≤ c ∧ c ≤ 126

theorem normalizeLoop_printable (b : Bool) (src : List UInt8) :
    ∀ c ∈ normalizeLoop b src, 32 ≤ c ∧ c ≤ 126 := by
  induction src generalizing b with
  | nil => simp [normalizeLoop]
  | cons c src ih =>
    rw [normalizeLoop]
    split_ifs with h1 h2 h3
    · exact ih true
    · intro x hx
      rcases List.mem_cons.mp hx with rfl | hx
      · decide
      · exact ih true x hx
    · intro x hx
      rcases List.mem_cons.mp hx with rfl | hx
      · exact h3
      · exact ih false x hx
    · exact ih b

theorem slashes_infix_cons {c : UInt8} {t : List UInt8} :
    [slash, slash] <:+: c :: t ↔ (c = slash ∧ t.head? = some slash) ∨ [slash, slash] <:+: t := by
  rw [List.infix_cons_iff, List.cons_prefix_cons]
  refine or_congr (and_congr eq_comm ?_) Iff.rfl
  cases t with
  | nil => simp
  | cons x t => simp [List.cons_prefix_cons, eq_comm]

theorem normalizeLoop_single (b : Bool) (src : List UInt8) :
    ¬ [slash, slash] <:+: normalizeLoop b src ∧
      (b = true → (normalizeLoop b src).head? ≠ some slash) := by
  induction src generalizing b with
  | nil => simp [normalizeLoop]
  | cons c src ih =>
    rw [normalizeLoop]
    split_ifs with h1 h2 h3
    · subst h2
      exact ih true
    · rw [slashes_infix_cons]
      exact ⟨not_or.mpr ⟨fun h => (ih true).2 rfl h.2, (ih true).1⟩, fun h => absurd h h2⟩
    · rw [slashes_infix_cons]
      exact ⟨not_or.mpr ⟨fun h => h1 h.1, (ih false).1⟩, fun _ => by simpa using h1⟩
    · exact ih b

theorem normalizePath_cons (src : List UInt8) :
    normalizePath (slash :: src) =
      (true, if 1 < (slash :: normalizeLoop true src).length ∧
          (slash :: normalizeLoop true src).getLast? = some slash
        then (slash :: normalizeLoop true src).dropLast else slash :: normalizeLoop true src) := by
  have hloop : normalizeLoop false (slash :: src) = slash :: normalizeLoop true src := rfl
  rw [normalizePath, if_neg (by simp), hloop]
  dsimp only
  rw [if_neg]
  split_ifs with h
  · rw [← List.length_eq_zero_iff, List.length_dropLast]
    omega
  · simp

theorem normalizePath_normalized {path norm : List UInt8} (h : normalizePath path = (true, norm)) :
    Normalized norm := by
  obtain ⟨src, rfl⟩ : ∃ src, path = slash :: src := by
    by_contra hno
    have hhead : path.head? ≠ some slash := fun hh => hno (List.head?_eq_some_iff.mp hh)
    simp [normalizePath, hhead] at h
  rw [normalizePath_cons, Prod.mk.injEq] at h
  obtain ⟨hsingle, hfront⟩ := normalizeLoop_single true src
  have hprint := normalizeLoop_printable true src
  generalize normalizeLoop true src = t at h hsingle hfront hprint
  have hall : ¬ [slash, slash] <:+: slash :: t := by
    rw [slashes_infix_cons]
    exact not_or.mpr ⟨fun hh => hfront rfl hh.2, hsingle⟩
  have hchars : ∀ c ∈ slash :: t, 32 ≤ c ∧ c ≤ 126 := by
    intro c hc
    rcases List.mem_cons.mp hc with rfl | hc
    · decide
    · exact hprint c hc
  split_ifs at h with htrim
  · -- the last slash is cut off, and no other stands before it
    obtain ⟨-, rfl⟩ := h
    obtain ⟨ini, hini⟩ := List.getLast?_eq_some_iff.mp htrim.2
    rw [hini, List.dropLast_concat]
    have hne : ini ≠ [] := by
      rintro rfl
      simp [hini] at htrim
    obtain ⟨x, rest, rfl⟩ := List.exists_cons_of_ne_nil hne
    have hx : slash = x := by simpa using congrArg List.head? hini
    subst hx
    refine ⟨rfl, fun hin => hall ?_, fun hlast => ?_, fun c hc => hchars c ?_⟩
    · rw [hini]
      exact hin.trans (List.prefix_append _ _).isInfix
    · obtain ⟨front, hfr⟩ := List.getLast?_eq_some_iff.mp hlast
      refine absurd ?_ hall
      rw [hini, hfr, List.append_assoc]
      exact (List.suffix_append front _).isInfix
    · rw [hini]
      exact List.mem_append_left _ hc
  · obtain ⟨-, rfl⟩ := h
    refine ⟨rfl, hall, fun hlast => ?_, hchars⟩
    have hlen : ¬ 1 < (slash :: t).length := fun hlt => htrim ⟨hlt, hlast⟩
    cases t with
    | nil => rfl
    | cons => simp at hlen

theorem normalizePath_of_head {path : List UInt8} (h : (normalizePath path).2.head? = some slash) :
    (normalizePath path).1 = true := by
  rw [normalizePath] at h ⊢
  split_ifs at h ⊢ with hhead
  · exact absurd h hhead
  · rfl

theorem unlink_some {norm : List UInt8} {ms rest : List (Mount α)} {m : Mount α}
    (h : unlink norm ms = some (m, rest)) :
    ∃ pre post, ms = pre ++ m :: post ∧ rest = pre ++ post ∧ m.path = norm := by
  induction ms generalizing rest with
  | nil => simp [unlink] at h
  | cons x ms ih =>
    rw [unlink] at h
    split_ifs at h with hx
    · simp only [Option.some_inj, Prod.mk.injEq] at h
      obtain ⟨rfl, rfl⟩ := h
      exact ⟨[], ms, rfl, rfl, hx⟩
    · obtain ⟨⟨m', rest'⟩, hrest, heq⟩ := Option.map_eq_some_iff.mp h
      simp only [Prod.mk.injEq] at heq
      obtain ⟨rfl, rfl⟩ := heq
      obtain ⟨pre, post, rfl, rfl, hpath⟩ := ih hrest
      exact ⟨x :: pre, post, rfl, rfl, hpath⟩

structure Consistent (s : State α) : Prop where
  paths : (s.mounts.map Mount.path).Nodup
  normalized : ∀ m ∈ s.mounts, Normalized m.path
  bound : ∀ m ∈ s.mounts, m.path = mntPath → s.rootBind = some m.addr
  unbound : (∀ m ∈ s.mounts, m.path ≠ mntPath) → s.rootBind = none
  addrs : (s.mounts.map Mount.addr).Nodup
  fresh : s.initialized = false → s.mounts = [] ∧ s.rootBind = none

theorem bindPath_mem {s : State α} {path : List UInt8} (h : s.bindPath = some path) :
    ∃ m ∈ s.mounts, m.path = path := by
  obtain ⟨addr, -, hfind⟩ := Option.bind_eq_some_iff.mp h
  obtain ⟨m, hm, hpath⟩ := Option.map_eq_some_iff.mp hfind
  exact ⟨m, List.mem_of_find?_eq_some hm, hpath⟩

theorem Consistent.translatePath_printable {s : State α} (h : Consistent s)
    {userPath realPath : List UInt8} (hreal : translatePath s userPath = some realPath) :
    ∀ c ∈ realPath, 32 ≤ c ∧ c ≤ 126 := by
  have hnorm : ∀ path, (match normalizePath path with
      | (true, path) => some path
      | (false, _) => none) = some realPath → ∀ c ∈ realPath, 32 ≤ c ∧ c ≤ 126 := by
    intro path heq
    split at heq
    · next norm hres =>
      obtain rfl := Option.some_inj.mp heq
      exact (normalizePath_normalized hres).printable
    · cases heq
  rw [translatePath] at hreal
  dsimp only at hreal
  by_cases hhead : userPath.head? ≠ some slash
  · rw [if_pos hhead] at hreal
    cases hreal
  rw [if_neg hhead] at hreal
  split at hreal
  · exact hnorm _ hreal
  · next mnt hbind =>
    by_cases hlen : userPath.length = 1
    · rw [if_pos hlen] at hreal
      obtain ⟨m, hm, rfl⟩ := bindPath_mem hbind
      rw [← Option.some_inj.mp hreal]
      exact fun c hc => (h.normalized m hm).printable c (List.mem_of_mem_take hc)
    · rw [if_neg hlen] at hreal
      by_cases hlong : pathMax ≤ mnt.length + userPath.length
      · rw [if_pos hlong] at hreal
        cases hreal
      · rw [if_neg hlong] at hreal
        exact hnorm _ hreal

theorem Consistent.route_printable {s : State α} (h : Consistent s) {userPath relPath : List UInt8}
    {m : Mount α} (hroute : route s userPath = some (m, relPath)) :
    ∀ c ∈ relPath, 32 ≤ c ∧ c ≤ 126 := by
  obtain ⟨realPath, hreal, hfind⟩ := Option.bind_eq_some_iff.mp hroute
  rw [findMountForRealPath] at hfind
  split_ifs at hfind
  obtain ⟨m', -, heq⟩ := Option.map_eq_some_iff.mp hfind
  rw [← (Prod.mk.inj heq).2]
  intro c hc
  exact h.translatePath_printable hreal c
    (List.mem_of_mem_drop ((List.dropWhile_suffix _).subset hc))

inductive Call (α : Type) where
  | mount (path : List UInt8) (fs : α) (node : Option ℕ) (copy : Bool)
  | umount (path : List UInt8)

def State.call (s : State α) : Call α → Except VfsErr Unit × State α
  | .mount path fs node copy => vfsMount s path fs node copy
  | .umount path => vfsUmount s path

def State.Permitted (s : State α) : Call α → Prop
  | .mount _ _ node _ => ∀ a, node = some a → a ∉ s.mounts.map Mount.addr
  | .umount _ => True

structure CallEffect (s : State α) (call : Call α) : Prop where
  failed : ∀ e, (s.call call).1 = .error e →
    (s.call call).2.mounts = s.mounts ∧ (s.call call).2.rootBind = s.rootBind
  removed : ∀ path, call = .umount path → (s.call call).1 = .ok () →
    ∃ pre m post, s.mounts = pre ++ m :: post ∧ (s.call call).2.mounts = pre ++ post ∧
      normalizePath (path.take 255) = (true, m.path) ∧ ∀ m' ∈ pre ++ post, m'.path ≠ m.path

theorem consistent_start : Consistent (State.start : State α) := by
  refine ⟨?_, ?_, ?_, ?_, ?_, ?_⟩ <;> simp [State.start]

theorem Consistent.init {s : State α} (h : Consistent s) :
    vfsInit s = { s with initialized := true } := by
  rw [vfsInit]
  split_ifs with hinit
  · rw [← hinit]
  · obtain ⟨hm, hr⟩ := h.fresh (by simpa using hinit)
    rw [hm, hr]

theorem Consistent.initialized {s : State α} (h : Consistent s) :
    Consistent { s with initialized := true } :=
  ⟨h.paths, h.normalized, h.bound, h.unbound, h.addrs, fun hf => absurd hf (by simp)⟩

theorem Consistent.push {s : State α} (h : Consistent s) {m : Mount α} (hnorm : Normalized m.path)
    (hpath : ∀ m' ∈ s.mounts, m'.path ≠ m.path) (haddr : m.addr ∉ s.mounts.map Mount.addr) :
    Consistent ⟨m :: s.mounts, if m.path = mntPath then some m.addr else s.rootBind, true⟩ where
  paths := by
    rw [List.map_cons, List.nodup_cons]
    refine ⟨fun hmem => ?_, h.paths⟩
    obtain ⟨m', hm', heq⟩ := List.mem_map.mp hmem
    exact hpath m' hm' heq
  normalized := by
    intro m' hm'
    rcases List.mem_cons.mp hm' with rfl | hm'
    · exact hnorm
    · exact h.normalized m' hm'
  bound := by
    intro m' hm' hmnt
    rcases List.mem_cons.mp hm' with rfl | hm'
    · exact if_pos hmnt
    · have hne : m.path ≠ mntPath := fun heq => hpath m' hm' (hmnt.trans heq.symm)
      rw [if_neg hne]
      exact h.bound m' hm' hmnt
  unbound := by
    intro hno
    rw [if_neg (hno m List.mem_cons_self)]
    exact h.unbound fun m' hm' => hno m' (List.mem_cons_of_mem _ hm')
  addrs := by
    rw [List.map_cons, List.nodup_cons]
    exact ⟨haddr, h.addrs⟩
  fresh hf := absurd hf (by simp)

theorem Consistent.cut {s : State α} (h : Consistent s) {pre post : List (Mount α)} {m : Mount α}
    (hsplit : s.mounts = pre ++ m :: post) :
    Consistent ⟨pre ++ post, if some m.addr = s.rootBind then none else s.rootBind,
      s.initialized⟩ := by
  have hsub : (pre ++ post).Sublist s.mounts := by
    rw [hsplit]
    exact (List.Sublist.refl pre).append (List.sublist_cons_self m post)
  have hmem : ∀ m' ∈ pre ++ post, m' ∈ s.mounts := fun m' hm' => hsub.subset hm'
  have hm : m ∈ s.mounts := by simp [hsplit]
  have haddr : ∀ m' ∈ pre ++ post, m'.addr ≠ m.addr := Lists.ne_of_nodup_middle (hsplit ▸ h.addrs)
  refine ⟨h.paths.sublist (hsub.map _), fun m' hm' => h.normalized m' (hmem m' hm'), ?_, ?_,
    h.addrs.sublist (hsub.map _), ?_⟩
  · intro m' hm' hmnt
    have hbound := h.bound m' (hmem m' hm') hmnt
    rw [hbound, if_neg]
    intro heq
    exact haddr m' hm' (Option.some_inj.mp heq).symm
  · intro hno
    by_cases hmnt : m.path = mntPath
    · rw [h.bound m hm hmnt, if_pos rfl]
    · rw [h.unbound, if_neg (by simp)]
      intro m' hm'
      rw [hsplit] at hm'
      rcases List.mem_append.mp hm' with hpre | hpost
      · exact hno m' (List.mem_append_left _ hpre)
      · rcases List.mem_cons.mp hpost with rfl | hpost
        · exact hmnt
        · exact hno m' (List.mem_append_right _ hpost)
  · intro hinit
    have hnil := (h.fresh hinit).1
    simp [hsplit] at hnil

theorem vfsMount_cases (s : State α) (path : List UInt8) (fs : α) (node : Option ℕ) (copy : Bool) :
    (∃ e, vfsMount s path fs node copy = (.error e, vfsInit s)) ∨
    ∃ addr norm, node = some addr ∧ Normalized norm ∧ (∀ m ∈ (vfsInit s).mounts, m.path ≠ norm) ∧
      vfsMount s path fs node copy = (.ok (), { vfsInit s with
        mounts := ⟨addr, norm, fs⟩ :: (vfsInit s).mounts
        rootBind := if norm = mntPath then some addr else (vfsInit s).rootBind }) := by
  rw [vfsMount]
  dsimp only
  split
  · exact Or.inl ⟨_, rfl⟩
  · next norm hnorm =>
    by_cases hany : (vfsInit s).mounts.any (·.path = norm) = true
    · exact Or.inl ⟨_, if_pos hany⟩
    · rw [if_neg hany]
      match node, copy with
      | none, _ => exact Or.inl ⟨_, rfl⟩
      | some _, false => exact Or.inl ⟨_, rfl⟩
      | some addr, true =>
        refine Or.inr ⟨addr, norm, rfl, normalizePath_normalized hnorm, fun m hm heq =>
          hany ?_, rfl⟩
        exact List.any_eq_true.mpr ⟨m, hm, decide_eq_true heq⟩

theorem Consistent.call {s : State α} (h : Consistent s) {call : Call α} (hok : s.Permitted call) :
    Consistent (s.call call).2 := by
  cases call with
  | mount path fs node copy =>
    rcases vfsMount_cases s path fs node copy with ⟨e, heq⟩ | ⟨addr, norm, rfl, hnorm, hpath, heq⟩
    · rw [State.call, heq, h.init]
      exact h.initialized
    · rw [State.call, heq]
      rw [h.init] at hpath ⊢
      exact h.push (m := ⟨addr, norm, fs⟩) hnorm hpath (hok addr rfl)
  | umount path =>
    rw [State.call, vfsUmount]
    split
    · exact h
    · next m rest hcut =>
      obtain ⟨pre, post, hsplit, rfl, -⟩ := unlink_some hcut
      exact h.cut hsplit

theorem Consistent.effect {s : State α} (h : Consistent s) (call : Call α) : CallEffect s call := by
  cases call with
  | mount path fs node copy =>
    refine ⟨fun e he => ?_, fun _ hc => absurd hc (by simp)⟩
    rcases vfsMount_cases s path fs node copy with ⟨e', heq⟩ | ⟨addr, norm, -, -, -, heq⟩
    · rw [State.call, heq, h.init]
      exact ⟨rfl, rfl⟩
    · rw [State.call, heq] at he
      exact absurd he (by simp)
  | umount path =>
    refine ⟨fun e he => ?_, fun path' hc hres => ?_⟩
    · rw [State.call, vfsUmount] at he ⊢
      split at he
      · exact ⟨rfl, rfl⟩
      · exact absurd he (by simp)
    · obtain rfl : path = path' := by simpa using hc
      rw [State.call, vfsUmount] at hres ⊢
      split at hres
      · exact absurd hres (by simp)
      · next m rest hcut =>
        obtain ⟨pre, post, hsplit, rfl, hpath⟩ := unlink_some hcut
        refine ⟨pre, m, post, hsplit, rfl, ?_, Lists.ne_of_nodup_middle (hsplit ▸ h.paths)⟩
        -- a path that is not normalized does not start with a slash and matches no mount
        have hhead := (h.normalized m (by simp [hsplit])).head
        rw [hpath] at hhead ⊢
        exact Prod.ext (normalizePath_of_head hhead) rfl

def State.step (s : State α) (call : Call α) : Option (State α) := some (s.call call).2

/-- The mount table stays consistent over every run, and the results of the calls say
what happened to it. -/
theorem mount_table_consistent (calls : List (Call α))
    (hok : Allowed State.step State.Permitted State.start calls) :
    ∃ s, run State.step State.start calls = some s ∧ Consistent s ∧
      ∀ call, CallEffect s call := by
  obtain ⟨s, hrun, hs⟩ := run_total
    (fun s call (hs : Consistent s) hcall => ⟨_, rfl, hs.call hcall⟩) hok consistent_start
  exact ⟨s, hrun, hs, hs.effect⟩

instance (s : State α) : ∀ call, Decidable (s.Permitted call)
  | .mount _ _ none _ => isTrue (by simp [State.Permitted])
  | .mount _ _ (some a) _ =>
    decidable_of_iff (a ∉ s.mounts.map Mount.addr) (by simp [State.Permitted])
  | .umount _ => inferInstanceAs (Decidable True)

def mountCalls : List (Call Unit) :=
  [.mount [47, 47, 109, 110, 116, 47] () (some 8) true, .mount [47, 97] () (some 16) true,
    .mount [47, 109, 110, 116] () (some 24) true, .umount [47, 109, 110, 116, 47]]

theorem mount_table_consistent_example :
    Allowed State.step State.Permitted State.start mountCalls ∧
      ∃ s, run State.step State.start mountCalls = some s ∧ Consistent s ∧
        ∀ call, CallEffect s call := by
  have hok : Allowed State.step State.Permitted State.start mountCalls := by decide
  exact ⟨hok, mount_table_consistent mountCalls hok⟩

end XldKernel.Vfs
