import XldKernel.FatNamespace

/-!
# FAT32: the dot entries of new directories

`fat32_mkdir` copies the names of the two dot entries from `DOT_NAME` and
`DOTDOT_NAME`, which are ten characters and a terminating zero; `to_8_3` pads the
path components `.` and `..` with blanks to eleven characters. The names differ
in their last byte, so that no path goes on from a new directory through `.` or
`..`.
-/

namespace XldKernel.Fat32
open ByteMemory BlockDevice LinkedPath

variable {l : Layout} {m m' m₁ : Mem} {c d q a : ℕ} {cs : List ℕ} {name : List UInt8}
  {files : Files}

def DotsInTree (l : Layout) (m : Mem) : Prop :=
  ∀ d cs a, DirCluster l m d → Chain l m d cs → a ∈ liveSlots m (l.dirSlots cs) →
    (direntAt m a).name ∈ dotNames → (direntAt m a).IsDir → DirCluster l m (direntAt m a).cluster

/-- The way of a path through the directories of a disk: from the directory it starts in
to the directory `q` in which its last component stands for `name`. -/
inductive Way (l : Layout) (m : Mem) (q : ℕ) (name : List UInt8) : ℕ → List UInt8 → Prop
  | last {comp : List UInt8} (hd : DirCluster l m q) (hcomp : slash ∉ comp) (hne : comp ≠ [])
      (hname : to83 comp = name) : Way l m q name q comp
  | skip {d : ℕ} {tail : List UInt8} (h : Way l m q name d tail) : Way l m q name d (slash :: tail)
  | enter {d : ℕ} {comp tail : List UInt8} {found : Found} (hd : DirCluster l m d)
      (hcomp : slash ∉ comp) (hne : comp ≠ [])
      (hfind : fat32Find l.ram d (to83 comp) m = some (some found, m)) (hdir : found.dirent.IsDir)
      (h : Way l m q name found.dirent.cluster tail) : Way l m q name d (comp ++ slash :: tail)

theorem Way.target {start : List UInt8} (h : Way l m q name d start) : DirCluster l m q := by
  induction h with
  | last hd => exact hd
  | skip _ ih => exact ih
  | enter _ _ _ _ _ _ ih => exact ih

def StaysInTree (l : Layout) (m : Mem) (start : List UInt8) : Prop :=
  ∀ comp ∈ start.splitOn slash, comp ⊆ start → comp ≠ [] → ∀ d found, DirCluster l m d →
    fat32Find l.ram d (to83 comp) m = some (some found, m) → found.dirent.IsDir →
    DirCluster l m found.dirent.cluster

theorem StaysInTree.rest {comp tail : List UInt8} (hcomp : slash ∉ comp)
    (h : StaysInTree l m (comp ++ slash :: tail)) : StaysInTree l m tail := by
  intro x hx hsub
  obtain ⟨hchars, hcomps⟩ := rest_subset hcomp tail
  exact h x (hcomps hx) (List.Subset.trans hsub hchars)

theorem staysInTree_of_dots (hg : l.Geometry) (hwf : WellFormed l m files) {path : List UInt8}
    (hdots : DotFree path ∨ DotsInTree l m) : StaysInTree l m path := by
  intro comp hcomp hsub hne d found hd hfind hdir
  obtain ⟨cs, hch⟩ := hwf.dir_chain hd
  by_cases hname : to83 comp ∈ dotNames
  · rcases hdots with hfree | hdots
    · exact absurd hname (hfree.component hcomp hsub hne)
    · rw [find_ram hg hch, Option.some_inj, Prod.mk.injEq, Option.map_eq_some_iff] at hfind
      obtain ⟨⟨a, ha, rfl⟩, -⟩ := hfind
      have hthis : nameIs m (to83 comp) a = true := List.find?_some ha
      have heq : (direntAt m a).name = to83 comp := of_decide_eq_true hthis
      exact hdots d cs a hd hch (List.mem_of_find?_eq_some ha) (heq ▸ hname) hdir
  · obtain ⟨a, -, -, -, htree⟩ := find_live hg hd hch hname hfind
    exact htree hdir

theorem Resolves.way {n : ℕ} {start : List UInt8} {r : Option Resolved}
    (h : Resolves l.ram n d start m r m') (hr : r = some ⟨q, some name⟩) (hd : DirCluster l m d)
    (hstay : StaysInTree l m start) : Way l m q name d start := by
  induction h with
  | spent => cases hr
  | nil => cases hr
  | last hcomp hne =>
    cases hr
    exact .last hd hcomp hne rfl
  | skip _ ih => exact .skip (ih hr hd (StaysInTree.rest List.not_mem_nil hstay))
  | missing => cases hr
  | file => cases hr
  | @enter n d comp tail s s₁ s' found r hcomp hne hfind hdir _ ih =>
    obtain rfl : s₁ = s := fat32Find_mem l hfind
    have hsub := hstay comp (component_mem hcomp tail) (List.subset_append_left _ _) hne d found hd
      hfind hdir
    exact .enter hd hcomp hne hfind hdir (ih hr hsub (hstay.rest hcomp))

structure DirAdded (l : Layout) (m m' : Mem) (q c : ℕ) (name : List UInt8) : Prop where
  again : ∀ d target found, DirCluster l m d →
    fat32Find l.ram d target m = some (some found, m) →
    fat32Find l.ram d target m' = some (some found, m')
  new : fat32Find l.ram q name m' = some (none, m') ∨
    ∃ found, fat32Find l.ram q name m' = some (some found, m') ∧ found.dirent.IsDir ∧
      found.dirent.cluster = c
  dots : ∀ comp, comp = [46] ∨ comp = [46, 46] →
    fat32Find l.ram c (to83 comp) m' = some (none, m')

section NewDirectory
variable {pre post : List ℕ} (hg : l.Geometry) (hwf : WellFormed l m files)
  (h : Scratched l m m₁ c) (hq : DirCluster l m q) (hch : Chain l m q cs)
  (hsplit : l.dirSlots cs = pre ++ a :: post) (hpre : ∀ b ∈ pre, m₁ b ≠ 0 ∧ m₁ b ≠ 0xE5)
  (hslot : m₁ a = 0 ∨ m₁ a = 0xE5) (hlen : name.length = 11) (hhead : name.head? ≠ some 0)
  (hput : putDirent m₁ a (newDirent name attrDirectory c) = m')
include hg hwf h hq hch hsplit hpre hslot hlen hhead hput

/-- The live slots of the parent before and after: the slot is live unless the name starts
with the mark of deleted entries, and entries behind an end mark come back. -/
theorem Scratched.parent_slots :
    Chain l m' q cs ∧ (∀ b ∈ pre ++ post, direntAt m' b = direntAt m b) ∧
    liveSlots m (l.dirSlots cs) = liveSlots m pre ++ (if m a = 0 then [] else liveSlots m post) ∧
    liveSlots m' (l.dirSlots cs) = liveSlots m pre ++
      (if name.head? = some 0xE5 then liveSlots m post else a :: liveSlots m post) := by
  have ha : a ∈ l.dirSlots cs := by simp [hsplit]
  obtain ⟨ds, hds, hds', hkeep⟩ :=
    h.keeps hg hwf hch ha (e := newDirent name attrDirectory c) hlen hq
  obtain rfl := hds.unique hg hch
  have hother : ∀ b ∈ pre ++ post, ∀ i < dirEntrySize, m' (b + i) = m (b + i) := by
    intro b hb i hi
    have hnodup := dirSlots_nodup hg hch.range hch.nodup
    rw [hsplit, List.nodup_middle] at hnodup
    have hne : b ≠ a := fun hba => (List.nodup_cons.mp hnodup).1 (hba ▸ hb)
    rw [← hput]
    refine hkeep b ?_ hne i hi
    rw [hsplit]
    exact List.perm_middle.mem_iff.mpr (List.mem_cons_of_mem a hb)
  have hbyte : ∀ b ∈ l.dirSlots ds, m₁ b = m b := fun b hb => by
    simpa using h.slots hg hch hb (show 0 < dirEntrySize by decide)
  have hread := direntAt_new m₁ a attrDirectory c hlen
  rw [hput] at hread hds'
  have hfirst : name.head? = some (m' a) := by
    rw [← read_head m' a 10]
    exact congrArg (fun e => e.name.head?) hread.symm
  have hattr : m' (a + 11) = attrDirectory := congrArg Dirent.attr hread
  have hbefore : ∀ b ∈ pre, m b ≠ 0 ∧ m b ≠ 0xE5 :=
    fun b hb => hbyte b (by simp [hsplit, hb]) ▸ hpre b hb
  have hmarks : ∀ b ∈ pre ++ post, m' b = m b ∧ m' (b + 11) = m (b + 11) :=
    fun b hb => ⟨by simpa using hother b hb 0 (by decide), hother b hb 11 (by decide)⟩
  have hfill := liveSlots_fill hbefore (hbyte a ha ▸ hslot) hmarks fun h0 => hhead (h0 ▸ hfirst)
  have hlfn : ¬ attrDirectory = attrLfn := by decide
  refine ⟨hds', fun b hb => direntAt_congr (hother b hb), ?_, ?_⟩
  · rw [hsplit]
    exact hfill.1
  · rw [hsplit, hfill.2, hfirst, hattr]
    simp only [hlfn, or_false, Option.some_inj]

theorem Scratched.finds_again (hmiss : fat32Find l.ram q name m = some (none, m))
    {target : List UInt8} {found : Found} (hd : DirCluster l m d)
    (hfind : fat32Find l.ram d target m = some (some found, m)) :
    fat32Find l.ram d target m' = some (some found, m') := by
  have ha : a ∈ l.dirSlots cs := by simp [hsplit]
  obtain ⟨hch', hsame, hold, hnew⟩ := h.parent_slots hg hwf hq hch hsplit hpre hslot hlen hhead hput
  by_cases hdq : d = q
  · subst hdq
    have hno : nameIs m' target a = false := by
      rw [nameIs, ← hput, direntAt_new m₁ a attrDirectory c hlen]
      refine decide_eq_false fun heq => ?_
      obtain rfl : name = target := heq
      simp [hmiss] at hfind
    rw [find_ram hg hch, Option.some_inj, Prod.mk.injEq, hold] at hfind
    have hskip : (liveSlots m' (l.dirSlots cs)).find? (nameIs m' target) =
        (liveSlots m pre ++ liveSlots m post).find? (nameIs m' target) := by
      rw [hnew]
      split_ifs
      · rfl
      · simp only [List.find?_append, List.find?_cons, hno]
    have hmore : ((liveSlots m pre ++ liveSlots m post).find? (nameIs m target)).map (foundAt m) =
        some found := by
      rw [← hfind.1]
      split_ifs at hfind ⊢
      · rw [List.append_nil] at hfind ⊢
        obtain ⟨b, hb, -⟩ := Option.map_eq_some_iff.mp hfind.1
        rw [List.find?_append, hb, Option.some_or]
      · rfl
    have hlive : ∀ b ∈ liveSlots m pre ++ liveSlots m post, direntAt m' b = direntAt m b := by
      intro b hb
      refine hsame b (List.mem_append.mpr ?_)
      exact (List.mem_append.mp hb).imp mem_of_liveSlots mem_of_liveSlots
    rw [find_ram hg hch', hskip, find_map_congr hlive, hmore]
  · obtain ⟨ds, hds, hds', hkeep⟩ :=
      h.keeps hg hwf hch ha (e := newDirent name attrDirectory c) hlen hd
    have haway := hwf.slot_elsewhere hg hq hch ha hd hdq hds
    have hbytes : ∀ b ∈ l.dirSlots ds, ∀ i < dirEntrySize, m' (b + i) = m (b + i) := by
      intro b hb i hi
      rw [← hput]
      exact hkeep b hb (fun hba => haway (hba ▸ hb)) i hi
    rw [hput] at hds'
    rw [find_ram hg hds, Option.some_inj, Prod.mk.injEq] at hfind
    rw [find_ram hg hds', SameTree.live hbytes, find_map_congr fun b hb =>
      direntAt_congr (hbytes b (mem_of_liveSlots hb)), hfind.1]

theorem Scratched.finds_made (hmiss : fat32Find l.ram q name m = some (none, m)) :
    fat32Find l.ram q name m' = some (none, m') ∨
    ∃ found, fat32Find l.ram q name m' = some (some found, m') ∧ found.dirent.IsDir ∧
      found.dirent.cluster = c := by
  obtain ⟨hch', hsame, hold, hnew⟩ := h.parent_slots hg hwf hq hch hsplit hpre hslot hlen hhead hput
  have hread := direntAt_new m₁ a attrDirectory c hlen
  rw [hput] at hread
  rw [find_ram hg hch, Option.some_inj, Prod.mk.injEq, Option.map_eq_none_iff, hold,
    List.find?_append, Option.or_eq_none_iff] at hmiss
  have hfore : (liveSlots m pre).find? (nameIs m' name) = none := by
    rw [← hmiss.1.1]
    refine List.find?_congr fun b hb => ?_
    rw [nameIs, nameIs, hsame b (List.mem_append_left _ (mem_of_liveSlots hb))]
  rw [find_ram hg hch']
  by_cases hmark : name.head? = some 0xE5
  · -- an entry with this first byte counts as deleted, in every slot
    left
    have hnone : (liveSlots m' (l.dirSlots cs)).find? (nameIs m' name) = none := by
      refine List.find?_eq_none.mpr fun b hb hname => ?_
      obtain ⟨-, hdel, -⟩ := live_of_mem hb
      have heq : (direntAt m' b).name = name := of_decide_eq_true hname
      have hfirst : name.head? = some (m' b) := heq ▸ read_head m' b 10
      exact hdel (Option.some_inj.mp (hfirst.symm.trans hmark))
    rw [hnone, Option.map_none]
  · right
    have hyes : nameIs m' name a = true := by
      rw [nameIs, hread]
      exact decide_eq_true rfl
    refine ⟨foundAt m' a, ?_, ?_, ?_⟩
    · rw [hnew, if_neg hmark, List.find?_append, hfore, List.find?_cons, hyes]
      rfl
    · rw [foundAt, hread]
      exact show attrDirectory &&& attrDirectory ≠ 0 by decide
    · rw [foundAt, hread]
      exact newDirent_cluster name attrDirectory (h.lt_word hg)

end NewDirectory

theorem find_dot (hg : l.Geometry) (hc : l.InVolume c) (hch' : Chain l m' c [c]) (parent : ℕ)
    (hsame : ∀ b ∈ l.dirSlots [c], ∀ i < dirEntrySize,
      m' (b + i) = dirImage l m parent c (b + i))
    {dot : List UInt8} (hdot : dot = [46] ∨ dot = [46, 46]) :
    fat32Find l.ram c (to83 dot) m' = some (none, m') := by
  have hnone : (liveSlots m' (l.dirSlots [c])).find? (nameIs m' (to83 dot)) = none := by
    refine List.find?_eq_none.mpr fun b hb hname => ?_
    have hmem := mem_of_liveSlots hb
    have heq : (direntAt m' b).name = to83 dot := of_decide_eq_true hname
    rw [direntAt_congr (hsame b hmem)] at heq
    rw [SameTree.live hsame] at hb
    rw [show l.dirSlots [c] = l.clusterSlots c by simp [Layout.dirSlots]] at hmem
    obtain ⟨k, rfl, hk⟩ := mem_clusterSlots hg hc hmem
    rcases dirImage_slot (m := m) parent k hk with ⟨-, hown, -⟩ | ⟨-, hzero⟩
    · -- the names differ in the last byte
      rw [heq] at hown
      rcases hdot with rfl | rfl <;> exact absurd hown (by decide)
    · exact (live_of_mem hb).1 hzero
  rw [find_ram hg hch', hnone, Option.map_none]

theorem dirAdded_of_insert (hg : l.Geometry) (hwf : WellFormed l m files) (hc : l.InVolume c)
    (hzero : l.entry m c = 0) (hq : DirCluster l m q) (hlen : name.length = 11)
    (hhead : name.head? ≠ some 0) (hmiss : fat32Find l.ram q name m = some (none, m))
    (hins : insertEntry l.ram q (newDirent name attrDirectory c) c
      (dirImage l (l.claim m 0 c) q c) = some (true, m')) : DirAdded l m m' q c name := by
  obtain ⟨cs, hch⟩ := hwf.dir_chain hq
  have hframe : ∀ x, ¬ l.InCluster c x → dirImage l (l.claim m 0 c) q c x = l.claim m 0 c x :=
    fun x hx => dirImage_apart hg hx q
  have hscr := (scratched_claim hg hc hzero).within hg hframe
  have hnew : Chain l (dirImage l (l.claim m 0 c) q c) c [c] := by
    have hfresh := Chain.fresh (m := m) hg hc
    exact hfresh.congr fun x hx => entry_within hg hframe (hfresh.range x hx).2
  have hlen' : (newDirent name attrDirectory c).name.length = 11 := hlen
  rcases insertEntry_ram (c := c) hg (hscr.chain hch) hlen' with
    hfull | ⟨pre, a, post, hsplit, hpre, hslot, hdone⟩
  · simp [hfull] at hins
  · rw [hdone, Option.some_inj, Prod.mk.injEq] at hins
    obtain ⟨-, hput⟩ := hins
    have ha : a ∈ l.dirSlots cs := by simp [hsplit]
    refine ⟨?_, ?_, ?_⟩
    · intro d target found hd hhit
      exact hscr.finds_again hg hwf hq hch hsplit hpre hslot hlen hhead hput hmiss hd hhit
    · exact hscr.finds_made hg hwf hq hch hsplit hpre hslot hlen hhead hput hmiss
    · intro dot hdot
      have hnew' : Chain l m' c [c] := by
        rw [← hput]
        exact hnew.congr fun x hx => entry_putDirent hg hch ha hlen' (hnew.range x hx).2
      refine find_dot (m := l.claim m 0 c) hg hc hnew' q (fun b hb i hi => ?_) hdot
      rw [← hput]
      exact hscr.fresh_slots hg hnew hch ha hlen' hb hi

theorem mkdir_steps (hg : l.Geometry) (hfree : ∃ c, l.InVolume c ∧ l.entry m c = 0)
    {path : List UInt8} (hmkdir : fat32Mkdir l.ram path m = some (true, m')) :
    ∃ q name c, fat32Resolve l.ram path m = some (some ⟨q, some name⟩, m) ∧
      fat32Find l.ram q name m = some (none, m) ∧ l.InVolume c ∧ l.entry m c = 0 ∧
      insertEntry l.ram q (newDirent name attrDirectory c) c (dirImage l (l.claim m 0 c) q c) =
        some (true, m') := by
  rw [fat32Mkdir] at hmkdir
  split_ifs at hmkdir
  · rcases hres : fat32Resolve l.ram path m with _ | ⟨_ | ⟨q, _ | name⟩, s⟩
    · simp [hres] at hmkdir
    · simp [hres] at hmkdir
    · simp [hres] at hmkdir
    · obtain rfl : s = m := fat32Resolve_mem l hres
      rcases hfind : fat32Find l.ram q name s with _ | ⟨_ | found, s'⟩
      · simp [hres, hfind] at hmkdir
      · obtain rfl : s' = s := fat32Find_mem l hfind
        by_cases hno : HasFree l s'
        · obtain ⟨c, hc, -, hzero, halloc⟩ := hno.allocate 0
          have hne : c ≠ 0 := by
            have h1 := hc.1
            omega
          simp only [hres, hfind, halloc, if_neg hne, initDirectory_ram hg hc] at hmkdir
          exact ⟨q, name, c, rfl, hfind, hc, hzero, hmkdir⟩
        · simp [hres, hfind, allocate_none hfree hno] at hmkdir
      · simp [hres, hfind] at hmkdir
  · simp at hmkdir

theorem Way.lost (hent : DirAdded l m m' q c name) {start dot x : List UInt8}
    (hdot : dot = [46] ∨ dot = [46, 46]) (h : Way l m q name d start) {n : ℕ}
    (hn : (start ++ slash :: (dot ++ slash :: x)).length ≤ n) :
    resolveLoop l.ram n d (start ++ slash :: (dot ++ slash :: x)) m' = some (none, m') := by
  induction h generalizing n with
  | last _ hcomp hne hname =>
    obtain ⟨n, rfl⟩ : ∃ k, n = k + 2 := by
      refine ⟨n - 2, ?_⟩
      rcases hdot with rfl | rfl <;> simp at hn <;> omega
    subst hname
    rcases hent.new with hmiss | ⟨found, hfind, hdir, rfl⟩
    · exact resolveLoop_missing hcomp hne hmiss
    · rw [resolveLoop_enter hcomp hne hfind hdir]
      refine resolveLoop_missing ?_ ?_ (hent.dots dot hdot)
      · rcases hdot with rfl | rfl <;> decide
      · rcases hdot with rfl | rfl <;> simp
  | skip _ ih =>
    obtain ⟨n, rfl⟩ : ∃ k, n = k + 1 := ⟨n - 1, by simp at hn; omega⟩
    rw [List.cons_append, resolveLoop_slash]
    exact ih (by simpa using hn)
  | enter hd hcomp hne hfind hdir _ ih =>
    obtain ⟨n, rfl⟩ : ∃ k, n = k + 1 := ⟨n - 1, by simp at hn; omega⟩
    rw [List.append_assoc, List.cons_append,
      resolveLoop_enter hcomp hne (hent.again _ _ _ hd hfind) hdir]
    refine ih ?_
    simp at hn ⊢
    omega

theorem resolveStart_append {path : List UInt8} (hne : path ≠ []) (y : List UInt8) :
    resolveStart (path ++ y) = resolveStart path ++ y := by
  have hhead : (path ++ y).head? = path.head? := List.head?_append_of_ne_nil path hne
  rw [resolveStart, resolveStart, hhead]
  split_ifs
  · exact List.tail_append_of_ne_nil hne
  · rfl

theorem StaysInTree.start {path : List UInt8} (h : StaysInTree l m path) :
    StaysInTree l m (resolveStart path) := by
  rw [resolveStart]
  split_ifs with hhead
  · obtain ⟨tail, rfl⟩ := List.head?_eq_some_iff.mp hhead
    exact StaysInTree.rest List.not_mem_nil h
  · exact h

theorem way_of_resolve {path : List UInt8} {r : Mem} (hstay : StaysInTree l m path)
    (h : fat32Resolve l.ram path m = some (some ⟨q, some name⟩, r)) :
    path ≠ [] ∧ Way l m q name l.bpb.rootCluster (resolveStart path) := by
  rcases fat32Resolve_cases h with ⟨-, hno⟩ | ⟨hpath, hloop⟩
  · exact absurd rfl (hno q name)
  · exact ⟨hpath, hloop.way rfl .root hstay.start⟩

theorem resolve_append_none {path y : List UInt8} (hne : path ≠ []) (hy : y ≠ [])
    (hloop : ∀ n, (resolveStart path ++ y).length ≤ n →
      resolveLoop l.ram n l.bpb.rootCluster (resolveStart path ++ y) m = some (none, m)) :
    fat32Resolve l.ram (path ++ y) m = some (none, m) := by
  have hroot : ¬ (path ++ y = [] ∨ path ++ y = [slash]) := by
    rintro (h | h)
    · simp [hne] at h
    · rcases List.append_eq_singleton_iff.mp h with ⟨h1, -⟩ | ⟨-, h2⟩
      · exact hne h1
      · exact hy h2
  rw [← resolveStart_append hne] at hloop
  rw [fat32Resolve_start l.ram hroot]
  split_ifs
  · rfl
  · exact hloop _ (Nat.le_refl _)

/-- After a `fat32_mkdir` that returned 0, `fat32_resolve` fails for every path that goes
on from the new directory through `.` or `..`. -/
theorem dot_entries_unreachable (l : Layout) (hg : l.Geometry) (m : Mem) (files : Files)
    (hwf : WellFormed l m files) (hfree : ∃ c, l.InVolume c ∧ l.entry m c = 0) (path : List UInt8)
    (hnul : 0 ∉ path) (hdots : DotFree path ∨ DotsInTree l m) (m' : Mem)
    (hmkdir : fat32Mkdir l.ram path m = some (true, m')) (x : List UInt8) :
    fat32Resolve l.ram (path ++ slash :: ([46] ++ slash :: x)) m' = some (none, m') ∧
    fat32Resolve l.ram (path ++ slash :: ([46, 46] ++ slash :: x)) m' = some (none, m') := by
  obtain ⟨q, name, c, hres, hmiss, hc, hzero, hins⟩ := mkdir_steps hg hfree hmkdir
  obtain ⟨hpath, hway⟩ := way_of_resolve (staysInTree_of_dots hg hwf hdots) hres
  obtain ⟨comp, hne, hsub, rfl⟩ := fat32Resolve_to83 hres
  have hhead : (to83 comp).head? ≠ some 0 := by
    intro h0
    exact to83_ne_zero (fun h => hnul (hsub h)) 0 (List.mem_of_head? h0) rfl
  have hent := dirAdded_of_insert hg hwf hc hzero hway.target (to83_length comp) hhead hmiss hins
  refine ⟨resolve_append_none hpath (by simp) fun n hn => ?_,
    resolve_append_none hpath (by simp) fun n hn => ?_⟩
  · exact hway.lost hent (Or.inl rfl) hn
  · exact hway.lost hent (Or.inr rfl) hn

theorem dot_entries_unreachable_tiny :
    ∃ m', fat32Mkdir tinyLayout.ram [68] tinyDisk = some (true, m') ∧
      fat32Resolve tinyLayout.ram ([68] ++ slash :: ([46] ++ slash :: [88])) m' = some (none, m') ∧
      fat32Resolve tinyLayout.ram ([68] ++ slash :: ([46, 46] ++ slash :: [88])) m' =
        some (none, m') := by
  have hcheck : (⟨[(2, [2])], [(2, [2])]⟩ : Catalogue).Checks tinyLayout tinyDisk noFiles := by
    decide +kernel
  have hok : (fat32Mkdir tinyLayout.ram [68] tinyDisk).map Prod.fst = some true := by decide +kernel
  obtain ⟨⟨ok, m'⟩, hres, rfl⟩ := Option.map_eq_some_iff.mp hok
  exact ⟨m', hres, dot_entries_unreachable tinyLayout tinyLayout_geometry tinyDisk noFiles
    (hcheck.wellFormed tinyLayout_geometry) ⟨3, by decide, by decide +kernel⟩ [68] (by decide)
    (Or.inl (by decide +kernel)) m' hres [88]⟩

/-- `mkdir D` on the empty disk enters cluster 3 into cluster 2 and writes dot entries for
both, but `D/./X` and `D/../X` do not resolve. -/
theorem dot_components_fail :
    (fat32Mkdir tinyLayout.ram [68] tinyDisk).map (fun r =>
      (r.1, (fat32Resolve tinyLayout.ram [68, 47, 46, 47, 88] r.2).map Prod.fst,
        (fat32Resolve tinyLayout.ram [68, 47, 46, 46, 47, 88] r.2).map Prod.fst,
        (direntAt r.2 (tinyLayout.clusterAddr 3)).cluster,
        (direntAt r.2 (tinyLayout.clusterAddr 3 + dirEntrySize)).cluster)) =
      some (true, some none, some none, 3, 2) ∧
    (fat32Resolve tinyLayout.ram [68] tinyDisk).map Prod.fst = some (some ⟨2, some (to83 [68])⟩) ∧
    to83 [46] ≠ dotName ∧ to83 [46, 46] ≠ dotdotName := by
  decide +kernel

end XldKernel.Fat32
