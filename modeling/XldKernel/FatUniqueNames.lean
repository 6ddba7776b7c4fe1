import XldKernel.FatRollback
import XldKernel.FatIntegrity

/-!
# FAT32: names stay unique while reads and writes fail

Whatever fails, a call that creates a file or a directory leaves the tree as it was
or adds one entry to it. The name of this entry is new unless a read failed while
the name was looked up: `fat32_find` reports that an entry is missing and that it
could not be read by the same value.
-/

namespace XldKernel.Fat32
open ByteMemory BlockDevice LinkedPath GuardedRun

def UniqueIn (l : Layout) (m : Mem) (d : ℕ) : Prop :=
  ∀ cs, Chain l m d cs → ((liveSlots m (l.dirSlots cs)).map fun a => (direntAt m a).name).Nodup

def UniqueNames (l : Layout) (m : Mem) : Prop := ∀ d, DirCluster l m d → UniqueIn l m d

variable {l : Layout} {m m₁ m' : Mem} {c p a : ℕ} {cs : List ℕ} {e : Dirent} {files : Files}
  {d : Faulty} {name : List UInt8}

section Volume
variable (hg : l.Geometry)
include hg

theorem UniqueIn.congr (h : UniqueIn l m c) (hch : Chain l m c cs) (hch' : Chain l m' c cs)
    (hsame : ∀ b ∈ l.dirSlots cs, ∀ i < dirEntrySize, m' (b + i) = m (b + i)) :
    UniqueIn l m' c := by
  intro ds hds
  obtain rfl := hds.unique hg hch'
  rw [SameTree.live hsame]
  have hnames : (liveSlots m (l.dirSlots ds)).map (fun a => (direntAt m' a).name) =
      (liveSlots m (l.dirSlots ds)).map fun a => (direntAt m a).name := by
    refine List.map_congr_left fun b hb => ?_
    rw [direntAt_congr (hsame b (mem_of_liveSlots hb))]
  rw [hnames]
  exact h ds hch

theorem SameTree.uniqueNames (h : SameTree l m m') (hu : UniqueNames l m) : UniqueNames l m' := by
  intro d hd
  have hold := h.dir_of hg hd
  obtain ⟨cs, hcs, hcs', hsame⟩ := h d hold
  exact (hu d hold).congr hg hcs hcs' hsame

theorem uniqueIn_dirImage (hc : l.InVolume c) (parent : ℕ)
    (hch : Chain l (dirImage l m parent c) c [c]) : UniqueIn l (dirImage l m parent c) c := by
  intro cs hcs
  obtain rfl := hcs.unique hg hch
  have hslots : l.dirSlots [c] = l.clusterSlots c := by simp [Layout.dirSlots]
  have hlive : ∀ b ∈ liveSlots (dirImage l m parent c) (l.dirSlots [c]),
      (b = l.clusterAddr c ∧ (direntAt (dirImage l m parent c) b).name = dotName) ∨
      (b = l.clusterAddr c + dirEntrySize ∧
        (direntAt (dirImage l m parent c) b).name = dotdotName) := by
    intro b hb
    have hmem := mem_of_liveSlots hb
    rw [hslots] at hmem
    obtain ⟨k, rfl, hk⟩ := mem_clusterSlots hg hc hmem
    rcases dirImage_slot (m := m) (c := c) parent k hk with ⟨hk2, -, -⟩ | ⟨-, hzero⟩
    · interval_cases k
      · left
        rw [Nat.mul_zero, Nat.add_zero, dirImage_dot]
        exact ⟨rfl, rfl⟩
      · right
        rw [Nat.mul_one, dirImage_dotdot]
        exact ⟨rfl, rfl⟩
    · exact absurd hzero (live_of_mem hb).1
  have hnodup : (liveSlots (dirImage l m parent c) (l.dirSlots [c])).Nodup :=
    (dirSlots_nodup hg hch.range hch.nodup).sublist
      (List.filter_sublist.trans (List.takeWhile_sublist _))
  refine hnodup.map_on ?_
  intro b hb b' hb' heq
  rcases hlive b hb with ⟨rfl, hn⟩ | ⟨rfl, hn⟩
  · rcases hlive b' hb' with ⟨rfl, -⟩ | ⟨rfl, hn'⟩
    · rfl
    · exact absurd (hn.symm.trans (heq.trans hn')) (by decide)
  · rcases hlive b' hb' with ⟨rfl, hn'⟩ | ⟨rfl, -⟩
    · exact absurd (hn.symm.trans (heq.trans hn')) (by decide)
    · rfl

theorem Inserted.uniqueNames (h : Inserted l m m' p a e) (hu : UniqueNames l m)
    (hmissing : ∀ cs, Chain l m p cs → ∀ b ∈ liveSlots m (l.dirSlots cs),
      (direntAt m b).name ≠ e.name) (hnew : e.IsDir → UniqueIn l m' e.cluster) :
    UniqueNames l m' := by
  intro d hd cs hch
  rcases h.dir_of hg hd with hold | ⟨hdir, rfl⟩
  swap
  · exact hnew hdir cs hch
  have hch₀ := h.chain_back hg hold hch
  have hkeep : ∀ b ∈ liveSlots m (l.dirSlots cs), (direntAt m' b).name = (direntAt m b).name :=
    fun b hb => by rw [h.dirent_eq hg hold hch₀ hb]
  have hnodup := hu d hold cs hch₀
  by_cases hdp : d = p
  · subst hdp
    obtain ⟨F, G, hF, hG⟩ := h.parent_live hg hch₀
    rw [hF] at hkeep hnodup
    have hmiss := hmissing cs hch₀
    rw [hF] at hmiss
    have hnames : (F ++ G).map (fun b => (direntAt m' b).name) =
        (F ++ G).map fun b => (direntAt m b).name := List.map_congr_left hkeep
    rw [hG, List.map_append, List.map_cons, List.nodup_middle, ← List.map_append, hnames,
      List.nodup_cons, h.entry]
    refine ⟨?_, hnodup⟩
    intro hmem
    obtain ⟨b, hb, hname⟩ := List.mem_map.mp hmem
    exact hmiss b hb hname
  · rw [h.other_live hg hold hdp hch₀]
    rw [List.map_congr_left hkeep]
    exact hnodup

theorem Scratched.wellFormed (h : Scratched l m m' c) (hwf : WellFormed l m files) :
    WellFormed l m' files := by
  refine (h.sameTree hg fun d hd => hwf.dir_chain hd).wellFormed hg hwf ⟨?_, ?_⟩
  · intro x hx
    obtain ⟨cs, hch⟩ := hwf.linked.chain x hx
    exact ⟨cs, h.chain hch⟩
  · intro x y cs ds hx hy hne hcs hds
    obtain ⟨cs₀, hcs₀⟩ := hwf.linked.chain x hx
    obtain ⟨ds₀, hds₀⟩ := hwf.linked.chain y hy
    rw [hcs.unique hg (h.chain hcs₀), hds.unique hg (h.chain hds₀)]
    exact hwf.linked.disjoint x y cs₀ ds₀ hx hy hne hcs₀ hds₀

theorem Scratched.freed (h : Scratched l m d.mem c) :
    Scratched l m (writeFatEntry l.faulty c fat32FreeCluster d).2.mem c := by
  obtain ⟨d', ⟨hres, hsame⟩ | ⟨hres, hset⟩⟩ := writeFatEntry_faulty l c fat32FreeCluster d
  · rw [hres, hsame]
    exact h
  · rw [hres, hset]
    exact h.setEntry hg _

end Volume

/-- What is left when something was to be created: the tree as it was, with a cluster
that was free perhaps marked and overwritten, or one entry more. -/
inductive AddOutcome (l : Layout) (m : Mem) (p : ℕ) (name : List UInt8) (attr : UInt8) : Mem → Prop
  | same : AddOutcome l m p name attr m
  | scratched {m' : Mem} {c : ℕ} (h : Scratched l m m' c) : AddOutcome l m p name attr m'
  | created {m' : Mem} {a c : ℕ} (h : Created l m m' p a (newDirent name attr c))
      (hnew : attr = attrDirectory → UniqueIn l m' (newDirent name attr c).cluster) :
      AddOutcome l m p name attr m'

/-- The entry of a free cluster of the volume can be read, so the scan does not go on
behind the table. -/
def Room (l : Layout) (d : Faulty) : Prop :=
  ∃ f, l.InVolume f ∧ f < scanEnd ∧ l.entry d.mem f = 0 ∧ d.readFails (f - 2) = false

theorem Room.inVolume (h : Room l d) {y : ℕ} (hy : 2 ≤ y)
    (hpassed : ∀ b, 2 ≤ b → b < y → l.entry d.mem b = 0 → d.readFails (b - 2) = true) :
    l.InVolume y := by
  refine ⟨hy, ?_⟩
  by_contra hout
  obtain ⟨f, hf, -, hfree, hread⟩ := h
  have hlt : f < y := hf.2.trans_le (Nat.le_of_not_lt hout)
  have hfails := hpassed f hf.1 hlt hfree
  rw [hread] at hfails
  cases hfails

section Calls
variable {attr : UInt8} (hg : l.Geometry) (hwf : WellFormed l m files) (hends : EndsClean l m)
  (hp : DirCluster l m p) (hname : PlainName name)
include hg hwf hends hp hname

theorem insertNew_faulty (h : Scratched l m d.mem c) (hnew : Chain l d.mem c [c])
    (hattr : attr = attrArchive ∨ attr = attrDirectory)
    (hbare : attr = attrDirectory → BareDir l d.mem c ∧ UniqueIn l d.mem c) :
    ∃ ok d', insertEntry l.faulty p (newDirent name attr c) c d = some (ok, d') ∧
      AddOutcome l m p name attr d'.mem := by
  obtain ⟨cs, hch⟩ := hwf.dir_chain hp
  have hlen : (newDirent name attr c).name.length = 11 := hname.length
  rcases insertEntry_faulty hg (h.chain hch) hlen c with
    ⟨d₁, r, w, hins, hmem, -⟩ | ⟨pre, a, post, d', hsplit, hpre, hfree, hins, hmem⟩
  · rw [← hmem] at h
    exact ⟨false, _, hins, .scratched (h.freed hg)⟩
  · have ha : a ∈ l.dirSlots cs := by simp [hsplit]
    have hcre :=
      h.created hg hwf hends hnew hp hch hsplit hpre hfree hname hattr fun hd => (hbare hd).1
    refine ⟨true, d', hins, ?_⟩
    rw [hmem]
    refine .created hcre fun hdir => ?_
    rw [newDirent_cluster name attr (h.lt_word hg)]
    refine (hbare hdir).2.congr hg hnew ?_ fun b hb i hi => h.fresh_slots hg hnew hch ha hlen hb hi
    exact hnew.congr fun x hx => entry_putDirent hg hch ha hlen (hnew.range x hx).2

theorem createEntry_faulty (hm : d.mem = m) (hroom : Room l d) :
    ∃ r d', createEntry l.faulty p name d = some (r, d') ∧
      AddOutcome l m p name attrArchive d'.mem := by
  subst hm
  obtain ⟨y, d₁, halloc, hout⟩ := allocateCluster_fresh l d
  simp only [createEntry, halloc]
  cases hout with
  | none hmem =>
    rw [if_pos rfl]
    exact ⟨none, d₁, rfl, hmem ▸ .same⟩
  | claimed hy hend hfree hmem hlater hpassed =>
    have hv := hroom.inVolume hy hpassed
    have hscratch := scratched_claim hg hv hfree
    have hnodir : attrArchive = attrDirectory → BareDir l d₁.mem y ∧ UniqueIn l d₁.mem y :=
      fun h => absurd h (by decide)
    rw [← hmem] at hscratch
    rw [if_neg (by omega)]
    obtain ⟨ok, d', hins, hadd⟩ := insertNew_faulty hg hwf hends hp hname hscratch
      (by rw [hmem]; exact Chain.fresh hg hv) (Or.inl rfl) hnodir
    rw [hins]
    cases ok with
    | false => exact ⟨none, d', rfl, hadd⟩
    | true => exact ⟨_, d', rfl, hadd⟩

theorem makeDirectory_outcome (hm : d.mem = m) (hroom : Room l d) :
    ∃ ok d', makeDirectory l.faulty p name d = some (ok, d') ∧
      AddOutcome l m p name attrDirectory d'.mem := by
  subst hm
  obtain ⟨y, d₁, halloc, hout⟩ := allocateCluster_fresh l d
  simp only [makeDirectory, halloc]
  cases hout with
  | none hmem =>
    rw [if_pos rfl]
    exact ⟨false, d₁, rfl, hmem ▸ .same⟩
  | claimed hy hend hfree hmem hlater hpassed =>
    have hv := hroom.inVolume hy hpassed
    rw [if_neg (by omega)]
    obtain ⟨ok, d₂, hinit, hframe, hok, -⟩ := initDirectory_faulty hg hv p d₁
    rw [hmem] at hframe hok
    have hscratch := (scratched_claim hg hv hfree).within hg hframe
    simp only [hinit]
    cases ok with
    | false =>
      exact ⟨false, _, rfl, .scratched (hscratch.freed hg)⟩
    | true =>
      have himage := (hok rfl).1
      have hnew : Chain l d₂.mem y [y] :=
        (Chain.fresh (m := d.mem) hg hv).congr fun x hx => by
          rw [List.mem_singleton.mp hx]
          exact entry_within hg hframe hv.2
      refine insertNew_faulty hg hwf hends hp hname hscratch hnew (Or.inr rfl) fun _ => ?_
      rw [himage] at hnew ⊢
      exact ⟨bareDir_dirImage hg hv p hnew, uniqueIn_dirImage hg hv p hnew⟩

end Calls

structure TreeSound (l : Layout) (m : Mem) : Prop where
  wf : WellFormed l m fun _ => ⟨false, .read, 0, 0, 0, 0, 0⟩
  ends : EndsClean l m
  unique : UniqueNames l m

theorem WellFormed.closed {files' : Files} (h : WellFormed l m files)
    (hclosed : ∀ i, (files' i).used = false) : WellFormed l m files' := by
  refine ⟨h.subdir, h.linked.mono fun c hc => ?_⟩
  cases hc with
  | root => exact .root
  | entry ha h2 => exact .entry ha h2
  | handle i hused =>
    rw [hclosed i] at hused
    cases hused

theorem AddOutcome.sound {attr : UInt8} (hg : l.Geometry) (h : AddOutcome l m p name attr m')
    (hs : TreeSound l m) (hattr : attr = attrArchive ∨ attr = attrDirectory)
    (hmissing : ∀ cs, Chain l m p cs → ∀ b ∈ liveSlots m (l.dirSlots cs),
      (direntAt m b).name ≠ name) :
    TreeSound l m' := by
  cases h with
  | same => exact hs
  | scratched h =>
    have hsame := h.sameTree hg fun d hd => hs.wf.dir_chain hd
    exact ⟨h.wellFormed hg hs.wf, hsame.endsClean hg hs.ends, hsame.uniqueNames hg hs.unique⟩
  | created h hnew =>
    refine ⟨h.wellFormed hg hs.wf, h.toInserted.endsClean hg hs.ends,
      h.toInserted.uniqueNames hg hs.unique hmissing fun hdir => hnew ?_⟩
    rcases hattr with rfl | rfl
    · exact absurd (show attrArchive &&& attrDirectory = 0 by decide) hdir
    · rfl

inductive Addition where
  | openFile (path : List UInt8) (mode : UInt8)
  | mkdir (path : List UInt8)

def Addition.path : Addition → List UInt8
  | .openFile path _ => path
  | .mkdir path => path

def Addition.call (l : Layout) : Files × Faulty → Addition → Option (Files × Faulty)
  | (files, d), .openFile path mode =>
    (fat32Open l.faulty path mode files d).map fun r => (r.1.2, r.2)
  | (files, d), .mkdir path => (fat32Mkdir l.faulty path d).map fun r => (files, r.2)

def EntryReadable (l : Layout) (d : Faulty) (path : List UInt8) : Prop :=
  ∀ p name found, fat32Resolve l.ram path d.mem = some (some ⟨p, some name⟩, d.mem) →
    fat32Find l.ram p name d.mem = some (some found, d.mem) →
    ∀ j < findReads l d.mem p name, d.readFails (resolveReads l d.mem path + j) = false

def RoomBehind (l : Layout) (d : Faulty) (path : List UInt8) : Prop :=
  ∀ p name d₁ d₂, fat32Resolve l.faulty path d = some (some ⟨p, some name⟩, d₁) →
    fat32Find l.faulty p name d₁ = some (none, d₂) → Room l d₂

def OrdinaryPath (path : List UInt8) : Prop :=
  DotFree path ∧ ∀ comp ∈ path.splitOn slash, comp.head? ≠ some 0xE5

instance (path : List UInt8) : Decidable (OrdinaryPath path) := inferInstanceAs (Decidable (_ ∧ _))

structure Addition.Careful (l : Layout) (s : Files × Faulty) (call : Addition) : Prop where
  ordinary : OrdinaryPath call.path
  readable : EntryReadable l s.2 call.path
  room : RoomBehind l s.2 call.path

theorem upcase_deleted (c : UInt8) (h : upcase c = 0xE5) : c = 0xE5 := by
  revert c
  apply forall_byte
  decide +kernel

theorem OrdinaryPath.plainName {path comp : List UInt8} (h : OrdinaryPath path)
    (hcomp : comp ∈ path.splitOn slash) (hsub : comp ⊆ path) (hne : comp ≠ []) :
    PlainName (to83 comp) := by
  refine ⟨to83_length comp, h.1.component hcomp hsub hne, ?_⟩
  have hfirst := h.2 comp hcomp
  obtain ⟨c, cs, rfl⟩ := List.exists_cons_of_ne_nil hne
  obtain ⟨t, ht⟩ := to83_cons c cs
  intro x hx
  rw [ht, List.head?_cons, Option.mem_some_iff] at hx
  refine hx ▸ ⟨(upcase_cases c).1 ?_, fun hdel => hfirst ?_⟩
  · rintro rfl
    exact h.1.nul (hsub List.mem_cons_self)
  · rw [List.head?_cons, upcase_deleted c hdel]

theorem careful_target (hg : l.Geometry) (hs : TreeSound l d.mem) {path : List UInt8}
    (hpath : OrdinaryPath path) (hreads : EntryReadable l d path) (hroom : RoomBehind l d path) :
    (∃ r n, fat32Resolve l.faulty path d = some (r, d.skip n) ∧ ∀ p name, r ≠ some ⟨p, some name⟩) ∨
    (∃ p name found n k, fat32Resolve l.faulty path d = some (some ⟨p, some name⟩, d.skip n) ∧
      fat32Find l.faulty p name (d.skip n) = some (some found, d.skip k)) ∨
    ∃ p name n k, fat32Resolve l.faulty path d = some (some ⟨p, some name⟩, d.skip n) ∧
      fat32Find l.faulty p name (d.skip n) = some (none, d.skip k) ∧ DirCluster l d.mem p ∧
      PlainName name ∧ Room l (d.skip k) ∧
      ∀ cs, Chain l d.mem p cs → ∀ b ∈ liveSlots d.mem (l.dirSlots cs),
        (direntAt d.mem b).name ≠ name := by
  have hdirs : ∀ c, DirCluster l d.mem c → ∃ cs, Chain l d.mem c cs :=
    fun c hc => hs.wf.dir_chain hc
  cases faultyTarget hg hdirs hpath.1 with
  | unresolved r n hres hr => exact Or.inl ⟨r, n, hres, hr⟩
  | found p name found hram hfound hres hfind => exact Or.inr (Or.inl ⟨_, _, _, _, _, hres, hfind⟩)
  | missing p name h htarget hres hfind =>
    obtain ⟨hp, comp, hcomp, hsub, hne, rfl⟩ := htarget
    refine Or.inr (Or.inr ⟨_, _, _, _, hres, hfind, hp, hpath.plainName hcomp hsub hne,
      hroom _ _ _ _ hres hfind, fun cs hch => ?_⟩)
    exact (find_none hg hch _).mp h.2
  | lost p name j hram htarget hj hbad hres hfind =>
    obtain ⟨hp, comp, hcomp, hsub, hne, rfl⟩ := htarget
    refine Or.inr (Or.inr ⟨_, _, _, _, hres, hfind, hp, hpath.plainName hcomp hsub hne,
      hroom _ _ _ _ hres hfind, fun cs hch => ?_⟩)
    rw [← find_none hg hch, find_ram hg hch]
    cases hlook : (liveSlots d.mem (l.dirSlots cs)).find? (nameIs d.mem (to83 comp)) with
    | none => rfl
    | some a =>
      have hfound := find_ram hg hch (to83 comp)
      rw [hlook] at hfound
      have hgood := hreads p _ _ hram hfound j hj
      rw [hbad] at hgood
      cases hgood

theorem fat32Mkdir_sound (hg : l.Geometry) (hs : TreeSound l d.mem) {path : List UInt8}
    (hpath : OrdinaryPath path) (hreads : EntryReadable l d path) (hroom : RoomBehind l d path) :
    ∃ ok d', fat32Mkdir l.faulty path d = some (ok, d') ∧ TreeSound l d'.mem := by
  by_cases hvalid : l.Valid
  swap
  · refine ⟨false, d, ?_, hs⟩
    rw [fat32Mkdir, Layout.faulty_toLayout, if_pos hvalid]
  rcases careful_target hg hs hpath hreads hroom with ⟨r, n, hres, hr⟩ |
    ⟨p, name, found, n, k, hres, hfind⟩ | ⟨p, name, n, k, hres, hfind, hp, hname, hfree, hnew⟩
  · exact ⟨false, _, fat32Mkdir_unresolved hvalid hres hr, hs⟩
  · exact ⟨false, _, fat32Mkdir_exists hvalid hres hfind, hs⟩
  · obtain ⟨ok, d', hmake, hadd⟩ :=
      makeDirectory_outcome (d := d.skip k) hg hs.wf hs.ends hp hname rfl hfree
    exact ⟨ok, d', (fat32Mkdir_missing hvalid hres hfind).trans hmake,
      hadd.sound hg hs (Or.inr rfl) hnew⟩

theorem fat32Open_sound (hg : l.Geometry) (hs : TreeSound l d.mem) {path : List UInt8}
    (hpath : OrdinaryPath path) (hreads : EntryReadable l d path) (hroom : RoomBehind l d path)
    (mode : UInt8) (files : Files) :
    ∃ r d', fat32Open l.faulty path mode files d = some (r, d') ∧ TreeSound l d'.mem := by
  by_cases hvalid : l.Valid
  swap
  · refine ⟨(none, files), d, ?_, hs⟩
    rw [fat32Open, Layout.faulty_toLayout, if_pos hvalid]
  rw [fat32Open, Layout.faulty_toLayout, if_neg (not_not_intro hvalid)]
  rcases careful_target hg hs hpath hreads hroom with ⟨r, n, hres, hr⟩ |
    ⟨p, name, found, n, k, hres, hfind⟩ | ⟨p, name, n, k, hres, hfind, hp, hname, hfree, hnew⟩
  · refine ⟨(none, files), d.skip n, ?_, hs⟩
    rcases r with - | ⟨p, - | name⟩
    · simp only [hres]
    · simp only [hres]
    · exact absurd rfl (hr p name)
  · exact ⟨takeHandle files (openFile found.dirent mode), d.skip k, by simp only [hres, hfind], hs⟩
  · simp only [hres, hfind]
    by_cases hmode : mode ≠ charW ∧ mode ≠ charA
    · exact ⟨(none, files), d.skip k, by rw [if_pos hmode], hs⟩
    · obtain ⟨e, d', hcreate, hadd⟩ :=
        createEntry_faulty (d := d.skip k) hg hs.wf hs.ends hp hname rfl hfree
      refine ⟨handOut files mode e, d', ?_, hadd.sound hg hs (Or.inl rfl) hnew⟩
      rw [if_neg hmode]
      cases e with
      | none => simp only [hcreate, handOut]
      | some e => simp only [hcreate, handOut]

/-- Names stay unique as long as no read fails while an entry that exists is searched. -/
theorem names_stay_unique (l : Layout) (hg : l.Geometry) (files : Files) (d : Faulty)
    (hwf : WellFormed l d.mem files) (hends : EndsClean l d.mem) (hunique : UniqueNames l d.mem)
    (calls : List Addition)
    (hok : Allowed (Addition.call l) (Addition.Careful l) (files, d) calls) :
    ∃ t, run (Addition.call l) (files, d) calls = some t ∧ UniqueNames l t.2.mem := by
  have hstart : TreeSound l d.mem := ⟨hwf.closed fun _ => rfl, hends, hunique⟩
  have hstep : ∀ (s : Files × Faulty) (call : Addition), TreeSound l s.2.mem →
      Addition.Careful l s call → ∃ t, Addition.call l s call = some t ∧ TreeSound l t.2.mem := by
    rintro ⟨files, d⟩ call hs hok
    cases call with
    | openFile path mode =>
      obtain ⟨r, d', hres, hs'⟩ :=
        fat32Open_sound hg hs hok.ordinary hok.readable hok.room mode files
      dsimp only [Addition.path] at hres
      exact ⟨(r.2, d'), by simp only [Addition.call, hres, Option.map_some], hs'⟩
    | mkdir path =>
      obtain ⟨ok, d', hres, hs'⟩ := fat32Mkdir_sound hg hs hok.ordinary hok.readable hok.room
      dsimp only [Addition.path] at hres
      exact ⟨(files, d'), by simp only [Addition.call, hres, Option.map_some], hs'⟩
  obtain ⟨t, hrun, hsound⟩ := run_total hstep hok hstart
  exact ⟨t, hrun, hsound.unique⟩

theorem Catalogue.Checks.uniqueNames {k : Catalogue} (hg : l.Geometry) (h : k.Checks l m files)
    (hnames : ∀ x ∈ k.dirs,
      ((liveSlots m (l.dirSlots x.2)).map fun a => (direntAt m a).name).Nodup) :
    UniqueNames l m := by
  intro d hd cs hch
  obtain ⟨x, hx, rfl⟩ := List.mem_map.mp (h.dir_mem hg hd)
  obtain rfl := hch.unique hg (h.chains x (h.dirs x hx))
  exact hnames x hx

theorem helloDisk_checks : (⟨[(2, [2])], [(2, [2]), (3, [3])]⟩ : Catalogue).Checks tinyLayout
    helloDisk noFiles := by
  decide +kernel

theorem helloDisk_unique : UniqueNames tinyLayout helloDisk :=
  helloDisk_checks.uniqueNames tinyLayout_geometry (by decide +kernel)

theorem names_stay_unique_hello :
    ∃ t, run (Addition.call tinyLayout) (noFiles, ⟨helloDisk, fun n => 1 ≤ n, fun _ => false⟩)
        [.openFile [65] charW] = some t ∧ UniqueNames tinyLayout t.2.mem := by
  have hresolve : ∀ (σ : Type) (dev : BlockDev σ) (s : σ), fat32Resolve ⟨tinyLayout, dev⟩ [65] s =
      some (some ⟨2, some (to83 [65])⟩, s) := fun _ _ _ => rfl
  refine names_stay_unique tinyLayout tinyLayout_geometry noFiles
    ⟨helloDisk, fun n => 1 ≤ n, fun _ => false⟩ (helloDisk_checks.wellFormed tinyLayout_geometry)
    (helloDisk_checks.endsClean tinyLayout_geometry) helloDisk_unique _ ⟨⟨by decide, ?_, ?_⟩, ?_⟩
  · intro p name found hres _ j hj
    obtain ⟨rfl, rfl⟩ := resolved_unique (hresolve Mem ramDisk helloDisk) hres
    have hone : findReads tinyLayout helloDisk 2 (to83 [65]) = 1 := by decide +kernel
    have hzero : resolveReads tinyLayout helloDisk [65] = 0 := by decide +kernel
    obtain rfl : j = 0 := Nat.lt_one_iff.mp (hone ▸ hj)
    change decide (1 ≤ resolveReads tinyLayout helloDisk [65] + 0) = false
    rw [hzero]
    decide
  · intro p name d₁ d₂ hres hfind
    have heq := (hresolve Faulty faultyDisk _).symm.trans hres
    simp only [Option.some_inj, Prod.mk.injEq, Resolved.mk.injEq] at heq
    obtain ⟨⟨rfl, rfl⟩, rfl⟩ := heq
    have hfound : (fat32Find tinyLayout.faulty 2 (to83 [65])
        ⟨helloDisk, fun n => 1 ≤ n, fun _ => false⟩).map (fun r => r.1.isSome) = some true := by
      decide +kernel
    rw [hfind] at hfound
    simp at hfound
  · intro t _
    trivial

/-- The read of the directory fails, and a second entry `A` is made. -/
theorem name_made_twice :
    WellFormed tinyLayout helloDisk noFiles ∧ EndsClean tinyLayout helloDisk ∧
    UniqueNames tinyLayout helloDisk ∧
    ∃ t, run (Addition.call tinyLayout) (noFiles, ⟨helloDisk, fun n => n = 0, fun _ => false⟩)
        [.openFile [65] charW] = some t ∧ ¬ UniqueNames tinyLayout t.2.mem := by
  refine ⟨helloDisk_checks.wellFormed tinyLayout_geometry,
    helloDisk_checks.endsClean tinyLayout_geometry, helloDisk_unique, ?_⟩
  have hrun : (run (Addition.call tinyLayout)
      (noFiles, ⟨helloDisk, fun n => n = 0, fun _ => false⟩) [.openFile [65] charW]).map
      (fun t => (tinyLayout.entry t.2.mem 2, (liveSlots t.2.mem (tinyLayout.dirSlots [2])).map
        fun a => (direntAt t.2.mem a).name)) = some (0x0FFFFFFF, [to83 [65], to83 [65]]) := by
    decide +kernel
  obtain ⟨t, ht, heq⟩ := Option.map_eq_some_iff.mp hrun
  obtain ⟨hentry, hnames⟩ := Prod.mk.inj heq
  refine ⟨t, ht, fun hunique => ?_⟩
  have hch : Chain tinyLayout t.2.mem 2 [2] := by
    refine Chain.mk' tinyLayout_geometry ⟨rfl, ?_⟩ (by simp) (by decide) ?_
    · rw [Layout.next, hentry]
      rfl
    · intro x hx
      rw [List.mem_singleton.mp hx, hentry]
      decide
  have hnodup := hunique 2 .root [2] hch
  rw [hnames] at hnodup
  exact absurd hnodup (by decide)

end XldKernel.Fat32
