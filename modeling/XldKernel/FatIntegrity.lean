import XldKernel.FatCreate
import XldKernel.FatCheck
import XldKernel.GuardedRun

/-!
# FAT32: chain integrity over runs of driver calls

The world is the disk and the table of open files. It also notes which handles
were opened on an entry that is not a directory. The invariant of a run adds to
well-formedness that files and directories do not share start clusters and that
every handle for writing stands on its own chain.
-/

namespace XldKernel.Fat32
open ByteMemory BlockDevice LinkedPath GuardedRun

structure World where
  mem : Mem
  files : Files
  onFile : Fin maxOpenFiles → Bool

inductive Call where
  | openFile (path : List UInt8) (mode : UInt8)
  | mkdir (path : List UInt8)
  | write (handle : Fin maxOpenFiles) (data : List UInt8)
  | close (handle : Fin maxOpenFiles)

def lookup (l : Layout) (m : Mem) (path : List UInt8) : Option (Option Dirent) :=
  match fat32Resolve l.ram path m with
  | some (some ⟨p, some name⟩, m) =>
    (fat32Find l.ram p name m).map fun r => r.1.map Found.dirent
  | _ => none

def namesFile (l : Layout) (m : Mem) (path : List UInt8) : Bool :=
  match lookup l m path with
  | some (some e) => !decide e.IsDir
  | _ => true

def World.call (l : Layout) (w : World) : Call → Option World
  | .openFile path mode =>
    (fat32Open l.ram path mode w.files w.mem).map fun r =>
      ⟨r.2, r.1.2, r.1.1.elim w.onFile fun i =>
        Function.update w.onFile i (namesFile l w.mem path)⟩
  | .mkdir path => (fat32Mkdir l.ram path w.mem).map fun (_, m) => { w with mem := m }
  | .write i data =>
    let r := (fat32Write l.ram (w.files i) data w.mem).2
    some { w with mem := r.s, files := Function.update w.files i r.file }
  | .close i => some { w with files := Function.update w.files i (fat32Close (w.files i)) }

/-- Plain paths, writes only through handles for files, sizes that are an `int`, and
every allocation finds a free entry inside the first table. -/
def World.Permitted (l : Layout) (w : World) : Call → Prop
  | .openFile path mode => PlainPath path ∧
    (lookup l w.mem path = some none → mode = charW ∨ mode = charA → HasFree l w.mem)
  | .mkdir path => PlainPath path ∧ (lookup l w.mem path = some none → HasFree l w.mem)
  | .write i data => w.onFile i = true ∧ data.length < 2 ^ 31 ∧
    AllocsIn l (fat32Write l.ram (w.files i) data w.mem).2.trace
  | .close _ => True

structure World.Sound (l : Layout) (w : World) : Prop where
  wf : WellFormed l w.mem w.files
  ends : EndsClean l w.mem
  start : ∀ a, LiveEntry l w.mem a → ¬ (direntAt w.mem a).IsDir →
    (direntAt w.mem a).cluster = 0 ∨ 2 ≤ (direntAt w.mem a).cluster
  noDir : ∀ a, LiveEntry l w.mem a → ¬ (direntAt w.mem a).IsDir →
    ¬ DirCluster l w.mem (direntAt w.mem a).cluster
  ready : ∀ i, (w.files i).used = true → (w.files i).mode = .write →
    ∃ cs pos, Ready l w.mem (w.files i) cs pos
  apart : ∀ i, (w.files i).used = true → w.onFile i = true →
    ¬ DirCluster l w.mem (w.files i).firstCluster

variable {l : Layout} {m m' : Mem} {files : Files} {onFile : Fin maxOpenFiles → Bool} {c : ℕ}

theorem Missing.lookup {path name : List UInt8} {p : ℕ} (h : Missing l m path p name) :
    lookup l m path = some none := by
  simp [Fat32.lookup, h.1, h.2]

theorem lookup_found {path name : List UInt8} {p a : ℕ}
    (hres : fat32Resolve l.ram path m = some (some ⟨p, some name⟩, m))
    (hfind : fat32Find l.ram p name m = some (some (foundAt m a), m)) :
    lookup l m path = some (some (direntAt m a)) := by
  simp [lookup, hres, hfind, foundAt]

theorem fat32Open_existing {path : List UInt8} {mode : UInt8} {e : Dirent} {files' : Files}
    {i : Fin maxOpenFiles} (hlook : lookup l m path = some (some e))
    (h : fat32Open l.ram path mode files m = some ((some i, files'), m')) :
    m' = m ∧ files' = Function.update files i (openFile e mode) := by
  rcases fat32Open_cases h with
    hr | ⟨p, name, found, hres, hfind, hr⟩ | ⟨p, name, _, _, -, hmiss, -⟩
  · simp at hr
  · obtain ⟨htake, rfl⟩ := Prod.mk.inj hr
    have he : found.dirent = e := by simpa [lookup, hres, hfind] using hlook
    exact ⟨rfl, he ▸ takeHandle_some htake.symm⟩
  · rw [hmiss.lookup] at hlook
    simp at hlook

theorem Chain.start_ne_zero {cs : List ℕ} (hch : Chain l m c cs) : c ≠ 0 := by
  have h2 := hch.start.1
  omega

theorem Ready.chain {f : File} {cs : List ℕ} {pos : ℕ} (h : Ready l m f cs pos)
    (hne : f.firstCluster ≠ 0) : Chain l m f.firstCluster cs := by
  cases h with
  | empty hfirst => exact absurd hfirst hne
  | «at» h => exact h.chain

theorem Ready.nil {f : File} {cs : List ℕ} {pos : ℕ} (h : Ready l m f cs pos)
    (h0 : f.firstCluster = 0) : cs = [] := by
  cases h with
  | empty => rfl
  | «at» h => exact absurd h0 h.chain.start_ne_zero

theorem Ready.grow {f : File} {cs : List ℕ} {pos : ℕ} (h : Ready l m f cs pos)
    (hgrow : Chain l m f.firstCluster cs → ∃ cs', cs <+: cs' ∧ Chain l m' f.firstCluster cs') :
    ∃ cs' pos', Ready l m' f cs' pos' := by
  cases h with
  | empty hfirst hcurr => exact ⟨[], 0, .empty hfirst hcurr⟩
  | «at» h =>
    obtain ⟨cs', hpre, hch⟩ := hgrow h.chain
    have hlt := h.lt.trans_le (Nat.mul_le_mul_right l.bytesPerCluster hpre.length_le)
    refine ⟨cs', pos, .at ⟨hch, hlt, ?_, h.off⟩⟩
    obtain ⟨t, rfl⟩ := hpre
    rw [h.curr, List.getD_append _ _ _ _ (Nat.div_lt_of_lt_mul (by rw [Nat.mul_comm]; exact h.lt))]

theorem SameTree.wellFormed (hg : l.Geometry) (h : SameTree l m m') (hwf : WellFormed l m files)
    (hlink : Linked l m' (Head l m files)) : WellFormed l m' files := by
  refine ⟨?_, hlink.mono fun c hc => h.head_of hg hc⟩
  intro a ha hdir
  obtain ⟨hold, heq⟩ := h.liveEntry_of hg ha
  rw [heq] at hdir ⊢
  exact hwf.subdir a hold hdir

namespace Created
variable {p a : ℕ} {e : Dirent} (hg : l.Geometry) (hwf : WellFormed l m files)
  (h : Created l m m' p a e)

include h in
theorem grown : Grown l m m' [] [e.cluster] := by
  refine ⟨?_, ?_⟩
  · intro x hx _
    rw [List.mem_singleton.mp hx]
    exact h.unused
  · intro x hx hne
    exact h.entries x hx.2 fun heq => hne (by simp [heq])

include hwf h in
theorem head_ne (hc : Head l m files c) : c ≠ e.cluster := by
  intro heq
  obtain ⟨cs, hch⟩ := hwf.linked.chain c hc
  exact hch.not_free hch.start_mem (heq ▸ h.unused)

include hg hwf h in
/-- A new entry refers to a cluster that nothing referred to. -/
theorem wellFormed : WellFormed l m' files := by
  have hins := h.toInserted
  have hhead : ∀ c, Head l m' files c → Head l m files c ∨ c = e.cluster := by
    intro c hc
    cases hc with
    | root => exact Or.inl .root
    | entry ha hge =>
      rcases hins.liveEntry_of hg ha with ⟨hold, heq⟩ | rfl
      · rw [heq] at hge ⊢
        exact Or.inl (.entry hold hge)
      · rw [hins.entry]
        exact Or.inr rfl
    | handle i hused hne => exact Or.inl (.handle i hused hne)
  have hlink := hwf.linked.grow hg h.grown h.fresh fun c ds _ _ _ => List.disjoint_nil_right ds
  refine ⟨?_, hlink.mono hhead⟩
  intro b hb hdir
  rcases hins.liveEntry_of hg hb with ⟨hold, heq⟩ | rfl
  · rw [heq] at hdir ⊢
    exact hwf.subdir b hold hdir
  · rw [hins.entry]
    exact h.fresh.start.1

end Created

namespace World.Sound

theorem sameTree (hg : l.Geometry) (h : World.Sound l ⟨m, files, onFile⟩) (hsame : SameTree l m m')
    (hlink : Linked l m' (Head l m files))
    (hgrow : ∀ c ds, Head l m files c → Chain l m c ds → ∃ ds', ds <+: ds' ∧ Chain l m' c ds') :
    World.Sound l ⟨m', files, onFile⟩ := by
  refine ⟨hsame.wellFormed hg h.wf hlink, hsame.endsClean hg h.ends, ?_, ?_, ?_, ?_⟩
  · intro a ha hdir
    obtain ⟨hold, heq⟩ := hsame.liveEntry_of hg ha
    rw [heq] at hdir ⊢
    exact h.start a hold hdir
  · intro a ha hdir hd
    obtain ⟨hold, heq⟩ := hsame.liveEntry_of hg ha
    rw [heq] at hdir hd
    exact h.noDir a hold hdir (hsame.dir_of hg hd)
  · intro i hused hmode
    obtain ⟨cs, pos, hready⟩ := h.ready i hused hmode
    exact hready.grow fun hch => hgrow _ cs (.handle i hused hch.start_ne_zero) hch
  · intro i hused hon hd
    exact h.apart i hused hon (hsame.dir_of hg hd)

theorem setHandle (h : World.Sound l ⟨m, files, onFile⟩) (i : Fin maxOpenFiles) (f : File)
    (b : Bool)
    (hlink : f.used = true → f.firstCluster ≠ 0 → Linked l m fun c => Head l m files c ∨
      c = f.firstCluster)
    (hready : f.used = true → f.mode = .write → ∃ cs pos, Ready l m f cs pos)
    (hapart : f.used = true → b = true → ¬ DirCluster l m f.firstCluster) :
    World.Sound l ⟨m, Function.update files i f, Function.update onFile i b⟩ := by
  have hhead : ∀ c, Head l m (Function.update files i f) c →
      Head l m files c ∨ (c = f.firstCluster ∧ f.used = true ∧ f.firstCluster ≠ 0) := by
    intro c hc
    cases hc with
    | root => exact Or.inl .root
    | entry ha h2 => exact Or.inl (.entry ha h2)
    | handle j hused hne =>
      by_cases hj : j = i
      · subst hj
        rw [Function.update_self] at hused hne ⊢
        exact Or.inr ⟨rfl, hused, hne⟩
      · rw [Function.update_of_ne hj] at hused hne ⊢
        exact Or.inl (.handle j hused hne)
  refine ⟨⟨h.wf.subdir, ?_⟩, h.ends, h.start, h.noDir, ?_, ?_⟩
  · by_cases hnew : f.used = true ∧ f.firstCluster ≠ 0
    · exact (hlink hnew.1 hnew.2).mono fun c hc => (hhead c hc).imp_right And.left
    · exact h.wf.linked.mono fun c hc => (hhead c hc).resolve_right fun hr => hnew hr.2
  · intro j hused hmode
    by_cases hj : j = i
    · subst hj
      simp only [Function.update_self] at hused hmode ⊢
      exact hready hused hmode
    · simp only [Function.update_of_ne hj] at hused hmode ⊢
      exact h.ready j hused hmode
  · intro j hused hon
    by_cases hj : j = i
    · subst hj
      simp only [Function.update_self] at hused hon ⊢
      exact hapart hused hon
    · simp only [Function.update_of_ne hj] at hused hon ⊢
      exact h.apart j hused hon

theorem reverted (hg : l.Geometry) (h : World.Sound l ⟨m, files, onFile⟩)
    (hrev : Reverted l m m' c) : World.Sound l ⟨m', files, onFile⟩ := by
  refine h.sameTree hg (hrev.sameTree hg fun d hd => h.wf.dir_chain hd) ?_ ?_
  · exact h.wf.linked.congr fun x hx => hrev.same x hx.2
  · intro c ds _ hch
    exact ⟨ds, List.prefix_rfl, hrev.chain hch⟩

theorem created (hg : l.Geometry) {p a : ℕ} {e : Dirent} (h : World.Sound l ⟨m, files, onFile⟩)
    (hcre : Created l m m' p a e) : World.Sound l ⟨m', files, onFile⟩ := by
  have hins := hcre.toInserted
  have h2 : 2 ≤ e.cluster := hcre.fresh.start.1
  have hunused : ∀ c, Head l m files c → c ≠ e.cluster := fun c hc => hcre.head_ne h.wf hc
  have hnodir : ∀ d, DirCluster l m' d → ¬ DirCluster l m d → d = e.cluster ∧ e.IsDir := by
    intro d hd hno
    rcases hins.dir_of hg hd with hold | ⟨hdir, heq⟩
    · exact absurd hold hno
    · exact ⟨heq, hdir⟩
  refine ⟨hcre.wellFormed hg h.wf, hins.endsClean hg h.ends, ?_, ?_, ?_, ?_⟩
  · intro b hb hdir
    rcases hins.liveEntry_of hg hb with ⟨hold, heq⟩ | rfl
    · rw [heq] at hdir ⊢
      exact h.start b hold hdir
    · rw [hins.entry]
      exact Or.inr h2
  · intro b hb hdir hd
    rcases hins.liveEntry_of hg hb with ⟨hold, heq⟩ | rfl
    · rw [heq] at hdir hd
      obtain ⟨hc, -⟩ := hnodir _ hd (h.noDir b hold hdir)
      have hge : 2 ≤ (direntAt m b).cluster := by omega
      exact hunused _ (.entry hold hge) hc
    · rw [hins.entry] at hdir hd
      rcases hins.dir_of hg hd with hold | ⟨hed, -⟩
      · exact hunused _ (h.wf.head_of_dir hold) rfl
      · exact hdir hed
  · intro i hused hmode
    obtain ⟨cs, pos, hready⟩ := h.ready i hused hmode
    exact hready.grow fun hch =>
      ⟨cs, List.prefix_rfl, hcre.grown.chain hch (List.disjoint_nil_right cs)⟩
  · intro i hused hon hd
    obtain ⟨hc, -⟩ := hnodir _ hd (h.apart i hused hon)
    have hc' : (files i).firstCluster = e.cluster := hc
    exact hunused _ (.handle i hused (by omega)) hc

theorem write (hg : l.Geometry) (h : World.Sound l ⟨m, files, onFile⟩) {i : Fin maxOpenFiles}
    (hon : onFile i = true) {data : List UInt8}
    (hallocs : AllocsIn l (fat32Write l.ram (files i) data m).2.trace) :
    World.Sound l ⟨(fat32Write l.ram (files i) data m).2.s,
      Function.update files i (fat32Write l.ram (files i) data m).2.file, onFile⟩ := by
  by_cases hopen : ¬ ((files i).used = true) ∨ (files i).mode ≠ .write
  · simp only [fat32Write, if_pos hopen, Function.update_eq_self]
    exact h
  obtain ⟨hused, hmode⟩ : (files i).used = true ∧ (files i).mode = .write := by
    simpa using hopen
  obtain ⟨cs, pos, hready⟩ := h.ready i hused hmode
  obtain ⟨-, cs', hready', hwrote, -, -, hfirst, -⟩ := fat32Write_ram hg hused hmode hready hallocs
  generalize (fat32Write l.ram (files i) data m).2.s = m' at *
  generalize (fat32Write l.ram (files i) data m).2.file = f' at *
  have hold : ∀ c ds, Head l m files c → c ≠ (files i).firstCluster → Chain l m c ds →
      ds.Disjoint cs := by
    intro c ds hc hne hch
    by_cases h0 : (files i).firstCluster = 0
    · rw [hready.nil h0]
      exact List.disjoint_nil_right ds
    · exact h.wf.linked.disjoint c _ ds cs hc (.handle i hused h0) hne hch (hready.chain h0)
  have hsame : SameTree l m m' := by
    refine hwrote.sameTree hg h.wf hready'.range ?_
    intro d ds hd hch
    exact hold d ds (h.wf.head_of_dir hd) (fun heq => h.apart i hused hon (heq ▸ hd)) hch
  have hgrow : ∀ c ds, Head l m files c → Chain l m c ds →
      ∃ ds', ds <+: ds' ∧ Chain l m' c ds' := by
    intro c ds hc hch
    by_cases heq : c = (files i).firstCluster
    · have h0 := heq ▸ hch.start_ne_zero
      have hch' := hready'.chain (by rw [hfirst h0]; exact h0)
      rw [hfirst h0, ← heq] at hch'
      rw [hch.unique hg (heq ▸ hready.chain h0)]
      exact ⟨cs', hwrote.ext, hch'⟩
    · exact ⟨ds, List.prefix_rfl, hwrote.grown.chain hch (hold c ds hc heq hch)⟩
  have hlink : f'.firstCluster ≠ 0 → Linked l m' fun c => Head l m files c ∨
      c = f'.firstCluster := by
    intro h0'
    refine h.wf.linked.grow hg hwrote.grown (hready'.chain h0') ?_
    intro c ds hc hne hch
    by_cases h0 : (files i).firstCluster = 0
    · rw [hready.nil h0]
      exact List.disjoint_nil_right ds
    · exact hold c ds hc (by rw [← hfirst h0]; exact hne) hch
  have hkept : Linked l m' (Head l m files) := by
    by_cases h0' : f'.firstCluster = 0
    · refine h.wf.linked.congr fun x hx => hwrote.entries x hx ?_
      rw [hready'.nil h0']
      exact List.not_mem_nil
    · exact (hlink h0').mono fun c hc => Or.inl hc
  have hnext := (h.sameTree hg hsame hkept hgrow).setHandle i f' (onFile i) ?_ ?_ ?_
  · rwa [Function.update_eq_self] at hnext
  · intro _ h0'
    exact (hlink h0').mono fun c hc => hc.imp_left (hsame.head_of hg)
  · exact fun _ _ => ⟨cs', _, hready'⟩
  · intro _ _ hd
    have hd' := hsame.dir_of hg hd
    by_cases h0 : (files i).firstCluster = 0
    · obtain ⟨ds, hds⟩ := h.wf.dir_chain hd'
      have hmem := (hready'.chain hds.start_ne_zero).start_mem
      exact hds.not_free hds.start_mem (hwrote.fresh _ hmem (by rw [hready.nil h0]; simp))
    · rw [hfirst h0] at hd'
      exact h.apart i hused hon hd'

theorem handOut (hg : l.Geometry) (h : World.Sound l ⟨m, files, onFile⟩) {a : ℕ}
    (hlive : LiveEntry l m a) (mode : UInt8) {b : Bool} (hb : b = true → ¬ (direntAt m a).IsDir) :
    World.Sound l ⟨m, (takeHandle files (openFile (direntAt m a) mode)).2,
      (takeHandle files (openFile (direntAt m a) mode)).1.elim onFile
        fun i => Function.update onFile i b⟩ := by
  have hhead : (direntAt m a).cluster ≠ 0 → Head l m files (direntAt m a).cluster := by
    intro h0
    by_cases hdir : (direntAt m a).IsDir
    · exact .entry hlive (h.wf.subdir a hlive hdir)
    · exact .entry hlive ((h.start a hlive hdir).resolve_left h0)
  rw [takeHandle]
  split
  · exact h
  next i _ =>
  refine h.setHandle i _ b ?_ ?_ ?_
  · intro _ h0
    refine h.wf.linked.mono fun c hc => ?_
    rcases hc with hc | rfl
    · exact hc
    · exact hhead h0
  · intro _ _
    by_cases h0 : (direntAt m a).cluster = 0
    · exact ⟨[], 0, .empty h0 h0⟩
    · obtain ⟨cs, hch⟩ := h.wf.linked.chain _ (hhead h0)
      exact ⟨cs, 0, hch.ready hg mode⟩
  · intro _ hb'
    exact h.noDir a hlive (hb hb')

theorem openFile (hg : l.Geometry) (h : World.Sound l ⟨m, files, onFile⟩) {path : List UInt8}
    {mode : UInt8} (hok : World.Permitted l ⟨m, files, onFile⟩ (.openFile path mode)) :
    ∃ t, World.call l ⟨m, files, onFile⟩ (.openFile path mode) = some t ∧ t.Sound l := by
  obtain ⟨hplain, hfree⟩ := hok
  obtain ⟨e, m', hopen, hopened⟩ := fat32Open_ram hg h.wf h.ends hplain
    fun p name hmiss => hfree hmiss.lookup
  refine ⟨_, by rw [World.call, hopen]; rfl, ?_⟩
  cases hopened with
  | unchanged => exact h
  | reverted hrev => exact h.reverted hg hrev
  | existing hres hfind hlive _ =>
    refine h.handOut hg hlive mode ?_
    simp [namesFile, lookup_found hres hfind]
  | created _ _ hcre =>
    have hins := hcre.toInserted
    have hnew := (h.created hg hcre).handOut hg (hins.liveEntry_new hg) mode
      (b := namesFile l m path) ?_
    · rwa [hins.entry] at hnew
    · intro _
      rw [hins.entry]
      exact not_not_intro (show attrArchive &&& attrDirectory = 0 by decide)

theorem mkdir (hg : l.Geometry) (h : World.Sound l ⟨m, files, onFile⟩) {path : List UInt8}
    (hok : World.Permitted l ⟨m, files, onFile⟩ (.mkdir path)) :
    ∃ t, World.call l ⟨m, files, onFile⟩ (.mkdir path) = some t ∧ t.Sound l := by
  obtain ⟨hplain, hfree⟩ := hok
  obtain ⟨ok, m', hmkdir, hmade⟩ := fat32Mkdir_ram hg h.wf h.ends hplain
    fun p name hmiss => hfree hmiss.lookup
  refine ⟨_, by rw [World.call, hmkdir]; rfl, ?_⟩
  cases hmade with
  | unchanged => exact h
  | reverted hrev => exact h.reverted hg hrev
  | created _ _ hcre => exact h.created hg hcre

theorem close (h : World.Sound l ⟨m, files, onFile⟩) (i : Fin maxOpenFiles) :
    World.Sound l ⟨m, Function.update files i (fat32Close (files i)), onFile⟩ := by
  have hunused : (fat32Close (files i)).used ≠ true := Bool.false_ne_true
  have hnext := h.setHandle i (fat32Close (files i)) (onFile i) (fun hu => absurd hu hunused)
    (fun hu => absurd hu hunused) (fun hu => absurd hu hunused)
  rwa [Function.update_eq_self] at hnext

/-- Every permitted call returns and keeps the invariant. -/
theorem step (hg : l.Geometry) {w : World} (h : w.Sound l) {call : Call}
    (hok : w.Permitted l call) :
    ∃ t, w.call l call = some t ∧ t.Sound l := by
  obtain ⟨m, files, onFile⟩ := w
  cases call with
  | openFile path mode => exact h.openFile hg hok
  | mkdir path => exact h.mkdir hg hok
  | write i data => exact ⟨_, rfl, h.write hg hok.1 hok.2.2⟩
  | close i => exact ⟨_, rfl, h.close i⟩

end World.Sound

def Catalogue.FilesApart (l : Layout) (m : Mem) (k : Catalogue) : Prop :=
  ∀ a ∈ k.entries l m, ¬ (direntAt m a).IsDir →
    ((direntAt m a).cluster = 0 ∨ 2 ≤ (direntAt m a).cluster) ∧
      (direntAt m a).cluster ∉ k.dirs.map Prod.fst

instance (k : Catalogue) : Decidable (k.FilesApart l m) :=
  inferInstanceAs (Decidable (∀ a ∈ k.entries l m, _ → _))

theorem Catalogue.Checks.sound {k : Catalogue} (hg : l.Geometry) (h : k.Checks l m files)
    (hfiles : k.FilesApart l m) (hclosed : ∀ i, (files i).used = false) :
    World.Sound l ⟨m, files, onFile⟩ := by
  refine ⟨h.wellFormed hg, h.endsClean hg, ?_, ?_, ?_, ?_⟩
  · intro a ha hdir
    exact (hfiles a (h.liveEntry_mem hg ha) hdir).1
  · intro a ha hdir hd
    exact (hfiles a (h.liveEntry_mem hg ha) hdir).2 (h.dir_mem hg hd)
  · intro i hused
    exact absurd hused (by simp [hclosed i])
  · intro i hused
    exact absurd hused (by simp [hclosed i])

instance : Decidable (HasFree l m) :=
  decidable_of_iff (∃ c < l.clusters, 2 ≤ c ∧ c < scanEnd ∧ l.entry m c = 0)
    ⟨fun ⟨c, h1, h2, h3, h4⟩ => ⟨c, ⟨h2, h1⟩, h3, h4⟩, fun ⟨c, h1, h2, h3⟩ =>
      ⟨c, h1.2, h1.1, h2, h3⟩⟩

instance (w : World) : ∀ call, Decidable (w.Permitted l call)
  | .openFile _ _ => inferInstanceAs (Decidable (_ ∧ (_ → _ → _)))
  | .mkdir _ => inferInstanceAs (Decidable (_ ∧ (_ → _)))
  | .write _ _ => inferInstanceAs (Decidable (_ ∧ _ ∧ _))
  | .close _ => inferInstanceAs (Decidable True)

/-- Chain integrity: permitted calls return, and the volume stays well formed. -/
theorem chain_integrity (l : Layout) (hg : l.Geometry) (w : World) (hw : w.Sound l)
    (calls : List Call) (hok : Allowed (World.call l) (World.Permitted l) w calls) :
    ∃ t, run (World.call l) w calls = some t ∧ t.Sound l :=
  run_total (fun _ _ hs ha => hs.step hg ha) hok hw

def someCalls : List Call :=
  [.openFile [65] charW, .write 0 [104, 105], .close 0, .mkdir [slash, 68]]

theorem chain_integrity_someCalls :
    Allowed (World.call tinyLayout) (World.Permitted tinyLayout) ⟨tinyDisk, noFiles, fun _ => true⟩
        someCalls ∧
      ∃ t, run (World.call tinyLayout) ⟨tinyDisk, noFiles, fun _ => true⟩ someCalls = some t ∧
        t.Sound tinyLayout := by
  have hcheck : (⟨[(2, [2])], [(2, [2])]⟩ : Catalogue).Checks tinyLayout tinyDisk noFiles := by
    decide +kernel
  have hok : Allowed (World.call tinyLayout) (World.Permitted tinyLayout)
      ⟨tinyDisk, noFiles, fun _ => true⟩ someCalls := by decide +kernel
  exact ⟨hok, chain_integrity tinyLayout tinyLayout_geometry _
    (hcheck.sound tinyLayout_geometry (by decide +kernel) fun _ => rfl) someCalls hok⟩

def strayDisk : Mem := putDirent tinyDisk 1024 (newDirent (to83 [65]) attrArchive 1)

/-- Well-formedness alone does not last: it says nothing of a file entry with start
cluster 1, which becomes the first cluster of the handle that opens it. -/
theorem stray_start_breaks :
    tinyLayout.Geometry ∧ WellFormed tinyLayout strayDisk noFiles ∧
      EndsClean tinyLayout strayDisk ∧
      Allowed (World.call tinyLayout) (World.Permitted tinyLayout)
        ⟨strayDisk, noFiles, fun _ => true⟩ [.openFile [65] 114] ∧
      ∃ t, run (World.call tinyLayout) ⟨strayDisk, noFiles, fun _ => true⟩
          [.openFile [65] 114] = some t ∧ ¬ WellFormed tinyLayout t.mem t.files := by
  have hcheck : (⟨[(2, [2])], [(2, [2])]⟩ : Catalogue).Checks tinyLayout strayDisk noFiles := by
    decide +kernel
  have hhandle : (run (World.call tinyLayout) ⟨strayDisk, noFiles, fun _ => true⟩
      [.openFile [65] 114]).map (fun t => ((t.files 0).used, (t.files 0).firstCluster)) =
        some (true, 1) := by decide +kernel
  obtain ⟨t, ht, hfirst⟩ := Option.map_eq_some_iff.mp hhandle
  obtain ⟨hused, h1⟩ := Prod.mk.inj hfirst
  refine ⟨tinyLayout_geometry, hcheck.wellFormed tinyLayout_geometry,
    hcheck.endsClean tinyLayout_geometry, by decide +kernel, t, ht, ?_⟩
  intro hwf
  obtain ⟨cs, hch⟩ := hwf.linked.chain _ (.handle 0 hused (by rw [h1]; decide))
  rw [h1] at hch
  exact absurd hch.start.1 (by decide)

end XldKernel.Fat32
