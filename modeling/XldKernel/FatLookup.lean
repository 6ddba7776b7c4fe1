import XldKernel.FatTree
import Mathlib.Data.List.TakeWhile

/-!
# FAT32: path resolution and lookup on a fault-free disk

On a volume whose directories have chains, `fat32_find` returns the first live
entry of a name and `fat32_resolve` ends; the parent it reports for a plain path
is a directory of the tree.
-/

namespace XldKernel.Fat32
open ByteMemory BlockDevice LinkedPath

structure PlainName (name : List UInt8) : Prop where
  length : name.length = 11
  notDot : name ∉ dotNames
  head : ∀ c ∈ name.head?, c ≠ 0 ∧ c ≠ 0xE5

theorem to83_head {src : List UInt8} (hsrc : Printable src) (hne : src ≠ []) :
    ∀ c ∈ (to83 src).head?, c ≠ 0 ∧ c ≠ 0xE5 := by
  obtain ⟨c, cs, rfl⟩ := List.exists_cons_of_ne_nil hne
  obtain ⟨t, ht⟩ := to83_cons c cs
  obtain ⟨h0, -, -, h5⟩ := upcase_cases c
  intro x hx
  rw [ht, List.head?_cons, Option.mem_some_iff] at hx
  refine hx ▸ ⟨h0 ?_, h5 (hsrc c List.mem_cons_self).2⟩
  rintro rfl
  exact hsrc.nul List.mem_cons_self

theorem to83_plain {src : List UInt8} (hsrc : Printable src) (hne : src ≠ [])
    (hdot : src ≠ [46]) (hdotdot : src ≠ [46, 46]) : PlainName (to83 src) :=
  ⟨to83_length src, to83_notMem_dotNames hsrc.nul hne hdot hdotdot, to83_head hsrc hne⟩

section Components
variable {path comp : List UInt8}

inductive PathShape : List UInt8 → Prop
  | nil : PathShape []
  | last {comp : List UInt8} (hcomp : slash ∉ comp) (hne : comp ≠ []) : PathShape comp
  | skip (tail : List UInt8) : PathShape (slash :: tail)
  | step {comp : List UInt8} (tail : List UInt8) (hcomp : slash ∉ comp) (hne : comp ≠ []) :
      PathShape (comp ++ slash :: tail)

theorem pathShape (start : List UInt8) : PathShape start := by
  induction start with
  | nil => exact .nil
  | cons c cs ih =>
    by_cases hc : c = slash
    · subst hc
      exact .skip cs
    · have hcons : ∀ {comp}, slash ∉ comp → slash ∉ c :: comp := by
        intro comp hcomp
        rw [List.mem_cons, not_or]
        exact ⟨Ne.symm hc, hcomp⟩
      cases ih with
      | nil => exact .last (hcons List.not_mem_nil) (by simp)
      | last hcomp _ => exact .last (hcons hcomp) (by simp)
      | skip tail => exact .step tail (hcons List.not_mem_nil) (by simp)
      | step tail hcomp _ => exact .step tail (hcons hcomp) (by simp)

theorem splitOn_component (hcomp : slash ∉ comp) (tail : List UInt8) :
    (comp ++ slash :: tail).splitOn slash = comp :: tail.splitOn slash := by
  refine List.splitOnP_append_cons_of_forall_mem ?_ slash (by simp) tail
  intro c hc
  simpa using fun h : c = slash => hcomp (h ▸ hc)

theorem splitOn_last (hcomp : slash ∉ comp) : comp.splitOn slash = [comp] := by
  refine List.splitOnP_eq_singleton ?_
  intro c hc
  simpa using fun h : c = slash => hcomp (h ▸ hc)

theorem component_mem (hcomp : slash ∉ comp) (tail : List UInt8) :
    comp ∈ (comp ++ slash :: tail).splitOn slash := by
  rw [splitOn_component hcomp]
  exact List.mem_cons_self

theorem rest_subset (hcomp : slash ∉ comp) (tail : List UInt8) :
    tail ⊆ comp ++ slash :: tail ∧ tail.splitOn slash ⊆ (comp ++ slash :: tail).splitOn slash := by
  refine ⟨fun c hc => by simp [hc], ?_⟩
  rw [splitOn_component hcomp]
  exact List.subset_cons_self comp _

theorem DotFree.component (h : DotFree path) (hcomp : comp ∈ path.splitOn slash)
    (hsub : comp ⊆ path) (hne : comp ≠ []) : to83 comp ∉ dotNames := by
  obtain ⟨hdot, hdotdot⟩ := h.no_dots comp hcomp
  exact to83_notMem_dotNames (fun h0 => h.nul (hsub h0)) hne hdot hdotdot

theorem DotFree.rest {tail : List UInt8} (h : DotFree (comp ++ slash :: tail))
    (hcomp : slash ∉ comp) : DotFree tail :=
  ⟨fun h0 => h.nul ((rest_subset hcomp tail).1 h0),
    fun x hx => h.no_dots x ((rest_subset hcomp tail).2 hx)⟩

end Components

section Rounds
variable {σ : Type} {fs : Fs σ} {n cur : ℕ} {comp tail : List UInt8} {s s' : σ}

theorem takeWhile_component (hcomp : slash ∉ comp) (tail : List UInt8) :
    (comp ++ slash :: tail).takeWhile (fun c => !decide (c = slash)) = comp := by
  rw [List.takeWhile_append_of_pos fun c hc => by simpa using fun h : c = slash => hcomp (h ▸ hc),
    List.takeWhile_cons_of_neg (by simp), List.append_nil]

theorem resolveLoop_last (hcomp : slash ∉ comp) (hne : comp ≠ []) :
    resolveLoop fs (n + 1) cur comp s = some (some ⟨cur, some (to83 comp)⟩, s) := by
  have htake : comp.takeWhile (fun c => !decide (c = slash)) = comp :=
    List.takeWhile_eq_self_iff.mpr fun c hc => by simpa using fun h : c = slash => hcomp (h ▸ hc)
  simp [resolveLoop, htake, hne]

theorem resolveLoop_slash (fs : Fs σ) (n cur : ℕ) (tail : List UInt8) (s : σ) :
    resolveLoop fs (n + 1) cur (slash :: tail) s = resolveLoop fs n cur tail s := by
  simp [resolveLoop]

theorem resolveLoop_missing (hcomp : slash ∉ comp) (hne : comp ≠ [])
    (hfind : fat32Find fs cur (to83 comp) s = some (none, s')) :
    resolveLoop fs (n + 1) cur (comp ++ slash :: tail) s = some (none, s') := by
  simp [resolveLoop, takeWhile_component hcomp, hne, hfind]

theorem resolveLoop_file {found : Found} (hcomp : slash ∉ comp) (hne : comp ≠ [])
    (hfind : fat32Find fs cur (to83 comp) s = some (some found, s')) (hdir : ¬ found.dirent.IsDir) :
    resolveLoop fs (n + 1) cur (comp ++ slash :: tail) s = some (none, s') := by
  simp [resolveLoop, takeWhile_component hcomp, hne, hfind, hdir]

theorem resolveLoop_enter {found : Found} (hcomp : slash ∉ comp) (hne : comp ≠ [])
    (hfind : fat32Find fs cur (to83 comp) s = some (some found, s')) (hdir : found.dirent.IsDir) :
    resolveLoop fs (n + 1) cur (comp ++ slash :: tail) s =
      resolveLoop fs n found.dirent.cluster tail s' := by
  simp [resolveLoop, takeWhile_component hcomp, hne, hfind, hdir]

end Rounds

inductive Resolves {σ : Type} (fs : Fs σ) :
    ℕ → ℕ → List UInt8 → σ → Option Resolved → σ → Prop
  | spent {cur : ℕ} {start : List UInt8} {s : σ} : Resolves fs 0 cur start s (some ⟨cur, none⟩) s
  | nil {n cur : ℕ} {s : σ} : Resolves fs (n + 1) cur [] s (some ⟨cur, none⟩) s
  | last {n cur : ℕ} {comp : List UInt8} {s : σ} (hcomp : slash ∉ comp) (hne : comp ≠ []) :
      Resolves fs (n + 1) cur comp s (some ⟨cur, some (to83 comp)⟩) s
  | skip {n cur : ℕ} {tail : List UInt8} {s s' : σ} {r : Option Resolved}
      (h : Resolves fs n cur tail s r s') : Resolves fs (n + 1) cur (slash :: tail) s r s'
  | missing {n cur : ℕ} {comp tail : List UInt8} {s s' : σ} (hcomp : slash ∉ comp) (hne : comp ≠ [])
      (hfind : fat32Find fs cur (to83 comp) s = some (none, s')) :
      Resolves fs (n + 1) cur (comp ++ slash :: tail) s none s'
  | file {n cur : ℕ} {comp tail : List UInt8} {s s' : σ} {found : Found} (hcomp : slash ∉ comp)
      (hne : comp ≠ []) (hfind : fat32Find fs cur (to83 comp) s = some (some found, s'))
      (hdir : ¬ found.dirent.IsDir) : Resolves fs (n + 1) cur (comp ++ slash :: tail) s none s'
  | enter {n cur : ℕ} {comp tail : List UInt8} {s s₁ s' : σ} {found : Found} {r : Option Resolved}
      (hcomp : slash ∉ comp) (hne : comp ≠ [])
      (hfind : fat32Find fs cur (to83 comp) s = some (some found, s₁)) (hdir : found.dirent.IsDir)
      (h : Resolves fs n found.dirent.cluster tail s₁ r s') :
      Resolves fs (n + 1) cur (comp ++ slash :: tail) s r s'

theorem resolves_of_loop {σ : Type} {fs : Fs σ} {n cur : ℕ} {start : List UInt8} {s s' : σ}
    {r : Option Resolved} (h : resolveLoop fs n cur start s = some (r, s')) :
    Resolves fs n cur start s r s' := by
  induction n generalizing cur start s with
  | zero =>
    cases h
    exact .spent
  | succ n ih =>
    cases pathShape start with
    | nil =>
      cases h
      exact .nil
    | last hcomp hne =>
      rw [resolveLoop_last hcomp hne] at h
      cases h
      exact .last hcomp hne
    | skip tail =>
      rw [resolveLoop_slash] at h
      exact .skip (ih h)
    | @step comp tail hcomp hne =>
      rcases hfind : fat32Find fs cur (to83 comp) s with _ | ⟨_ | found, s₁⟩
      · simp [resolveLoop, takeWhile_component hcomp, hne, hfind] at h
      · rw [resolveLoop_missing hcomp hne hfind] at h
        cases h
        exact .missing hcomp hne hfind
      · by_cases hdir : found.dirent.IsDir
        · rw [resolveLoop_enter hcomp hne hfind hdir] at h
          exact .enter hcomp hne hfind hdir (ih h)
        · rw [resolveLoop_file hcomp hne hfind hdir] at h
          cases h
          exact .file hcomp hne hfind hdir

def resolveStart (path : List UInt8) : List UInt8 :=
  if path.head? = some slash then path.tail else path

theorem resolveStart_subset (path : List UInt8) : resolveStart path ⊆ path := by
  rw [resolveStart]
  split_ifs
  · exact List.tail_subset _
  · exact List.Subset.refl _

theorem fat32Resolve_start {σ : Type} (fs : Fs σ) {path : List UInt8}
    (hroot : ¬ (path = [] ∨ path = [slash])) (s : σ) :
    fat32Resolve fs path s = if 256 ≤ (resolveStart path).length then some (none, s)
      else resolveLoop fs (resolveStart path).length fs.bpb.rootCluster (resolveStart path) s :=
  if_neg hroot

theorem fat32Resolve_cases {σ : Type} {fs : Fs σ} {path : List UInt8} {s s' : σ}
    {r : Option Resolved} (h : fat32Resolve fs path s = some (r, s')) :
    (s' = s ∧ ∀ p name, r ≠ some ⟨p, some name⟩) ∨
    (path ≠ [] ∧ Resolves fs (resolveStart path).length fs.bpb.rootCluster (resolveStart path)
      s r s') := by
  by_cases hroot : path = [] ∨ path = [slash]
  · rw [fat32Resolve, if_pos hroot] at h
    cases h
    exact Or.inl ⟨rfl, by simp⟩
  · rw [fat32Resolve_start fs hroot] at h
    split_ifs at h
    · cases h
      exact Or.inl ⟨rfl, by simp⟩
    · exact Or.inr ⟨fun h0 => hroot (Or.inl h0), resolves_of_loop h⟩

section Unchanged
variable (l : Layout) {m : Mem} (test : Mem → ℕ → Verdict)

theorem walkSectors_mem (first n sec : ℕ) : (walkSectors l.ram test first n sec m).2 = m := by
  have hread : ∀ s, l.ram.dev.read s m = (some (sector m s), m) := fun _ => rfl
  induction n generalizing sec with
  | zero => rfl
  | succ n ih =>
    rw [walkSectors, hread]
    dsimp only
    split
    · rfl
    · rfl
    · exact ih (sec + 1)

theorem walkDir_mem {fuel c : ℕ} {r : Option Hit × Mem}
    (h : walkDir l.ram test fuel c m = some r) : r.2 = m := by
  induction fuel generalizing c with
  | zero => simp [walkDir] at h
  | succ fuel ih =>
    have hsec := walkSectors_mem (m := m) l test (l.firstSector c) l.bpb.sectorsPerCluster 0
    rw [walkDir] at h
    split_ifs at h
    · rw [← Option.some_inj.mp h]
    · simp only [Layout.ram_toLayout] at h
      split at h
      · next s heq =>
        rw [heq] at hsec
        rw [← Option.some_inj.mp h, ← hsec]
      · next s heq =>
        rw [heq] at hsec
        rw [← Option.some_inj.mp h, ← hsec]
      · next s heq =>
        rw [heq] at hsec
        have hs : s = m := hsec
        rw [hs, nextCluster_ram] at h
        exact ih h

theorem walkEntries_hit {test : Mem → ℕ → Verdict} {buf : Mem} {n ent e : ℕ}
    (h : walkEntries test buf n ent = .hit e) :
    e < ent + n ∧ test buf (e * dirEntrySize) = .hit := by
  induction n generalizing ent with
  | zero => simp [walkEntries] at h
  | succ n ih =>
    rw [walkEntries] at h
    split at h
    · simp at h
    · next htest =>
      obtain rfl : ent = e := by simpa using h
      exact ⟨by omega, htest⟩
    · obtain ⟨hlt, htest⟩ := ih h
      exact ⟨by omega, htest⟩

structure Hit.Passes (m : Mem) (test : Mem → ℕ → Verdict) (hit : Hit) : Prop where
  entry : hit.entry < dirEntriesPerSec
  verdict : test (BlockDevice.sector m hit.sector) (hit.entry * dirEntrySize) = .hit

variable {test}

theorem walkSectors_hit {first n sec : ℕ} {hit : Hit}
    (h : (walkSectors l.ram test first n sec m).1 = .hit hit) : hit.Passes m test := by
  have hread : ∀ s, l.ram.dev.read s m = (some (sector m s), m) := fun _ => rfl
  induction n generalizing sec with
  | zero => simp [walkSectors] at h
  | succ n ih =>
    rw [walkSectors, hread] at h
    dsimp only at h
    split at h
    · simp at h
    · next ent hent =>
      obtain rfl : _ = hit := by simpa using h
      obtain ⟨hlt, htest⟩ := walkEntries_hit hent
      exact ⟨by simpa using hlt, htest⟩
    · exact ih h

theorem walkDir_hit {fuel c : ℕ} {hit : Hit}
    (h : walkDir l.ram test fuel c m = some (some hit, m)) : hit.Passes m test := by
  induction fuel generalizing c with
  | zero => simp [walkDir] at h
  | succ fuel ih =>
    have hmem := walkSectors_mem (m := m) l test (l.firstSector c) l.bpb.sectorsPerCluster 0
    rw [walkDir] at h
    split_ifs at h
    · simp at h
    · simp only [Layout.ram_toLayout] at h
      split at h
      · simp at h
      · next hit' s heq =>
        obtain ⟨rfl, -⟩ : hit' = hit ∧ s = m := by simpa using h
        exact walkSectors_hit l (by rw [heq])
      · next s heq =>
        rw [heq] at hmem
        have hs : s = m := hmem
        rw [hs, nextCluster_ram] at h
        exact ih h

theorem fat32Find_mem {dir : ℕ} {target : List UInt8} {r : Option Found × Mem}
    (h : fat32Find l.ram dir target m = some r) : r.2 = m := by
  obtain ⟨x, hx, rfl⟩ := Option.map_eq_some_iff.mp h
  exact walkDir_mem l _ hx

variable {l} in
theorem Resolves.mem {n cur : ℕ} {start : List UInt8} {r : Option Resolved} {m' : Mem}
    (h : Resolves l.ram n cur start m r m') : m' = m := by
  induction h with
  | spent => rfl
  | nil => rfl
  | last => rfl
  | skip _ ih => exact ih
  | missing _ _ hfind => exact fat32Find_mem l hfind
  | file _ _ hfind => exact fat32Find_mem l hfind
  | enter _ _ hfind _ _ ih => exact ih.trans (fat32Find_mem l hfind)

theorem fat32Resolve_mem {path : List UInt8} {r : Option Resolved × Mem}
    (h : fat32Resolve l.ram path m = some r) : r.2 = m := by
  rcases fat32Resolve_cases h with ⟨hsame, -⟩ | ⟨-, hloop⟩
  · exact hsame
  · exact hloop.mem

end Unchanged

section Names
variable {σ : Type} {fs : Fs σ} {p : ℕ} {name : List UInt8} {s s' : σ}

theorem Resolves.to83_component {n cur : ℕ} {start : List UInt8} {r : Option Resolved}
    (h : Resolves fs n cur start s r s') (hr : r = some ⟨p, some name⟩) :
    ∃ comp, comp ≠ [] ∧ comp ⊆ start ∧ name = to83 comp := by
  induction h with
  | spent => cases hr
  | nil => cases hr
  | last _ hne =>
    cases hr
    exact ⟨_, hne, List.Subset.refl _, rfl⟩
  | skip _ ih =>
    obtain ⟨comp, hne, hsub, hname⟩ := ih hr
    exact ⟨comp, hne, fun c hc => List.mem_cons_of_mem _ (hsub hc), hname⟩
  | missing => cases hr
  | file => cases hr
  | enter _ _ _ _ _ ih =>
    obtain ⟨comp, hne, hsub, hname⟩ := ih hr
    exact ⟨comp, hne, fun c hc => by simp [hsub hc], hname⟩

theorem fat32Resolve_to83 {path : List UInt8}
    (h : fat32Resolve fs path s = some (some ⟨p, some name⟩, s')) :
    ∃ comp, comp ≠ [] ∧ comp ⊆ path ∧ name = to83 comp := by
  rcases fat32Resolve_cases h with ⟨-, hno⟩ | ⟨-, hloop⟩
  · exact absurd rfl (hno p name)
  · obtain ⟨comp, hne, hsub, hname⟩ := hloop.to83_component rfl
    exact ⟨comp, hne, fun c hc => resolveStart_subset path (hsub hc), hname⟩

theorem fat32Resolve_name {path : List UInt8}
    (h : fat32Resolve fs path s = some (some ⟨p, some name⟩, s')) : name.length = 11 := by
  obtain ⟨comp, -, -, rfl⟩ := fat32Resolve_to83 h
  exact to83_length comp

end Names

section Lookup
variable {l : Layout} {m : Mem} {d : ℕ} {cs : List ℕ}

theorem find_ram (hg : l.Geometry) (hch : Chain l m d cs) (target : List UInt8) :
    fat32Find l.ram d target m =
      some (((liveSlots m (l.dirSlots cs)).find? (nameIs m target)).map (foundAt m), m) :=
  fat32Find_ram l hch.path (end_notMem hg hch.range) (hch.length_lt hg) target

theorem find_live (hg : l.Geometry) (hd : DirCluster l m d) (hch : Chain l m d cs)
    {target : List UInt8} (htarget : target ∉ dotNames) {found : Found}
    (hfind : fat32Find l.ram d target m = some (some found, m)) :
    ∃ a, found = foundAt m a ∧ LiveEntry l m a ∧ (direntAt m a).name = target ∧
      (found.dirent.IsDir → DirCluster l m found.dirent.cluster) := by
  rw [find_ram hg hch, Option.some_inj, Prod.mk.injEq, Option.map_eq_some_iff] at hfind
  obtain ⟨⟨a, ha, rfl⟩, -⟩ := hfind
  have hlive := List.mem_of_find?_eq_some ha
  have hthis : nameIs m target a = true := List.find?_some ha
  have hname : (direntAt m a).name = target := of_decide_eq_true hthis
  have hdot : (direntAt m a).name ∉ dotNames := hname ▸ htarget
  exact ⟨a, rfl, ⟨d, cs, hd, hch, hlive, hdot⟩, hname, fun hdir => .sub hd hch hlive hdot hdir⟩

theorem find_none (hg : l.Geometry) (hch : Chain l m d cs) (target : List UInt8) :
    fat32Find l.ram d target m = some (none, m) ↔
      ∀ a ∈ liveSlots m (l.dirSlots cs), (direntAt m a).name ≠ target := by
  rw [find_ram hg hch]
  simp [nameIs]

def DirTarget (l : Layout) (m : Mem) (path : List UInt8) (r : Option Resolved) : Prop :=
  ∀ p name, r = some ⟨p, some name⟩ →
    DirCluster l m p ∧ ∃ comp ∈ path.splitOn slash, comp ⊆ path ∧ comp ≠ [] ∧ name = to83 comp

def GoodTarget (l : Layout) (m : Mem) (r : Option Resolved) : Prop :=
  ∀ p name, r = some ⟨p, some name⟩ → DirCluster l m p ∧ PlainName name

theorem DirTarget.mono {path path' : List UInt8} {r : Option Resolved} (h : DirTarget l m path r)
    (hsub : path ⊆ path' ∧ path.splitOn slash ⊆ path'.splitOn slash) : DirTarget l m path' r := by
  intro p name hr
  obtain ⟨hp, comp, hcomp, hchars, hname⟩ := h p name hr
  exact ⟨hp, comp, hsub.2 hcomp, List.Subset.trans hchars hsub.1, hname⟩

theorem DirTarget.good {path : List UInt8} {r : Option Resolved} (h : DirTarget l m path r)
    (hplain : PlainPath path) : GoodTarget l m r := by
  intro p name hr
  obtain ⟨hp, comp, hcomp, hchars, hne, rfl⟩ := h p name hr
  obtain ⟨hdot, hdotdot⟩ := hplain.no_dots comp hcomp
  exact ⟨hp, to83_plain (fun c hc => hplain.printable c (hchars hc)) hne hdot hdotdot⟩

theorem resolveLoop_dirs (hg : l.Geometry) (hdirs : ∀ d, DirCluster l m d → ∃ cs, Chain l m d cs)
    (n : ℕ) {start : List UInt8} (hcur : DirCluster l m d) (hfree : DotFree start) :
    ∃ r, resolveLoop l.ram n d start m = some (r, m) ∧ DirTarget l m start r := by
  induction n generalizing d start with
  | zero => exact ⟨_, rfl, by simp [DirTarget]⟩
  | succ n ih =>
    cases pathShape start with
    | nil => exact ⟨_, rfl, by simp [DirTarget]⟩
    | last hcomp hne =>
      refine ⟨_, resolveLoop_last hcomp hne, fun p name hr => ?_⟩
      cases hr
      refine ⟨hcur, start, ?_, List.Subset.refl _, hne, rfl⟩
      rw [splitOn_last hcomp]
      exact List.mem_singleton_self start
    | skip tail =>
      obtain ⟨r, hr, htarget⟩ := ih hcur (DotFree.rest hfree List.not_mem_nil)
      exact ⟨r, (resolveLoop_slash l.ram n d tail m).trans hr,
        htarget.mono (rest_subset List.not_mem_nil tail)⟩
    | @step comp tail hcomp hne =>
      obtain ⟨cs, hch⟩ := hdirs d hcur
      rcases hfind : fat32Find l.ram d (to83 comp) m with _ | ⟨_ | found, s⟩
      · simp [find_ram hg hch] at hfind
      · obtain rfl : s = m := fat32Find_mem l hfind
        exact ⟨none, resolveLoop_missing hcomp hne hfind, by simp [DirTarget]⟩
      · obtain rfl : s = m := fat32Find_mem l hfind
        by_cases hdir : found.dirent.IsDir
        · have hname := hfree.component (component_mem hcomp tail) (by simp) hne
          obtain ⟨a, -, -, -, htree⟩ := find_live hg hcur hch hname hfind
          obtain ⟨r, hr, htarget⟩ := ih (htree hdir) (hfree.rest hcomp)
          exact ⟨r, (resolveLoop_enter hcomp hne hfind hdir).trans hr,
            htarget.mono (rest_subset hcomp tail)⟩
        · exact ⟨none, resolveLoop_file hcomp hne hfind hdir, by simp [DirTarget]⟩

theorem resolveStart_splitOn (path : List UInt8) :
    (resolveStart path).splitOn slash ⊆ path.splitOn slash := by
  rw [resolveStart]
  split_ifs with hhead
  · obtain ⟨t, rfl⟩ := List.head?_eq_some_iff.mp hhead
    exact (rest_subset List.not_mem_nil t).2
  · exact List.Subset.refl _

theorem fat32Resolve_dirs (hg : l.Geometry)
    (hdirs : ∀ d, DirCluster l m d → ∃ cs, Chain l m d cs) {path : List UInt8}
    (hfree : DotFree path) :
    ∃ r, fat32Resolve l.ram path m = some (r, m) ∧ DirTarget l m path r := by
  by_cases hroot : path = [] ∨ path = [slash]
  · rw [fat32Resolve, if_pos hroot]
    exact ⟨_, rfl, by simp [DirTarget]⟩
  rw [fat32Resolve_start l.ram hroot]
  split_ifs
  · exact ⟨_, rfl, by simp [DirTarget]⟩
  · have hstart : DotFree (resolveStart path) :=
      ⟨fun h0 => hfree.nul (resolveStart_subset path h0),
        fun x hx => hfree.no_dots x (resolveStart_splitOn path hx)⟩
    obtain ⟨r, hr, htarget⟩ := resolveLoop_dirs hg hdirs _ .root hstart
    exact ⟨r, hr, htarget.mono ⟨resolveStart_subset path, resolveStart_splitOn path⟩⟩

theorem fat32Resolve_ram (hg : l.Geometry)
    (hdirs : ∀ d, DirCluster l m d → ∃ cs, Chain l m d cs) {path : List UInt8}
    (hplain : PlainPath path) :
    ∃ r, fat32Resolve l.ram path m = some (r, m) ∧ GoodTarget l m r := by
  obtain ⟨r, hr, htarget⟩ := fat32Resolve_dirs hg hdirs hplain.dotFree
  exact ⟨r, hr, htarget.good hplain⟩

end Lookup

end XldKernel.Fat32
