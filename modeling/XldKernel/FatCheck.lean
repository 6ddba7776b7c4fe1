import XldKernel.FatVolume

/-!
# FAT32: checking a volume by computation

A catalogue lists the directories and the start clusters of a volume with their
chains. Whether it is complete and consistent can be evaluated, and a volume
with such a catalogue is well formed.
-/

namespace XldKernel.Fat32
open ByteMemory BlockDevice LinkedPath

variable {l : Layout} {m : Mem} {files : Files}

instance (c : ℕ) (cs : List ℕ) : Decidable (Chain l m c cs) :=
  decidable_of_iff (Path (l.next m) c cs endOfChain ∧ cs ≠ [] ∧ (∀ x ∈ cs, l.InVolume x) ∧
      (∀ x ∈ cs, l.entry m x ≠ fat32BadCluster) ∧ cs.Nodup)
    ⟨fun ⟨h1, h2, h3, h4, h5⟩ => ⟨h1, h2, h3, h4, h5⟩,
      fun h => ⟨h.path, h.nonempty, h.range, h.good, h.nodup⟩⟩

structure Catalogue where
  dirs : List (ℕ × List ℕ)
  heads : List (ℕ × List ℕ)

namespace Catalogue

def entries (l : Layout) (m : Mem) (k : Catalogue) : List ℕ :=
  (k.dirs.flatMap fun p => liveSlots m (l.dirSlots p.2)).filter fun a =>
    (direntAt m a).name ∉ dotNames

structure Checks (l : Layout) (m : Mem) (files : Files) (k : Catalogue) : Prop where
  root : l.bpb.rootCluster ∈ k.dirs.map Prod.fst
  dirs : ∀ p ∈ k.dirs, p ∈ k.heads
  chains : ∀ p ∈ k.heads, Chain l m p.1 p.2
  apart : ∀ p ∈ k.heads, ∀ q ∈ k.heads, p.1 ≠ q.1 → ∀ x ∈ p.2, x ∉ q.2
  closed : ∀ a ∈ k.entries l m, (direntAt m a).IsDir →
    (direntAt m a).cluster ∈ k.dirs.map Prod.fst
  starts : ∀ a ∈ k.entries l m, 2 ≤ (direntAt m a).cluster →
    (direntAt m a).cluster ∈ k.heads.map Prod.fst
  handles : ∀ i, (files i).used = true → (files i).firstCluster ≠ 0 →
    (files i).firstCluster ∈ k.heads.map Prod.fst
  ends : ∀ p ∈ k.dirs, ∀ a ∈ (l.dirSlots p.2).dropWhile fun a => m a ≠ 0, m a = 0

instance (k : Catalogue) : Decidable (k.Checks l m files) :=
  decidable_of_iff (l.bpb.rootCluster ∈ k.dirs.map Prod.fst ∧ (∀ p ∈ k.dirs, p ∈ k.heads) ∧
      (∀ p ∈ k.heads, Chain l m p.1 p.2) ∧
      (∀ p ∈ k.heads, ∀ q ∈ k.heads, p.1 ≠ q.1 → ∀ x ∈ p.2, x ∉ q.2) ∧
      (∀ a ∈ k.entries l m, (direntAt m a).IsDir → (direntAt m a).cluster ∈ k.dirs.map Prod.fst) ∧
      (∀ a ∈ k.entries l m, 2 ≤ (direntAt m a).cluster →
        (direntAt m a).cluster ∈ k.heads.map Prod.fst) ∧
      (∀ i, (files i).used = true → (files i).firstCluster ≠ 0 →
        (files i).firstCluster ∈ k.heads.map Prod.fst) ∧
      (∀ p ∈ k.dirs, ∀ a ∈ (l.dirSlots p.2).dropWhile fun a => m a ≠ 0, m a = 0))
    ⟨fun ⟨h1, h2, h3, h4, h5, h6, h7, h8⟩ => ⟨h1, h2, h3, h4, h5, h6, h7, h8⟩,
      fun h => ⟨h.root, h.dirs, h.chains, h.apart, h.closed, h.starts, h.handles, h.ends⟩⟩

end Catalogue

namespace Catalogue.Checks
variable {k : Catalogue} (hg : l.Geometry) (h : k.Checks l m files)
include hg h

omit hg in
theorem mem_heads {c : ℕ} (hc : c ∈ k.dirs.map Prod.fst) : c ∈ k.heads.map Prod.fst := by
  obtain ⟨p, hp, rfl⟩ := List.mem_map.mp hc
  exact List.mem_map_of_mem (h.dirs p hp)

omit hg in
theorem chain_of {c : ℕ} (hc : c ∈ k.heads.map Prod.fst) :
    ∃ cs, (c, cs) ∈ k.heads ∧ Chain l m c cs := by
  obtain ⟨p, hp, rfl⟩ := List.mem_map.mp hc
  exact ⟨p.2, hp, h.chains p hp⟩

theorem mem_entries {d a : ℕ} {cs : List ℕ} (hd : d ∈ k.dirs.map Prod.fst) (hch : Chain l m d cs)
    (ha : a ∈ liveSlots m (l.dirSlots cs)) (hname : (direntAt m a).name ∉ dotNames) :
    a ∈ k.entries l m := by
  obtain ⟨p, hp, rfl⟩ := List.mem_map.mp hd
  obtain rfl := hch.unique hg (h.chains p (h.dirs p hp))
  exact List.mem_filter.mpr ⟨List.mem_flatMap.mpr ⟨p, hp, ha⟩, decide_eq_true hname⟩

theorem dir_mem {d : ℕ} (hd : DirCluster l m d) : d ∈ k.dirs.map Prod.fst := by
  induction hd with
  | root => exact h.root
  | sub _ hch ha hname hdir ih => exact h.closed _ (h.mem_entries hg ih hch ha hname) hdir

theorem liveEntry_mem {a : ℕ} (ha : LiveEntry l m a) : a ∈ k.entries l m := by
  obtain ⟨d, cs, hd, hch, hlive, hname⟩ := ha
  exact h.mem_entries hg (h.dir_mem hg hd) hch hlive hname

theorem head_mem {c : ℕ} (hc : Head l m files c) : c ∈ k.heads.map Prod.fst := by
  cases hc with
  | root => exact h.mem_heads h.root
  | entry ha h2 => exact h.starts _ (h.liveEntry_mem hg ha) h2
  | handle i hused hne => exact h.handles i hused hne

theorem wellFormed : WellFormed l m files := by
  refine ⟨?_, ?_, ?_⟩
  · intro a ha hdir
    obtain ⟨cs, -, hch⟩ := h.chain_of (h.mem_heads (h.closed a (h.liveEntry_mem hg ha) hdir))
    exact hch.start.1
  · intro c hc
    obtain ⟨cs, -, hch⟩ := h.chain_of (h.head_mem hg hc)
    exact ⟨cs, hch⟩
  · intro c d cs ds hc hd hne hcs hds x hx hx'
    obtain ⟨es, hes, hes'⟩ := h.chain_of (h.head_mem hg hc)
    obtain ⟨fs, hfs, hfs'⟩ := h.chain_of (h.head_mem hg hd)
    rw [hcs.unique hg hes'] at hx
    rw [hds.unique hg hfs'] at hx'
    exact h.apart _ hes _ hfs hne x hx hx'

theorem endsClean : EndsClean l m := by
  intro d cs pre a post hd hch hsplit h0 b hb
  obtain ⟨p, hp, rfl⟩ := List.mem_map.mp (h.dir_mem hg hd)
  obtain rfl := hch.unique hg (h.chains p (h.dirs p hp))
  apply h.ends p hp
  rw [hsplit]
  clear hsplit
  induction pre with
  | nil => simp [h0, hb]
  | cons x pre ih =>
    rw [List.cons_append, List.dropWhile_cons]
    split_ifs
    · exact ih
    · simp [hb]

end Catalogue.Checks

def tinyLayout : Layout := ⟨⟨512, 1, 1, 1, 1, 2⟩, 1, 2, 512⟩

theorem tinyLayout_geometry : tinyLayout.Geometry :=
  ⟨rfl, by decide, by decide, by decide, rfl, by decide, by decide⟩

/-- A disk of this layout with nothing but an empty root directory. -/
def tinyDisk : Mem := tinyLayout.claim (fun _ => 0) 0 2

def noFiles : Files := fun _ => ⟨false, .read, 0, 0, 0, 0, 0⟩

example : (⟨[(2, [2])], [(2, [2])]⟩ : Catalogue).Checks tinyLayout tinyDisk noFiles := by
  decide +kernel

end XldKernel.Fat32
