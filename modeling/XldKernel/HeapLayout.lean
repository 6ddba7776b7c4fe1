import XldKernel.HeapModel
import XldKernel.IntervalTiling
import XldKernel.LinkedPath

/-!
# The heap as a free list and a set of live blocks

`Laid h P free live` reads the memory of `h` as an abstract heap: the free list
visits the blocks `free` in this order, and the blocks of `free` and `live`
together tile the addresses `P`. Splitting, unlinking, inserting and coalescing
a block are each one change of the two lists, so that an allocator call is a
composition of these lemmas.
-/

namespace XldKernel.Kmalloc
open ByteMemory IntervalTiling LinkedPath

structure Block where
  addr : ℕ
  size : ℕ

def Block.fin (b : Block) : ℕ := b.addr + blockHeaderSize + b.size

def Block.interval (b : Block) : Interval :=
  ⟨b.addr, b.fin, by simp only [Block.fin, blockHeaderSize]; omega⟩

def Block.Apart (b c : Block) : Prop := b.fin ≤ c.addr ∨ c.fin ≤ b.addr

theorem Block.Apart.symm {b c : Block} (h : b.Apart c) : c.Apart b := Or.symm h

theorem Block.Apart.sep {b c : Block} (h : b.Apart c) :
    b.addr + blockHeaderSize ≤ c.addr ∨ c.addr + blockHeaderSize ≤ b.addr := by
  simp only [Block.Apart, Block.fin] at h
  omega

def nextOf (m : Mem) (a : ℕ) : ℕ := (header m a).next

structure Describes (m : Mem) (used : UInt8) (b : Block) : Prop where
  size : (header m b.addr).size = b.size
  used : (header m b.addr).used = used
  magic : (header m b.addr).magic = blockMagic

theorem Describes.of_header_eq {m m' : Mem} {u : UInt8} {b : Block} (h : Describes m u b)
    (heq : header m' b.addr = header m b.addr) : Describes m' u b :=
  ⟨by rw [heq]; exact h.size, by rw [heq]; exact h.used, by rw [heq]; exact h.magic⟩

structure Laid (h : Heap) (P : ℕ → Prop) (free live : List Block) : Prop where
  path : Path (nextOf h.mem) h.freeList (free.map Block.addr) 0
  free_hdr : ∀ b ∈ free, Describes h.mem 0 b
  live_hdr : ∀ b ∈ live, Describes h.mem 1 b
  tiles : Tiles ((free ++ live).map Block.interval) P
  bounded : ∀ x, P x → 0 < x ∧ x < 2 ^ 64

def lastAddr : ℕ → List Block → ℕ
  | p, [] => p
  | _, b :: bs => lastAddr b.addr bs

def headAddr : List Block → ℕ
  | [] => 0
  | b :: _ => b.addr

theorem lastAddr_snoc (p : ℕ) (bs : List Block) (b : Block) :
    lastAddr p (bs ++ [b]) = b.addr := by
  induction bs generalizing p with
  | nil => rfl
  | cons c cs ih => exact ih c.addr

theorem path_start {m : Mem} {p : ℕ} {bs : List Block}
    (h : Path (nextOf m) p (bs.map Block.addr) 0) : p = headAddr bs := by
  cases bs with
  | nil => exact h
  | cons b bs => exact h.1

section Facts
variable {h : Heap} {P : ℕ → Prop} {free live : List Block}

theorem Laid.pairwise (hl : Laid h P free live) : (free ++ live).Pairwise Block.Apart := by
  have happart := hl.tiles.apart
  rwa [List.pairwise_map] at happart

theorem Laid.room (hl : Laid h P free live) {b : Block} (hb : b ∈ free ++ live) :
    0 < b.addr ∧ b.fin ≤ 2 ^ 64 := by
  have hmem := List.mem_map_of_mem (f := Block.interval) hb
  have hpos := b.interval.pos
  have h1 := hl.bounded b.addr ((hl.tiles.cover _).mpr ⟨_, hmem, le_rfl, hpos⟩)
  have h2 := hl.bounded (b.fin - 1) ((hl.tiles.cover _).mpr ⟨_, hmem, by
    simp only [Block.interval, Interval.Has] at hpos ⊢
    omega⟩)
  have hpos' : b.addr < b.fin := hpos
  exact ⟨h1.1, by omega⟩

theorem Laid.addr_lt (hl : Laid h P free live) {b : Block} (hb : b ∈ free ++ live) :
    b.addr < 2 ^ 64 := by
  have hr := (hl.room hb).2
  have hpos : b.addr < b.fin := b.interval.pos
  omega

theorem Laid.describes (hl : Laid h P free live) {b : Block} (hb : b ∈ free ++ live) :
    ∃ u, Describes h.mem u b := by
  rcases List.mem_append.mp hb with hb | hb
  · exact ⟨0, hl.free_hdr b hb⟩
  · exact ⟨1, hl.live_hdr b hb⟩

theorem Laid.perm_live {live' : List Block} (hl : Laid h P free live) (hp : live.Perm live') :
    Laid h P free live' :=
  ⟨hl.path, hl.free_hdr, fun b hb => hl.live_hdr b (hp.mem_iff.mpr hb),
    hl.tiles.perm ((hp.append_left free).map _), hl.bounded⟩

/-- Distinct blocks have distinct addresses below `2^64`, so the list walk ends. -/
theorem Laid.length_lt (hl : Laid h P free live) : free.length < listFuel := by
  have hne : ∀ b ∈ free, b.addr ≠ 0 := fun b hb =>
    (hl.room (List.mem_append_left _ hb)).1.ne'
  have hnodup : (free.map Block.addr).Nodup := by
    have hpair := (List.pairwise_append.mp hl.pairwise).1
    refine List.pairwise_map.mpr (hpair.imp ?_)
    intro b c hbc heq
    have := hbc.sep
    simp only [blockHeaderSize] at this
    omega
  have hzero : (0 :: free.map Block.addr).Nodup := by
    refine List.nodup_cons.mpr ⟨?_, hnodup⟩
    intro hmem
    obtain ⟨b, hb, h0⟩ := List.mem_map.mp hmem
    exact hne b hb h0
  have hsub : 0 :: free.map Block.addr ⊆ List.range (2 ^ 64) := by
    intro a ha
    rw [List.mem_range]
    rcases List.mem_cons.mp ha with rfl | ha
    · norm_num
    · obtain ⟨b, hb, rfl⟩ := List.mem_map.mp ha
      exact hl.addr_lt (List.mem_append_left _ hb)
  have hlen := (hzero.subperm hsub).length_le
  simp only [List.length_cons, List.length_map, List.length_range] at hlen
  simp only [listFuel]
  omega

end Facts

theorem findFit_spec (m : Mem) (size : ℕ) {bs : List Block} {curr : ℕ}
    (hpath : Path (nextOf m) curr (bs.map Block.addr) 0)
    (hhdr : ∀ b ∈ bs, Describes m 0 b) (hpos : ∀ b ∈ bs, b.addr ≠ 0)
    (fuel prev : ℕ) (hfuel : bs.length < fuel) :
    (findFit m size fuel prev curr = some none ∧ ∀ b ∈ bs, b.size < size) ∨
    ∃ pre b post, bs = pre ++ b :: post ∧ size ≤ b.size ∧
      findFit m size fuel prev curr = some (some (lastAddr prev pre, b.addr)) := by
  induction bs generalizing curr prev fuel with
  | nil =>
    have hc : curr = 0 := hpath
    cases fuel with
    | zero => simp at hfuel
    | succ fuel => exact Or.inl ⟨by simp [findFit, hc], by simp⟩
  | cons b bs ih =>
    cases fuel with
    | zero => simp at hfuel
    | succ fuel =>
      obtain ⟨hcurr, hrest⟩ := hpath
      have hb := hhdr b List.mem_cons_self
      have hb0 := hpos b List.mem_cons_self
      subst hcurr
      by_cases hfit : size ≤ b.size
      · right
        exact ⟨[], b, bs, rfl, hfit, by simp [findFit, hb0, hb.used, hb.size, hfit, lastAddr]⟩
      · have hstep : findFit m size (fuel + 1) prev b.addr =
            findFit m size fuel b.addr (nextOf m b.addr) := by
          simp only [findFit, hb0, if_false, hb.size, hfit, and_false, nextOf]
        rw [hstep]
        have hrec := ih hrest (fun c hc => hhdr c (List.mem_cons_of_mem _ hc))
          (fun c hc => hpos c (List.mem_cons_of_mem _ hc)) fuel b.addr (by simpa using hfuel)
        rcases hrec with ⟨hnone, hall⟩ | ⟨pre, c, post, hsplit, hc, hres⟩
        · left
          refine ⟨hnone, ?_⟩
          intro c hc
          rcases List.mem_cons.mp hc with rfl | hc
          · omega
          · exact hall c hc
        · right
          exact ⟨b :: pre, c, post, by rw [hsplit]; rfl, hc, hres⟩

def below (block : ℕ) (bs : List Block) : List Block := bs.takeWhile fun b => b.addr < block

def notBelow (block : ℕ) (bs : List Block) : List Block := bs.dropWhile fun b => b.addr < block

theorem below_append_notBelow (block : ℕ) (bs : List Block) :
    below block bs ++ notBelow block bs = bs :=
  List.takeWhile_append_dropWhile

theorem findSpot_spec (m : Mem) (block : ℕ) {bs : List Block} {curr : ℕ}
    (hpath : Path (nextOf m) curr (bs.map Block.addr) 0) (hpos : ∀ b ∈ bs, b.addr ≠ 0)
    (fuel prev : ℕ) (hfuel : bs.length < fuel) :
    findSpot m block fuel prev curr =
      some (lastAddr prev (below block bs), headAddr (notBelow block bs)) := by
  induction bs generalizing curr prev fuel with
  | nil =>
    have hc : curr = 0 := hpath
    cases fuel with
    | zero => simp at hfuel
    | succ fuel => simp [findSpot, hc, below, notBelow, lastAddr, headAddr]
  | cons b bs ih =>
    cases fuel with
    | zero => simp at hfuel
    | succ fuel =>
      obtain ⟨hcurr, hrest⟩ := hpath
      have hb0 := hpos b List.mem_cons_self
      subst hcurr
      by_cases hle : block ≤ b.addr
      · simp [findSpot, hle, below, notBelow, lastAddr, headAddr]
      · have hstep : findSpot m block (fuel + 1) prev b.addr =
            findSpot m block fuel b.addr (nextOf m b.addr) := by
          simp only [findSpot, hb0, hle, or_self, if_false, nextOf]
        rw [hstep, ih hrest (fun c hc => hpos c (List.mem_cons_of_mem _ hc)) fuel b.addr
          (by simpa using hfuel)]
        simp [below, notBelow, not_le.mp hle, lastAddr]

def HeaderSep (a c : ℕ) : Prop :=
  c = a ∨ c + blockHeaderSize ≤ a ∨ a + blockHeaderSize ≤ c

theorem eq_or_apart {bs : List Block} {b c : Block} (hp : bs.Pairwise Block.Apart)
    (hb : b ∈ bs) (hc : c ∈ bs) : b = c ∨ b.Apart c := by
  have hsym : Std.Symm fun b c : Block => b = c ∨ b.Apart c :=
    ⟨fun b c h => h.imp Eq.symm Block.Apart.symm⟩
  have hself : ∀ b ∈ bs, b = b ∨ b.Apart b := fun _ _ => Or.inl rfl
  exact (hp.imp Or.inr).forall_of_forall hself hb hc

theorem headerSep_of_pairwise {bs : List Block} {b c : Block} (hp : bs.Pairwise Block.Apart)
    (hb : b ∈ bs) (hc : c ∈ bs) : HeaderSep b.addr c.addr := by
  rcases eq_or_apart hp hb hc with rfl | hap
  · exact Or.inl rfl
  · exact Or.inr hap.symm.sep

theorem headerSep_lastAddr {bs pre : List Block} {c : Block} (hp : bs.Pairwise Block.Apart)
    (hsub : pre ⊆ bs) (hc : c ∈ bs) :
    lastAddr 0 pre ≠ 0 → HeaderSep (lastAddr 0 pre) c.addr := by
  intro hne
  rcases List.eq_nil_or_concat pre with rfl | ⟨ini, p, rfl⟩
  · exact absurd rfl hne
  · rw [List.concat_eq_append] at *
    rw [lastAddr_snoc]
    exact headerSep_of_pairwise hp (hsub (by simp)) hc

theorem nextOf_setNext_self (m : Mem) {a v : ℕ} (hv : v < 2 ^ 64) :
    nextOf (setNext m a v) a = v := by
  rw [nextOf, header_setNext]
  exact Nat.mod_eq_of_lt hv

theorem nextOf_eq {m m' : Mem} {a : ℕ} (h : header m' a = header m a) :
    nextOf m' a = nextOf m a := by
  rw [nextOf, h, nextOf]

theorem setLink_describes {h : Heap} {u : UInt8} {c : Block} {prev v : ℕ}
    (hd : Describes h.mem u c) (hc : prev ≠ 0 → HeaderSep prev c.addr) :
    Describes (setLink h prev v).mem u c := by
  simp only [setLink]
  split_ifs with h0
  · exact hd
  · rcases hc h0 with heq | hsep
    · rw [← heq]
      exact ⟨by simpa using hd.size, by simpa using hd.used, by simpa using hd.magic⟩
    · exact hd.of_header_eq ((setNext_only h.mem prev v).header_eq hsep)

theorem setLink_path {h : Heap} {pre post : List Block} {x v : ℕ}
    (hpre : Path (nextOf h.mem) h.freeList (pre.map Block.addr) x)
    (hpost : Path (nextOf h.mem) v (post.map Block.addr) 0)
    (hpair : (pre ++ post).Pairwise Block.Apart) (hpos : ∀ b ∈ pre, b.addr ≠ 0)
    (hv : v < 2 ^ 64) :
    Path (nextOf (setLink h (lastAddr 0 pre) v).mem) (setLink h (lastAddr 0 pre) v).freeList
      ((pre ++ post).map Block.addr) 0 := by
  rcases List.eq_nil_or_concat pre with rfl | ⟨ini, p, rfl⟩
  · simpa [setLink, lastAddr] using hpost
  · rw [List.concat_eq_append] at *
    have hp0 : p.addr ≠ 0 := hpos p (by simp)
    obtain ⟨hini, -, hacross⟩ := List.pairwise_append.mp hpair
    have hinip := (List.pairwise_append.mp hini).2.2
    have hother : ∀ c : Block, p.Apart c →
        nextOf (setNext h.mem p.addr v) c.addr = nextOf h.mem c.addr := fun c hc =>
      nextOf_eq ((setNext_only h.mem p.addr v).header_eq hc.symm.sep)
    rw [lastAddr_snoc, setLink, if_neg hp0, List.append_assoc, List.map_append]
    rw [List.map_append, List.map_singleton, path_snoc] at hpre
    have hfront : Path (nextOf (setNext h.mem p.addr v)) h.freeList (ini.map Block.addr)
        p.addr := by
      refine hpre.1.congr ?_
      intro a ha
      obtain ⟨c, hc, rfl⟩ := List.mem_map.mp ha
      exact hother c (hinip c hc p (by simp)).symm
    have htail : Path (nextOf (setNext h.mem p.addr v)) v (post.map Block.addr) 0 := by
      refine hpost.congr ?_
      intro a ha
      obtain ⟨c, hc, rfl⟩ := List.mem_map.mp ha
      exact hother c (hacross p (by simp) c hc)
    refine hfront.join ?_
    rw [nextOf_setNext_self _ hv]
    exact htail

end XldKernel.Kmalloc
