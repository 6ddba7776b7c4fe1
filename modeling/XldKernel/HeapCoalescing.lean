import XldKernel.HeapTiling

/-!
# Coalescing

`kfree` joins a block with the neighbours it has in the free list. These are its
neighbours in memory when the list is sorted around it; `add_pool` puts a new pool in
front of the list whatever its address.
-/

namespace XldKernel.Kmalloc
open ByteMemory IntervalTiling LinkedPath GuardedRun

def freeBlocks (m : Mem) : ℕ → ℕ → List ℕ
  | 0, _ => []
  | fuel + 1, curr => if curr = 0 then [] else curr :: freeBlocks m fuel (header m curr).next

def World.freeBlocks (w : World) : List ℕ :=
  Kmalloc.freeBlocks w.heap.mem listFuel w.heap.freeList

def InsidePool (pmalloc : ℕ → ℕ) (n x : ℕ) : Prop :=
  ∃ k < n, pmalloc k < x ∧ x < pmalloc k + poolSize

instance (pmalloc : ℕ → ℕ) (n x : ℕ) : Decidable (InsidePool pmalloc n x) :=
  inferInstanceAs (Decidable (∃ k < n, _))

def World.Adjacent (pmalloc : ℕ → ℕ) (w : World) (a b : ℕ) : Prop :=
  a + blockHeaderSize + (header w.heap.mem a).size = b ∧ InsidePool pmalloc w.heap.pmallocs b

instance (pmalloc : ℕ → ℕ) (w : World) (a b : ℕ) : Decidable (w.Adjacent pmalloc a b) :=
  inferInstanceAs (Decidable (_ ∧ _))

def World.Coalesced (pmalloc : ℕ → ℕ) (w : World) : Prop :=
  ∀ a ∈ w.freeBlocks, ∀ b ∈ w.freeBlocks, ¬ w.Adjacent pmalloc a b

/-- The free neighbours in memory of the block at `ptr` are those at its place in the
free list, before the first block that is not below it. -/
def World.InPlace (pmalloc : ℕ → ℕ) (w : World) (ptr : ℕ) : Prop :=
  ∀ spot ∈ findSpot w.heap.mem (ptr - blockHeaderSize) listFuel 0 w.heap.freeList,
    ∀ a ∈ w.freeBlocks,
      (w.Adjacent pmalloc a (ptr - blockHeaderSize) → a = spot.1) ∧
      (w.Adjacent pmalloc (ptr - blockHeaderSize) a → a = spot.2)

def World.Client (w : World) : Call → Prop
  | .kmalloc _ => True
  | .kfree ptr => ptr = 0 ∨ ptr ∈ w.live
  | .store ptr i _ => ptr ∈ w.live ∧ i < (header w.heap.mem (ptr - blockHeaderSize)).size
  | _ => False

def World.KeepsCoalesced (pmalloc : ℕ → ℕ) (w : World) : Call → Prop
  | .kfree ptr => ptr = 0 ∨ w.InPlace pmalloc ptr
  | _ => True

variable {pmalloc : ℕ → ℕ} {fuel n : ℕ} {h h' : Heap} {P : ℕ → Prop} {w t : World}
  {free live pre post : List Block}

def Spaced (pmalloc : ℕ → ℕ) (n : ℕ) (free : List Block) : Prop :=
  ∀ a ∈ free, ∀ b ∈ free, a.fin = b.addr → ¬ InsidePool pmalloc n b.addr

theorem freeBlocks_eq (m : Mem) {bs : List Block} {curr : ℕ}
    (hpath : Path (nextOf m) curr (bs.map Block.addr) 0) (hpos : ∀ b ∈ bs, b.addr ≠ 0)
    (fuel : ℕ) (hfuel : bs.length < fuel) : freeBlocks m fuel curr = bs.map Block.addr := by
  induction bs generalizing curr fuel with
  | nil =>
    have hc : curr = 0 := hpath
    cases fuel with
    | zero => rfl
    | succ fuel => simp [freeBlocks, hc]
  | cons b bs ih =>
    cases fuel with
    | zero => simp at hfuel
    | succ fuel =>
      obtain ⟨rfl, hrest⟩ := hpath
      have hb0 := hpos b List.mem_cons_self
      rw [freeBlocks, if_neg hb0, List.map_cons]
      congr 1
      exact ih hrest (fun c hc => hpos c (List.mem_cons_of_mem _ hc)) fuel (by simpa using hfuel)

theorem HeapOk.freeBlocks (hl : HeapOk pmalloc w.heap free live) :
    w.freeBlocks = free.map Block.addr :=
  freeBlocks_eq _ (Laid.path hl) (fun _ hb => (Laid.room hl (List.mem_append_left _ hb)).1.ne') _
    (Laid.length_lt hl)

theorem HeapOk.adjacent_iff (hl : HeapOk pmalloc w.heap free live) {a : Block}
    (ha : a ∈ free ++ live) (b : ℕ) : w.Adjacent pmalloc a.addr b ↔
      a.fin = b ∧ InsidePool pmalloc w.heap.pmallocs b := by
  obtain ⟨u, hdesc⟩ := Laid.describes hl ha
  rw [World.Adjacent, hdesc.size, Block.fin]

theorem HeapOk.coalesced_iff (hl : HeapOk pmalloc w.heap free live) :
    w.Coalesced pmalloc ↔ Spaced pmalloc w.heap.pmallocs free := by
  rw [World.Coalesced, hl.freeBlocks]
  constructor
  · intro hno a ha b hb htouch hin
    exact hno _ (List.mem_map_of_mem ha) _ (List.mem_map_of_mem hb)
      ((hl.adjacent_iff (List.mem_append_left _ ha) _).mpr ⟨htouch, hin⟩)
  · intro hspaced a ha b hb hadj
    obtain ⟨c, hc, rfl⟩ := List.mem_map.mp ha
    obtain ⟨d, hd, rfl⟩ := List.mem_map.mp hb
    obtain ⟨htouch, hin⟩ := (hl.adjacent_iff (List.mem_append_left _ hc) _).mp hadj
    exact hspaced c hc d hd htouch hin

theorem Spaced.addPool (hspaced : Spaced pmalloc h.pmallocs free) (hl : HeapOk pmalloc h free live)
    (hnew : FreshPool pmalloc h.pmallocs) :
    Spaced pmalloc (h.pmallocs + 1) (poolBlock (pmalloc h.pmallocs) :: free) := by
  have hold : ∀ b ∈ free, Pools pmalloc h.pmallocs b.addr := fun b hb =>
    ((Laid.tiles hl).cover b.addr).mpr
      ⟨_, List.mem_map_of_mem (List.mem_append_left _ hb), le_rfl, b.interval.pos⟩
  have hfin := poolBlock_fin (pmalloc h.pmallocs)
  have haddr : (poolBlock (pmalloc h.pmallocs)).addr = pmalloc h.pmallocs := rfl
  intro a ha b hb htouch
  rintro ⟨k, hk, hlo, hhi⟩
  rcases Nat.lt_succ_iff_lt_or_eq.mp hk with hk | rfl
  · have hapart := hnew.apart k hk
    rcases List.mem_cons.mp hb with rfl | hb
    · omega
    · rcases List.mem_cons.mp ha with rfl | ha
      · omega
      · exact hspaced a ha b hb htouch ⟨k, hk, hlo, hhi⟩
  · rcases List.mem_cons.mp hb with rfl | hb
    · omega
    · obtain ⟨j, hj, hjlo, hjhi⟩ := hold b hb
      have hapart := hnew.apart j hj
      omega

theorem Spaced.take {b c : Block} {size : ℕ} {free' : List Block}
    (hspaced : Spaced pmalloc n (pre ++ b :: post))
    (hapart : ∀ a ∈ pre ++ post, a.Apart b) (h : Taken pre post b size free' c) :
    Spaced pmalloc n free' := by
  have hsub : pre ++ post ⊆ pre ++ b :: post := fun x hx => by
    rcases List.mem_append.mp hx with hx | hx <;> simp [hx]
  cases h with
  | whole => exact fun a ha e he => hspaced a (hsub ha) e (hsub he)
  | split hcut =>
    set d : Block := ⟨b.addr + blockHeaderSize + size, b.size - size - blockHeaderSize⟩ with hd
    have hfin : d.fin = b.fin := by
      simp only [hd, Block.fin]
      omega
    have hlow : b.addr < d.addr ∧ d.addr < b.fin := by
      simp only [hd, Block.fin, blockHeaderSize] at *
      omega
    have hmem : ∀ a ∈ pre ++ d :: post, a = d ∨ a ∈ pre ++ post := fun a ha => by
      simp only [List.mem_append, List.mem_cons] at ha ⊢
      tauto
    intro a ha e he htouch
    rcases hmem e he with rfl | he
    · -- the new boundary lies inside the block that was split
      rcases hmem a ha with rfl | ha
      · omega
      · have hab := hapart a ha
        have hpos := a.interval.pos
        simp only [Block.Apart, Block.interval] at hab hpos
        omega
    · rcases hmem a ha with rfl | ha
      · exact hspaced b (by simp) e (hsub he) (hfin.symm.trans htouch)
      · exact hspaced a (hsub ha) e (hsub he) htouch

theorem HeapOk.kmalloc_spaced {size ptr : ℕ} (hl : HeapOk pmalloc h free live)
    (hspaced : Spaced pmalloc h.pmallocs free)
    (hres : Kmalloc.kmalloc pmalloc fuel size h = some (ptr, h'))
    (hfresh : ∀ k < h'.pmallocs, FreshPool pmalloc k) :
    ∃ free' live', HeapOk pmalloc h' free' live' ∧ Spaced pmalloc h'.pmallocs free' := by
  have hpool : ∀ g free, HeapOk pmalloc g free live → FreshPool pmalloc g.pmallocs →
      Spaced pmalloc g.pmallocs free → Spaced pmalloc (Kmalloc.addPool pmalloc g).pmallocs
        (poolBlock (pmalloc g.pmallocs) :: free) := by
    intro g free hok hnew hsp
    rw [addPool_pmallocs]
    exact hsp.addPool hok hnew
  rcases hl.kmalloc_cases hspaced hpool hres hfresh with
    ⟨-, -, rfl⟩ | ⟨g, pre, b, post, hok, hsp, -, hsize, -, rfl⟩
  · exact ⟨free, live, hl, hspaced⟩
  · obtain ⟨free', c, htaken, hl'⟩ := Laid.take hok hsize
    refine ⟨free', c :: live, ?_, ?_⟩
    · rw [HeapOk, takeBlock_pmallocs]
      exact hl'
    · rw [takeBlock_pmallocs]
      refine hsp.take (fun a ha => ?_) htaken
      have hperm : (pre ++ b :: post).Perm (b :: (pre ++ post)) := List.perm_middle
      have hpair := (hperm.pairwise_iff fun h => Block.Apart.symm h).mp
        (List.pairwise_append.mp (Laid.pairwise hok)).1
      exact ((List.pairwise_cons.mp hpair).1 a ha).symm

theorem eq_of_fin_eq {bs : List Block} (hp : bs.Pairwise Block.Apart) {a b : Block} (ha : a ∈ bs)
    (hb : b ∈ bs) (h : a.fin = b.fin) : a = b := by
  refine (eq_or_apart hp ha hb).resolve_right fun hap => ?_
  have hapos : a.addr < a.fin := a.interval.pos
  have hbpos : b.addr < b.fin := b.interval.pos
  simp only [Block.Apart] at hap
  omega

theorem eq_of_addr_eq {bs : List Block} (hp : bs.Pairwise Block.Apart) {a b : Block} (ha : a ∈ bs)
    (hb : b ∈ bs) (h : a.addr = b.addr) : a = b := by
  refine (eq_or_apart hp ha hb).resolve_right fun hap => ?_
  have hapos : a.addr < a.fin := a.interval.pos
  have hbpos : b.addr < b.fin := b.interval.pos
  simp only [Block.Apart] at hap
  omega

/-- Freeing `b` leaves a block `d` whose ends are those of `b` or of the list neighbours it
was joined with, and the blocks that were not joined. -/
structure Released (b : Block) (pre post free' : List Block) (d : Block) : Prop where
  mem : d ∈ free'
  others : ∀ a ∈ free', a = d ∨ a ∈ pre ++ post
  kept : ∀ a ∈ pre ++ post, a ∈ free' ∨ a ∈ pre.getLast? ∧ a.fin = b.addr ∨
    a ∈ post.head? ∧ b.fin = a.addr
  start : (d.addr = b.addr ∧ ∀ p ∈ pre.getLast?, p.fin ≠ b.addr) ∨
    ∃ p ∈ pre.getLast?, p.fin = b.addr ∧ d.addr = p.addr
  stop : (d.fin = b.fin ∧ ∀ x ∈ post.head?, b.fin ≠ x.addr) ∨
    ∃ x ∈ post.head?, b.fin = x.addr ∧ d.fin = x.fin

theorem Freed.released {b : Block} {free' : List Block} (h : Freed b pre post free') :
    ∃ d, Released b pre post free' d := by
  obtain ⟨c, post', pre', d, hnext, hback, rfl⟩ := h
  have haddr := hnext.addr_eq
  have hfin : d.fin = c.fin := by
    cases hback with
    | apart => rfl
    | merged h =>
      simp only [Block.fin] at h ⊢
      omega
  refine ⟨d, by simp, fun a ha => ?_, fun a ha => ?_, ?_, ?_⟩
  · have hsub : a ∈ pre' ++ post' → a ∈ pre ++ post := by
      cases hback <;> cases hnext <;> simp <;> tauto
    simp only [List.mem_append, List.mem_cons] at ha hsub ⊢
    tauto
  · rw [← haddr]
    cases hback <;> cases hnext <;> simp at ha ⊢ <;> grind
  · rw [← haddr]
    cases hback with
    | apart h => exact Or.inl ⟨rfl, h⟩
    | merged h => exact Or.inr ⟨_, by simp, h, rfl⟩
  · rw [hfin]
    cases hnext with
    | apart h => exact Or.inl ⟨rfl, h⟩
    | merged h =>
      refine Or.inr ⟨_, by simp, h, ?_⟩
      simp only [Block.fin] at h ⊢
      omega

def Around (pmalloc : ℕ → ℕ) (n : ℕ) (b : Block) (pre post : List Block) : Prop :=
  ∀ a ∈ pre ++ post,
    (a.fin = b.addr → InsidePool pmalloc n b.addr → a ∈ pre.getLast?) ∧
    (b.fin = a.addr → InsidePool pmalloc n a.addr → a ∈ post.head?)

theorem Released.spaced {b d : Block} {free' : List Block} (h : Released b pre post free' d)
    (hspaced : Spaced pmalloc n (pre ++ post)) (haround : Around pmalloc n b pre post) :
    Spaced pmalloc n free' := by
  intro a ha e he htouch hin
  rcases h.others a ha with rfl | ha <;> rcases h.others e he with rfl | he
  · have hpos : e.addr < e.fin := e.interval.pos
    omega
  · rcases h.stop with ⟨hfin, hno⟩ | ⟨x, hx, -, hfin⟩
    · exact hno e ((haround e he).2 (hfin.symm.trans htouch) hin) (hfin.symm.trans htouch)
    · exact hspaced x (List.mem_append_right _ (List.mem_of_mem_head? hx)) e he
        (hfin.symm.trans htouch) hin
  · rcases h.start with ⟨haddr, hno⟩ | ⟨p, hp, -, haddr⟩
    · rw [haddr] at htouch hin
      exact hno a ((haround a ha).1 htouch hin) htouch
    · rw [haddr] at htouch hin
      exact hspaced a ha p (List.mem_append_left _ (List.mem_of_getLast? hp)) htouch hin
  · exact hspaced a ha e he htouch hin

theorem Released.around {b d : Block} {free' : List Block} (h : Released b pre post free' d)
    (hpair : (pre ++ post).Pairwise Block.Apart) (hspaced : Spaced pmalloc n free') :
    Around pmalloc n b pre post := by
  have hb : b.addr < b.fin := b.interval.pos
  intro a ha
  have hapos : a.addr < a.fin := a.interval.pos
  constructor
  · intro htouch hin
    rcases h.kept a ha with hfree | ⟨hlast, -⟩ | ⟨-, hnext⟩
    · rcases h.start with ⟨haddr, -⟩ | ⟨p, hp, hpfin, -⟩
      · rw [← haddr] at htouch hin
        exact absurd hin (hspaced a hfree d h.mem htouch)
      · have hpmem := List.mem_append_left post (List.mem_of_getLast? hp)
        rwa [eq_of_fin_eq hpair ha hpmem (htouch.trans hpfin.symm)]
    · exact hlast
    · omega
  · intro htouch hin
    rcases h.kept a ha with hfree | ⟨-, hprev⟩ | ⟨hhead, -⟩
    · rcases h.stop with ⟨hfin, -⟩ | ⟨x, hx, hxaddr, -⟩
      · exact absurd hin (hspaced d h.mem a hfree (hfin.trans htouch))
      · have hxmem := List.mem_append_right pre (List.mem_of_mem_head? hx)
        rwa [eq_of_addr_eq hpair ha hxmem (htouch.symm.trans hxaddr)]
    · omega
    · exact hhead

theorem mem_getLast_iff (hpair : (pre ++ post).Pairwise Block.Apart) {a : Block}
    (ha : a ∈ pre ++ post) (hne : a.addr ≠ 0) : a ∈ pre.getLast? ↔ a.addr = lastAddr 0 pre := by
  rcases List.eq_nil_or_concat pre with rfl | ⟨ini, p, rfl⟩
  · simpa [lastAddr] using hne
  · rw [List.concat_eq_append] at *
    rw [lastAddr_snoc, List.getLast?_concat, Option.mem_some_iff]
    constructor
    · rintro rfl
      rfl
    · exact fun h => (eq_of_addr_eq hpair ha (by simp) h).symm

theorem mem_head_iff (hpair : (pre ++ post).Pairwise Block.Apart) {a : Block}
    (ha : a ∈ pre ++ post) (hne : a.addr ≠ 0) : a ∈ post.head? ↔ a.addr = headAddr post := by
  cases post with
  | nil => simpa [headAddr] using hne
  | cons x post =>
    rw [List.head?_cons, Option.mem_some_iff, headAddr]
    constructor
    · rintro rfl
      rfl
    · exact fun h => (eq_of_addr_eq hpair ha (by simp) h).symm

theorem HeapOk.inPlace_iff {b : Block} (hl : HeapOk pmalloc w.heap free (b :: live)) :
    w.InPlace pmalloc b.payload ↔
      Around pmalloc w.heap.pmallocs b (below b.addr free) (notBelow b.addr free) := by
  have hpos : ∀ a ∈ free, a.addr ≠ 0 := fun a ha => (Laid.room hl (by simp [ha])).1.ne'
  have hpair : free.Pairwise Block.Apart := (List.pairwise_append.mp (Laid.pairwise hl)).1
  have hspot := findSpot_spec _ b.addr (Laid.path hl) hpos listFuel 0 (Laid.length_lt hl)
  rw [World.InPlace, b.payload_sub, hspot, hl.freeBlocks, Around]
  simp only [Option.mem_some_iff, forall_eq', List.forall_mem_map]
  rw [← below_append_notBelow b.addr free] at hpair
  rw [below_append_notBelow b.addr free]
  refine forall₂_congr fun a ha => ?_
  have hmem : a ∈ below b.addr free ++ notBelow b.addr free := by rwa [below_append_notBelow]
  rw [hl.adjacent_iff (by simp [ha]), hl.adjacent_iff (by simp), and_imp, and_imp,
    mem_getLast_iff hpair hmem (hpos a ha), mem_head_iff hpair hmem (hpos a ha)]

structure World.Tidy (pmalloc : ℕ → ℕ) (w : World) : Prop where
  good : w.Good pmalloc
  coalesced : w.Coalesced pmalloc

theorem World.start_tidy (m : Mem)
    (hfresh : ∀ k < (World.start pmalloc m).heap.pmallocs, FreshPool pmalloc k) :
    (World.start pmalloc m).Tidy pmalloc := by
  refine ⟨World.start_good m hfresh, ?_⟩
  rw [World.start_pmallocs] at hfresh
  have hpool : ∀ g free, HeapOk pmalloc g free [] → FreshPool pmalloc g.pmallocs →
      Spaced pmalloc g.pmallocs free → Spaced pmalloc (Kmalloc.addPool pmalloc g).pmallocs
        (poolBlock (pmalloc g.pmallocs) :: free) := by
    intro g free hok hnew hsp
    rw [addPool_pmallocs]
    exact hsp.addPool hok hnew
  have hnone : Spaced pmalloc (bootHeap m).pmallocs [] := by simp [Spaced]
  obtain ⟨free, hl, hspaced⟩ := (bootHeap_ok pmalloc m).pools hnone hpool hfresh
  have hok : HeapOk pmalloc (World.start pmalloc m).heap free [] := hl
  exact hok.coalesced_iff.mpr hspaced

theorem World.Tidy.kmalloc (hw : w.Tidy pmalloc) {size : ℕ}
    (hcall : w.call pmalloc fuel (.kmalloc size) = some t)
    (hfresh : ∀ k < t.heap.pmallocs, FreshPool pmalloc k) : t.Tidy pmalloc := by
  refine ⟨World.GoodIn.kmalloc (supplies_pools hfresh) hw.good hcall, ?_⟩
  obtain ⟨free, live, hl, -⟩ := hw.good
  obtain ⟨⟨ptr, h⟩, hres, rfl⟩ := Option.map_eq_some_iff.mp hcall
  obtain ⟨free', live', hok, hspaced⟩ :=
    hl.kmalloc_spaced (hl.coalesced_iff.mp hw.coalesced) hres hfresh
  exact HeapOk.coalesced_iff (w := World.handOut w.live (ptr, h)) hok |>.mpr hspaced

/-- Releasing a live block keeps the blocks of each pool joined just if its free neighbours
are at its place in the list. -/
theorem World.Tidy.kfree_iff (hw : w.Tidy pmalloc) {ptr : ℕ} (hptr : ptr ∈ w.live)
    (hcall : w.call pmalloc fuel (.kfree ptr) = some t) :
    t.Coalesced pmalloc ↔ w.InPlace pmalloc ptr := by
  obtain ⟨free, b, rest, rfl, hl, -, -⟩ := hw.good.focus hptr
  have hspaced := hl.coalesced_iff.mp hw.coalesced
  obtain ⟨h', free', hkfree, hok, hfreed⟩ := hl.kfree
  have hcount := kfree_pmallocs hkfree
  rw [World.call, hkfree, Option.map_some, Option.some.injEq] at hcall
  subst hcall
  obtain ⟨d, hreleased⟩ := hfreed.released
  have hpair : free.Pairwise Block.Apart := (List.pairwise_append.mp (Laid.pairwise hl)).1
  rw [← below_append_notBelow b.addr free] at hspaced hpair
  rw [HeapOk.coalesced_iff hok, hl.inPlace_iff]
  dsimp only
  rw [hcount]
  exact ⟨fun h => hreleased.around hpair h, fun h => hreleased.spaced hspaced h⟩

theorem World.Tidy.store (hw : w.Tidy pmalloc) {ptr i : ℕ} {v : UInt8}
    (hc : w.Client (.store ptr i v)) (hcall : w.call pmalloc fuel (.store ptr i v) = some t) :
    t.Tidy pmalloc := by
  obtain ⟨hptr, hi⟩ := hc
  obtain ⟨free, b, rest, rfl, hl, -, hlive⟩ := hw.good.focus hptr
  have hspaced := hl.coalesced_iff.mp hw.coalesced
  rw [b.payload_sub, (Laid.live_hdr hl b (by simp)).size] at hi
  rw [World.call, Option.some.injEq] at hcall
  subst hcall
  have hok := hl.payload (b := b) (Function.update w.heap.mem (b.payload + i) v) (by simp) (by
    intro x hx
    apply Function.update_of_ne
    have hend : b.fin = b.payload + b.size := rfl
    omega)
  exact ⟨⟨free, b :: rest, hok, hlive⟩, (HeapOk.coalesced_iff hok).mpr hspaced⟩

theorem World.Tidy.kfree (hw : w.Tidy pmalloc) {ptr : ℕ} (hptr : w.Client (.kfree ptr))
    (hkeep : w.KeepsCoalesced pmalloc (.kfree ptr))
    (hcall : w.call pmalloc fuel (.kfree ptr) = some t) : t.Tidy pmalloc := by
  obtain ⟨t', ht', hgood⟩ := World.GoodIn.kfree pmalloc fuel hw.good hptr
  obtain rfl : t' = t := Option.some_inj.mp (ht'.symm.trans hcall)
  refine ⟨hgood, ?_⟩
  by_cases h0 : ptr = 0
  · subst h0
    have herase : w.live.erase 0 = w.live :=
      List.erase_of_not_mem (World.GoodIn.zero_notMem hw.good)
    rw [World.call, Kmalloc.kfree, if_pos rfl, Option.map_some, herase, Option.some.injEq] at hcall
    exact hcall ▸ hw.coalesced
  · exact (hw.kfree_iff (hptr.resolve_left h0) hcall).mpr (hkeep.resolve_left h0)

/-- The free blocks of every pool stay joined over every run in which the free neighbours
of a released block are at its place in the list, and no longer after a release in which
they are not. -/
theorem coalescing_complete (pmalloc : ℕ → ℕ) (fuel : ℕ) (m : Mem) (calls : List Call) (w : World)
    (hok : Allowed (World.call pmalloc fuel)
      (fun w c => w.Client c ∧ w.KeepsCoalesced pmalloc c) (World.start pmalloc m) calls)
    (hrun : run (World.call pmalloc fuel) (World.start pmalloc m) calls = some w)
    (hfresh : ∀ k < w.heap.pmallocs, FreshPool pmalloc k) :
    w.Coalesced pmalloc ∧ ∀ ptr ∈ w.live, ∀ t, w.call pmalloc fuel (.kfree ptr) = some t →
      (t.Coalesced pmalloc ↔ w.InPlace pmalloc ptr) := by
  have hstep : ∀ (s : World) (c : Call) (t : World), s.Tidy pmalloc →
      s.Client c ∧ s.KeepsCoalesced pmalloc c → s.call pmalloc fuel c = some t →
      (∀ k < t.heap.pmallocs, FreshPool pmalloc k) → t.Tidy pmalloc := by
    intro s c t hs hc hcall ht
    cases c with
    | kmalloc size => exact hs.kmalloc hcall ht
    | kcalloc nmemb size => exact hc.1.elim
    | krealloc ptr size => exact hc.1.elim
    | kfree ptr => exact hs.kfree hc.1 hc.2 hcall
    | store ptr i v => exact hs.store hc.1 hcall
  have htidy : w.Tidy pmalloc := run_fresh (World.start_tidy m) hstep hok hrun hfresh
  exact ⟨htidy.coalesced, fun ptr hptr t hcall => htidy.kfree_iff hptr hcall⟩

instance (pmalloc : ℕ → ℕ) (w : World) (ptr : ℕ) : Decidable (w.InPlace pmalloc ptr) :=
  inferInstanceAs (Decidable (∀ spot ∈ findSpot _ _ _ _ _, _))

instance (w : World) : ∀ c, Decidable (w.Client c)
  | .kmalloc _ => isTrue trivial
  | .kcalloc _ _ => isFalse id
  | .krealloc _ _ => isFalse id
  | .kfree _ => inferInstanceAs (Decidable (_ ∨ _))
  | .store _ _ _ => inferInstanceAs (Decidable (_ ∧ _))

instance (pmalloc : ℕ → ℕ) (w : World) : ∀ c, Decidable (w.KeepsCoalesced pmalloc c)
  | .kmalloc _ | .kcalloc _ _ | .krealloc _ _ | .store _ _ _ => isTrue trivial
  | .kfree _ => inferInstanceAs (Decidable (_ ∨ _))

instance (pmalloc : ℕ → ℕ) (w : World) : Decidable (w.Coalesced pmalloc) :=
  inferInstanceAs (Decidable (∀ a ∈ w.freeBlocks, _))

theorem coalescing_complete_small : ∃ w, run (World.call linearPages 2)
    (World.start linearPages fun _ => 0)
      [.kmalloc 100, .kmalloc 100, .kfree 65560, .kfree 65696] = some w ∧
    w.Coalesced linearPages := by
  have hend : (run (World.call linearPages 2) (World.start linearPages fun _ => 0)
      [.kmalloc 100, .kmalloc 100, .kfree 65560, .kfree 65696]).map (fun w => w.heap.pmallocs) =
        some 4 := by decide +kernel
  obtain ⟨w, hw, hcount⟩ := Option.map_eq_some_iff.mp hend
  exact ⟨w, hw, (coalescing_complete linearPages 2 (fun _ => 0) _ w (by decide +kernel) hw
    fun k hk => linearPages_fresh (by omega)).1⟩

/-- The block of the third pool is put in front of the rest of the fourth, which keeps it
apart from the rest of its own pool. -/
theorem neighbours_left_apart :
    Allowed (World.call linearPages 2) World.Client (World.start linearPages fun _ => 0)
      [.kmalloc 16000, .kmalloc 1000, .kfree 49176] ∧
    (∀ k < 4, FreshPool linearPages k) ∧
    ∃ w, run (World.call linearPages 2) (World.start linearPages fun _ => 0)
        [.kmalloc 16000, .kmalloc 1000, .kfree 49176] = some w ∧
      w.heap.pmallocs = 4 ∧ ¬ w.Coalesced linearPages := by
  refine ⟨by decide +kernel, fun k hk => linearPages_fresh (by omega), ?_⟩
  have hend : (run (World.call linearPages 2) (World.start linearPages fun _ => 0)
      [.kmalloc 16000, .kmalloc 1000, .kfree 49176]).map
        (fun w => (w.heap.pmallocs, decide (w.Coalesced linearPages))) = some (4, false) := by
    decide +kernel
  obtain ⟨w, hw, hvals⟩ := Option.map_eq_some_iff.mp hend
  obtain ⟨hcount, hno⟩ := Prod.mk.inj hvals
  exact ⟨w, hw, hcount, of_decide_eq_false hno⟩

end XldKernel.Kmalloc
