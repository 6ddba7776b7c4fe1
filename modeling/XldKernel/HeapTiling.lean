import XldKernel.HeapCalls
import XldKernel.GuardedRun

/-!
# Heap tiling over runs of allocator calls

The world is the heap together with the pointers its clients hold. Besides the
calls of `kernel/src/kmalloc.h` a client may store into the payload of a pointer
it holds.
-/

namespace XldKernel.Kmalloc
open ByteMemory IntervalTiling LinkedPath GuardedRun

structure World where
  heap : Heap
  live : List ℕ

inductive Call where
  | kmalloc (size : ℕ)
  | kcalloc (nmemb size : ℕ)
  | krealloc (ptr size : ℕ)
  | kfree (ptr : ℕ)
  | store (ptr i : ℕ) (v : UInt8)

def World.handOut (live : List ℕ) : ℕ × Heap → World
  | (ptr, h) => ⟨h, if ptr = 0 then live else ptr :: live⟩

def World.call (pmalloc : ℕ → ℕ) (fuel : ℕ) (w : World) : Call → Option World
  | .kmalloc size => (Kmalloc.kmalloc pmalloc fuel size w.heap).map (World.handOut w.live)
  | .kcalloc nmemb size =>
    (Kmalloc.kcalloc pmalloc fuel nmemb size w.heap).map (World.handOut w.live)
  | .krealloc ptr size =>
    (Kmalloc.krealloc pmalloc fuel ptr size w.heap).map fun (q, h) =>
      -- a failed `krealloc` leaves the old pointer with the caller
      if size ≠ 0 ∧ q = 0 then ⟨h, w.live⟩ else World.handOut (w.live.erase ptr) (q, h)
  | .kfree ptr => (Kmalloc.kfree ptr w.heap).map fun h => ⟨h, w.live.erase ptr⟩
  | .store ptr i v =>
    some { w with heap := { w.heap with mem := Function.update w.heap.mem (ptr + i) v } }

def World.Permitted (w : World) : Call → Prop
  | .kmalloc size => size ≤ 16352
  | .kcalloc nmemb size => nmemb * size % 2 ^ 64 ≤ 16352
  | .krealloc ptr size => (ptr = 0 ∨ ptr ∈ w.live) ∧ size ≤ 16352
  | .kfree ptr => ptr = 0 ∨ ptr ∈ w.live
  | .store ptr i _ => ptr ∈ w.live ∧ i < (header w.heap.mem (ptr - blockHeaderSize)).size

def bootHeap (m : Mem) : Heap := ⟨m, 0, 0, 0, 0⟩

def World.start (pmalloc : ℕ → ℕ) (m : Mem) : World := ⟨kmallocInit pmalloc (bootHeap m), []⟩

def World.headers (w : World) (free : List ℕ) : List ℕ :=
  free ++ w.live.map (· - blockHeaderSize)

def InBlock (m : Mem) (a x : ℕ) : Prop :=
  a ≤ x ∧ x < a + blockHeaderSize + (header m a).size

structure World.Tiled (pmalloc : ℕ → ℕ) (w : World) (free : List ℕ) : Prop where
  path : Path (fun a => (header w.heap.mem a).next) w.heap.freeList free 0
  nodup : free.Nodup
  free_blocks : ∀ a ∈ free, (header w.heap.mem a).used = 0 ∧
    (header w.heap.mem a).magic = blockMagic
  live_blocks : ∀ p ∈ w.live, (header w.heap.mem (p - blockHeaderSize)).used = 1
  apart : (w.headers free).Pairwise fun a b =>
    ∀ x, InBlock w.heap.mem a x → ¬ InBlock w.heap.mem b x
  cover : ∀ x, (∃ a ∈ w.headers free, InBlock w.heap.mem a x) ↔ Pools pmalloc w.heap.pmallocs x

def World.Good (pmalloc : ℕ → ℕ) (w : World) : Prop :=
  ∃ free live, HeapOk pmalloc w.heap free live ∧ w.live.Perm (live.map Block.payload)

def World.GoodIn (P : ℕ → ℕ → Prop) (w : World) : Prop :=
  ∃ free live, Laid w.heap (P w.heap.pmallocs) free live ∧ w.live.Perm (live.map Block.payload)

variable {pmalloc : ℕ → ℕ} {P : ℕ → ℕ → Prop} {fuel : ℕ} {w t : World}

theorem Block.payload_sub (b : Block) : b.payload - blockHeaderSize = b.addr :=
  Nat.add_sub_cancel _ _

theorem Block.payload_ne_zero (b : Block) : b.payload ≠ 0 := by
  simp only [Block.payload, blockHeaderSize]
  omega

theorem World.Good.tiled (hg : w.Good pmalloc) : ∃ free, w.Tiled pmalloc free := by
  obtain ⟨free, live, hl, hlive⟩ := hg
  have hlaid : Laid w.heap (Pools pmalloc w.heap.pmallocs) free live := hl
  have hheaders : (w.headers (free.map Block.addr)).Perm ((free ++ live).map Block.addr) := by
    have hmap := hlive.map (· - blockHeaderSize)
    rw [List.map_map] at hmap
    rw [World.headers, List.map_append]
    refine List.Perm.append_left _ (hmap.trans (List.Perm.of_eq ?_))
    exact List.map_congr_left fun b _ => b.payload_sub
  have hin : ∀ b ∈ free ++ live, ∀ x,
      InBlock w.heap.mem b.addr x ↔ b.interval.Has x := by
    intro b hb x
    obtain ⟨u, hd⟩ := hlaid.describes hb
    rw [InBlock, hd.size]
    exact Iff.rfl
  refine ⟨free.map Block.addr, hlaid.path, ?_, ?_, ?_, ?_, ?_⟩
  · refine List.pairwise_map.mpr ((List.pairwise_append.mp hlaid.pairwise).1.imp ?_)
    intro b c hbc heq
    have := hbc.sep
    simp only [blockHeaderSize] at this
    omega
  · intro a ha
    obtain ⟨b, hb, rfl⟩ := List.mem_map.mp ha
    exact ⟨(hlaid.free_hdr b hb).used, (hlaid.free_hdr b hb).magic⟩
  · intro p hp
    obtain ⟨b, hb, rfl⟩ := List.mem_map.mp (hlive.mem_iff.mp hp)
    rw [b.payload_sub]
    exact (hlaid.live_hdr b hb).used
  · refine (hheaders.pairwise_iff fun h x hb ha => h x ha hb).mpr (List.pairwise_map.mpr ?_)
    refine hlaid.pairwise.imp_of_mem ?_
    intro b c hb hc hbc x hxb hxc
    rw [hin b hb x] at hxb
    rw [hin c hc x] at hxc
    simp only [Interval.Has, Block.interval, Block.Apart] at *
    omega
  · intro x
    rw [hlaid.tiles.cover x]
    constructor
    · rintro ⟨a, ha, hx⟩
      obtain ⟨b, hb, rfl⟩ := List.mem_map.mp (hheaders.mem_iff.mp ha)
      exact ⟨_, List.mem_map_of_mem hb, (hin b hb x).mp hx⟩
    · rintro ⟨i, hi, hx⟩
      obtain ⟨b, hb, rfl⟩ := List.mem_map.mp hi
      exact ⟨b.addr, hheaders.mem_iff.mpr (List.mem_map_of_mem hb), (hin b hb x).mpr hx⟩

theorem bootHeap_ok (pmalloc : ℕ → ℕ) (m : Mem) : HeapOk pmalloc (bootHeap m) [] [] := by
  refine ⟨rfl, by simp, by simp, ⟨List.Pairwise.nil, ?_⟩, ?_⟩
  · simp [Pools, bootHeap]
  · simp [Pools, bootHeap]

theorem addPool_iterate_pmallocs (pmalloc : ℕ → ℕ) (n : ℕ) (h : Heap) :
    ((addPool pmalloc)^[n] h).pmallocs = h.pmallocs + n := by
  induction n with
  | zero => rfl
  | succ n ih =>
    rw [Function.iterate_succ_apply', addPool_pmallocs, ih]
    omega

theorem HeapOk.pools {motive : Heap → List Block → Prop} {h : Heap} {free live : List Block}
    (hl : HeapOk pmalloc h free live) (hstart : motive h free)
    (hpool : ∀ g free, HeapOk pmalloc g free live → FreshPool pmalloc g.pmallocs → motive g free →
      motive (Kmalloc.addPool pmalloc g) (poolBlock (pmalloc g.pmallocs) :: free))
    {n : ℕ} (hfresh : ∀ k < h.pmallocs + n, FreshPool pmalloc k) :
    ∃ free', HeapOk pmalloc ((Kmalloc.addPool pmalloc)^[n] h) free' live ∧
      motive ((Kmalloc.addPool pmalloc)^[n] h) free' := by
  induction n with
  | zero => exact ⟨free, hl, hstart⟩
  | succ n ih =>
    obtain ⟨free', hok, hmotive⟩ := ih fun k hk => hfresh k (by omega)
    have hnew := hfresh (h.pmallocs + n) (by omega)
    rw [← addPool_iterate_pmallocs] at hnew
    rw [Function.iterate_succ_apply']
    exact ⟨_, hok.addPool hnew, hpool _ _ hok hnew hmotive⟩

theorem World.start_pmallocs (pmalloc : ℕ → ℕ) (m : Mem) :
    (World.start pmalloc m).heap.pmallocs = (bootHeap m).pmallocs + poolCount :=
  addPool_iterate_pmallocs _ _ _

theorem World.start_goodIn (m : Mem) (hzero : ∀ x, ¬ P 0 x) (hs : Supplies pmalloc P poolCount) :
    (World.start pmalloc m).GoodIn P := by
  have hboot : Laid (bootHeap m) (P 0) [] [] := by
    refine ⟨rfl, by simp, by simp, ⟨List.Pairwise.nil, ?_⟩, fun x hx => absurd hx (hzero x)⟩
    intro x
    simpa using hzero x
  have hpools : ∀ n ≤ poolCount, ∃ free,
      Laid ((addPool pmalloc)^[n] (bootHeap m)) (P n) free [] := by
    intro n
    induction n with
    | zero => exact fun _ => ⟨[], hboot⟩
    | succ n ih =>
      intro hn
      obtain ⟨free, hl⟩ := ih (by omega)
      have hcount : ((addPool pmalloc)^[n] (bootHeap m)).pmallocs = n := by
        rw [addPool_iterate_pmallocs, bootHeap, Nat.zero_add]
      rw [Function.iterate_succ_apply']
      have hgrown := hs.grow (g := (addPool pmalloc)^[n] (bootHeap m)) (by omega) (by rwa [hcount])
      rwa [hcount] at hgrown
  obtain ⟨free, hl⟩ := hpools poolCount le_rfl
  refine ⟨free, [], ?_, List.Perm.nil⟩
  rw [World.start_pmallocs, bootHeap, Nat.zero_add]
  exact hl

theorem World.start_good (m : Mem)
    (hfresh : ∀ k < (World.start pmalloc m).heap.pmallocs, FreshPool pmalloc k) :
    (World.start pmalloc m).Good pmalloc := by
  rw [World.start_pmallocs, bootHeap, Nat.zero_add] at hfresh
  exact World.start_goodIn m (by simp [Pools]) (supplies_pools hfresh)

theorem World.GoodIn.focus (hg : w.GoodIn P) {p : ℕ} (hp : p ∈ w.live) :
    ∃ free b rest, p = b.payload ∧ Laid w.heap (P w.heap.pmallocs) free (b :: rest) ∧
      (w.live.erase p).Perm (rest.map Block.payload) ∧
      w.live.Perm ((b :: rest).map Block.payload) := by
  obtain ⟨free, live, hl, hlive⟩ := hg
  obtain ⟨b, hb, rfl⟩ := List.mem_map.mp (hlive.mem_iff.mp hp)
  obtain ⟨l1, l2, rfl⟩ := List.append_of_mem hb
  have hperm : (l1 ++ b :: l2).Perm (b :: (l1 ++ l2)) := List.perm_middle
  have hmap := hlive.trans (hperm.map Block.payload)
  refine ⟨free, b, l1 ++ l2, rfl, Laid.perm_live hl hperm, ?_, hmap⟩
  have herase := hmap.erase b.payload
  rwa [List.map_cons, List.erase_cons_head] at herase

theorem World.Good.focus (hg : w.Good pmalloc) {p : ℕ} (hp : p ∈ w.live) :
    ∃ free b rest, p = b.payload ∧ HeapOk pmalloc w.heap free (b :: rest) ∧
      (w.live.erase p).Perm (rest.map Block.payload) ∧
      w.live.Perm ((b :: rest).map Block.payload) :=
  World.GoodIn.focus hg hp

theorem World.GoodIn.zero_notMem (hg : w.GoodIn P) : 0 ∉ w.live := by
  intro h0
  obtain ⟨-, b, -, hb, -⟩ := hg.focus h0
  exact b.payload_ne_zero hb.symm

theorem AllocatedIn.good {live : List Block} {held : List ℕ} {size ptr : ℕ} {h : Heap}
    (ha : AllocatedIn P size ptr h live) (hheld : held.Perm (live.map Block.payload)) :
    (World.handOut held (ptr, h)).GoodIn P := by
  obtain ⟨free, ⟨rfl, hok⟩ | ⟨b, rfl, -, hok⟩⟩ := ha
  · exact ⟨free, live, hok, by simpa [World.handOut] using hheld⟩
  · refine ⟨free, b :: live, hok, ?_⟩
    simpa [World.handOut, b.payload_ne_zero] using hheld

section Steps
variable (hs : Supplies pmalloc P t.heap.pmallocs)
include hs

theorem World.GoodIn.kmalloc (hg : w.GoodIn P) {size : ℕ}
    (hcall : w.call pmalloc fuel (.kmalloc size) = some t) : t.GoodIn P := by
  obtain ⟨free, live, hl, hlive⟩ := hg
  obtain ⟨⟨ptr, h⟩, hres, rfl⟩ := Option.map_eq_some_iff.mp hcall
  exact (hl.kmalloc hres hs).good hlive

theorem World.GoodIn.kcalloc (hg : w.GoodIn P) {nmemb size : ℕ}
    (hreq : nmemb * size % 2 ^ 64 + 15 < 2 ^ 64)
    (hcall : w.call pmalloc fuel (.kcalloc nmemb size) = some t) : t.GoodIn P := by
  obtain ⟨free, live, hl, hlive⟩ := hg
  obtain ⟨⟨ptr, h⟩, hres, rfl⟩ := Option.map_eq_some_iff.mp hcall
  exact (hl.kcalloc hreq hres hs).good hlive

theorem World.GoodIn.krealloc (hg : w.GoodIn P) {ptr size : ℕ}
    (hptr : ptr = 0 ∨ ptr ∈ w.live) (hreq : size + 15 < 2 ^ 64)
    (hcall : w.call pmalloc fuel (.krealloc ptr size) = some t) : t.GoodIn P := by
  obtain ⟨⟨q, h⟩, hres, ht⟩ := Option.map_eq_some_iff.mp hcall
  dsimp only at ht
  have hheap : t.heap = h := by
    rw [← ht]
    split_ifs <;> rfl
  rw [hheap] at hs
  rcases hptr with rfl | hptr
  · have herase : w.live.erase 0 = w.live := List.erase_of_not_mem hg.zero_notMem
    obtain ⟨free, live, hl, hlive⟩ := hg
    have hgood := (hl.kmalloc hres hs).good hlive
    rw [herase] at ht
    split_ifs at ht with hq
    · rw [hq.2, World.handOut, if_pos rfl] at hgood
      exact ht ▸ hgood
    · exact ht ▸ hgood
  · obtain ⟨free, b, rest, rfl, hl, herase, hlive⟩ := hg.focus hptr
    have hle := le_alignSize hreq
    obtain ⟨free', ⟨h0, rfl, hok⟩ | ⟨h0, rfl, hok⟩ | ⟨c, h0, rfl, -, hok⟩⟩ :=
      hl.krealloc (fun hlt => by omega) hres hs
    · rw [if_neg (fun h => h.1 h0), World.handOut, if_pos rfl] at ht
      exact ht ▸ ⟨free', rest, hok, herase⟩
    · rw [if_pos ⟨h0, rfl⟩] at ht
      exact ht ▸ ⟨free', b :: rest, hok, hlive⟩
    · rw [if_neg (fun h => c.payload_ne_zero h.2), World.handOut,
        if_neg c.payload_ne_zero] at ht
      exact ht ▸ ⟨free', c :: rest, hok, herase.cons _⟩

end Steps

theorem World.GoodIn.kfree (pmalloc : ℕ → ℕ) (fuel : ℕ) (hg : w.GoodIn P) {ptr : ℕ}
    (hptr : ptr = 0 ∨ ptr ∈ w.live) :
    ∃ t, w.call pmalloc fuel (.kfree ptr) = some t ∧ t.GoodIn P := by
  rcases hptr with rfl | hptr
  · have herase : w.live.erase 0 = w.live := List.erase_of_not_mem hg.zero_notMem
    refine ⟨w, ?_, hg⟩
    simp [World.call, Kmalloc.kfree, herase]
  · obtain ⟨free, b, rest, rfl, hl, herase, -⟩ := hg.focus hptr
    obtain ⟨h, free', hfree, hok, -⟩ := hl.kfree
    rw [← kfree_pmallocs hfree] at hok
    refine ⟨⟨h, w.live.erase b.payload⟩, ?_, free', rest, hok, herase⟩
    simp only [World.call, hfree, Option.map_some]

theorem World.GoodIn.store (pmalloc : ℕ → ℕ) (fuel : ℕ) (hg : w.GoodIn P) {ptr i : ℕ} (v : UInt8)
    (hptr : ptr ∈ w.live) (hi : i < (header w.heap.mem (ptr - blockHeaderSize)).size) :
    ∃ t, w.call pmalloc fuel (.store ptr i v) = some t ∧ t.GoodIn P := by
  obtain ⟨free, b, rest, rfl, hl, -, hlive⟩ := hg.focus hptr
  rw [b.payload_sub, (hl.live_hdr b (by simp)).size] at hi
  refine ⟨_, rfl, free, b :: rest, hl.payload (b := b) _ (by simp) ?_, hlive⟩
  intro x hx
  apply Function.update_of_ne
  have hend : b.fin = b.payload + b.size := rfl
  have hstart : b.payload = b.addr + blockHeaderSize := rfl
  omega

theorem krealloc_pmallocs {ptr size q : ℕ} {h h' : Heap}
    (hres : krealloc pmalloc fuel ptr size h = some (q, h')) : h.pmallocs ≤ h'.pmallocs := by
  simp only [krealloc] at hres
  split_ifs at hres
  · exact kmalloc_pmallocs hres
  · obtain ⟨h1, hfree, hret⟩ := Option.map_eq_some_iff.mp hres
    cases hret
    exact (kfree_pmallocs hfree).ge
  · cases hres
    exact le_rfl
  · cases hres
    exact le_rfl
  · cases hk : kmalloc pmalloc fuel size h with
    | none => simp [hk] at hres
    | some r =>
      obtain ⟨r, h1⟩ := r
      have hle := kmalloc_pmallocs hk
      simp only [hk] at hres
      split_ifs at hres
      · cases hres
        exact hle
      · obtain ⟨h2, hfree, hret⟩ := Option.map_eq_some_iff.mp hres
        cases hret
        exact hle.trans (kfree_pmallocs hfree).ge

theorem World.call_pmallocs {c : Call} (hcall : w.call pmalloc fuel c = some t) :
    w.heap.pmallocs ≤ t.heap.pmallocs := by
  cases c with
  | kmalloc size =>
    obtain ⟨⟨ptr, h⟩, hres, rfl⟩ := Option.map_eq_some_iff.mp hcall
    exact kmalloc_pmallocs hres
  | kcalloc nmemb size =>
    obtain ⟨⟨ptr, h⟩, hres, rfl⟩ := Option.map_eq_some_iff.mp hcall
    obtain ⟨⟨q, h1⟩, hk, hret⟩ := Option.map_eq_some_iff.mp hres
    have hle := kmalloc_pmallocs hk
    dsimp only at hret
    split_ifs at hret <;> cases hret <;> exact hle
  | krealloc ptr size =>
    obtain ⟨⟨q, h⟩, hres, rfl⟩ := Option.map_eq_some_iff.mp hcall
    dsimp only
    split_ifs <;> exact krealloc_pmallocs hres
  | kfree ptr =>
    obtain ⟨h, hres, rfl⟩ := Option.map_eq_some_iff.mp hcall
    exact (kfree_pmallocs hres).ge
  | store ptr i v =>
    cases hcall
    exact le_rfl

/-- A release or a store names a live pointer, and no request wraps when it is rounded
up. -/
def World.Careful (w : World) : Call → Prop
  | .kmalloc size => size + 15 < 2 ^ 64
  | .kcalloc nmemb size => nmemb * size + 15 < 2 ^ 64
  | .krealloc ptr size => (ptr = 0 ∨ ptr ∈ w.live) ∧ size + 15 < 2 ^ 64
  | .kfree ptr => ptr = 0 ∨ ptr ∈ w.live
  | .store ptr i _ => ptr ∈ w.live ∧ i < (header w.heap.mem (ptr - blockHeaderSize)).size

theorem World.GoodIn.call (hg : w.GoodIn P) {c : Call}
    (hc : w.Permitted c ∨ w.Careful c) (hcall : w.call pmalloc fuel c = some t)
    (hs : Supplies pmalloc P t.heap.pmallocs) : t.GoodIn P := by
  have hsame : ∀ {u}, w.call pmalloc fuel c = some u ∧ u.GoodIn P → t.GoodIn P := by
    rintro u ⟨hu, hgood⟩
    rw [hu] at hcall
    cases hcall
    exact hgood
  cases c with
  | kmalloc size => exact hg.kmalloc hs hcall
  | kcalloc nmemb size =>
    have hreq : nmemb * size % 2 ^ 64 + 15 < 2 ^ 64 := by
      simp only [World.Permitted, World.Careful] at hc
      omega
    exact hg.kcalloc hs hreq hcall
  | krealloc ptr size =>
    have hreq : size + 15 < 2 ^ 64 := by
      simp only [World.Permitted, World.Careful] at hc
      omega
    exact hg.krealloc hs (hc.elim And.left And.left) hreq hcall
  | kfree ptr =>
    obtain ⟨u, hu⟩ := hg.kfree pmalloc fuel (hc.elim id id)
    exact hsame hu
  | store ptr i v =>
    have hc : ptr ∈ w.live ∧ i < (header w.heap.mem (ptr - blockHeaderSize)).size := hc.elim id id
    obtain ⟨u, hu⟩ := hg.store pmalloc fuel v hc.1 hc.2
    exact hsame hu

theorem World.Good.call (hg : w.Good pmalloc) {c : Call} (hc : w.Permitted c)
    (hcall : w.call pmalloc fuel c = some t)
    (hfresh : ∀ k < t.heap.pmallocs, FreshPool pmalloc k) : t.Good pmalloc :=
  World.GoodIn.call hg (Or.inl hc) hcall (supplies_pools hfresh)

theorem HeapOk.krealloc_returns (fuel : ℕ) {b : Block} {free live : List Block} {size : ℕ}
    {h : Heap} (hl : HeapOk pmalloc h free (b :: live)) (hreq : size ≤ 16352)
    (hfresh : ∀ k ≤ h.pmallocs, FreshPool pmalloc k) :
    ∃ r, Kmalloc.krealloc pmalloc (fuel + 2) b.payload size h = some r := by
  have hb := Laid.live_hdr hl b (by simp)
  simp only [Kmalloc.krealloc, if_neg b.payload_ne_zero, b.payload_sub, hb.magic, ne_eq,
    not_true_eq_false, if_false, hb.size]
  split_ifs with h0 hfits
  · obtain ⟨h1, free', hfree, -⟩ := hl.kfree
    exact ⟨_, by rw [hfree, Option.map_some]⟩
  · exact ⟨_, rfl⟩
  · obtain ⟨⟨q, h1⟩, hk, hcount⟩ := hl.kmalloc_returns fuel hreq (hfresh _ le_rfl)
    have hle : size ≤ alignSize size := le_alignSize (by omega)
    simp only [hk]
    split_ifs with hq
    · exact ⟨_, rfl⟩
    · obtain ⟨free', ⟨hz, -⟩ | ⟨c, rfl, hcs, hok⟩⟩ := hl.kmalloc hk fun k hk => hfresh k
        (Nat.le_of_lt_succ (hk.trans_le hcount))
      · exact absurd hz hq
      · obtain ⟨h2, free2, hfree, -⟩ := Laid.move hok (by omega)
        exact ⟨_, by rw [hfree, Option.map_some]⟩

theorem World.Good.call_returns (hg : w.Good pmalloc) {c : Call} (hc : w.Permitted c)
    (hfresh : ∀ k ≤ w.heap.pmallocs, FreshPool pmalloc k) :
    ∃ t, w.call pmalloc (fuel + 2) c = some t := by
  cases c with
  | kmalloc size =>
    obtain ⟨free, live, hl, -⟩ := hg
    obtain ⟨r, hk, -⟩ := hl.kmalloc_returns fuel hc (hfresh _ le_rfl)
    exact ⟨_, by rw [World.call, hk, Option.map_some]⟩
  | kcalloc nmemb size =>
    obtain ⟨free, live, hl, -⟩ := hg
    obtain ⟨r, hk, -⟩ := hl.kmalloc_returns fuel hc (hfresh _ le_rfl)
    exact ⟨_, by rw [World.call, Kmalloc.kcalloc, hk, Option.map_some, Option.map_some]⟩
  | krealloc ptr size =>
    obtain ⟨rfl | hptr, hreq⟩ := hc
    · obtain ⟨free, live, hl, -⟩ := hg
      obtain ⟨r, hk, -⟩ := hl.kmalloc_returns fuel hreq (hfresh _ le_rfl)
      exact ⟨_, by rw [World.call, Kmalloc.krealloc, if_pos rfl, hk, Option.map_some]⟩
    · obtain ⟨free, b, rest, rfl, hl, -⟩ := hg.focus hptr
      obtain ⟨r, hk⟩ := hl.krealloc_returns fuel hreq hfresh
      exact ⟨_, by rw [World.call, hk, Option.map_some]⟩
  | kfree ptr =>
    obtain ⟨t, ht, -⟩ := World.GoodIn.kfree pmalloc (fuel + 2) hg hc
    exact ⟨t, ht⟩
  | store ptr i v => exact ⟨_, rfl⟩

/-- An invariant that holds as long as the pools received so far are fresh. Freshness is
known for the last state only, so it is a premise along the run. -/
theorem run_fresh {inv : World → Prop} {ok : World → Call → Prop} {s : World} {calls : List Call}
    (hstart : (∀ k < s.heap.pmallocs, FreshPool pmalloc k) → inv s)
    (hstep : ∀ s c t, inv s → ok s c → s.call pmalloc fuel c = some t →
      (∀ k < t.heap.pmallocs, FreshPool pmalloc k) → inv t)
    (hok : Allowed (World.call pmalloc fuel) ok s calls)
    (hrun : run (World.call pmalloc fuel) s calls = some w)
    (hfresh : ∀ k < w.heap.pmallocs, FreshPool pmalloc k) : inv w := by
  have hkeep : ∀ (s : World) (c : Call) (t : World),
      ((∀ k < s.heap.pmallocs, FreshPool pmalloc k) → inv s) → ok s c →
      s.call pmalloc fuel c = some t → (∀ k < t.heap.pmallocs, FreshPool pmalloc k) → inv t := by
    intro s c t hs hc hcall ht
    have hle := World.call_pmallocs hcall
    exact hstep s c t (hs fun k hk => ht k (hk.trans_le hle)) hc hcall ht
  exact run_invariant hkeep hok hstart hrun hfresh

theorem run_good {m : Mem} {calls : List Call}
    (hok : Allowed (World.call pmalloc fuel) World.Permitted (World.start pmalloc m) calls)
    (hrun : run (World.call pmalloc fuel) (World.start pmalloc m) calls = some w)
    (hfresh : ∀ k < w.heap.pmallocs, FreshPool pmalloc k) : w.Good pmalloc :=
  run_fresh (World.start_good m) (fun _ _ _ hs hc hcall => hs.call hc hcall) hok hrun hfresh

/-- Along every run the blocks tile the pools, and no permitted call hangs: two
levels of the recursion of `kmalloc` are enough while the page allocator keeps
answering with fresh pools. -/
theorem heap_tiling (pmalloc : ℕ → ℕ) (fuel : ℕ) (m : Mem) (calls : List Call) (w : World)
    (hok : Allowed (World.call pmalloc fuel) World.Permitted (World.start pmalloc m) calls)
    (hrun : run (World.call pmalloc fuel) (World.start pmalloc m) calls = some w)
    (hfresh : ∀ k < w.heap.pmallocs, FreshPool pmalloc k) :
    (∃ free, w.Tiled pmalloc free) ∧
    ∀ c, w.Permitted c → FreshPool pmalloc w.heap.pmallocs → 2 ≤ fuel →
      ∃ t, w.call pmalloc fuel c = some t := by
  have hgood : w.Good pmalloc := run_good hok hrun hfresh
  refine ⟨hgood.tiled, ?_⟩
  intro c hc hnext hfuel
  obtain ⟨fuel, rfl⟩ := Nat.exists_eq_add_of_le' hfuel
  refine hgood.call_returns hc ?_
  intro k hk
  rcases Nat.lt_or_eq_of_le hk with hk | rfl
  · exact hfresh k hk
  · exact hnext

def linearPages (k : ℕ) : ℕ := (k + 1) * poolSize

theorem linearPages_fresh {k : ℕ} (hk : k < 2 ^ 32) : FreshPool linearPages k := by
  have hsize : poolSize = 16384 := by decide
  have heq : ∀ j, linearPages j = j * 16384 + 16384 := by
    intro j
    rw [linearPages, hsize, Nat.add_mul, Nat.one_mul]
  refine ⟨by rw [heq]; omega, by rw [heq]; omega, by rw [heq, hsize]; omega, ?_⟩
  intro j hj
  rw [heq, heq, hsize]
  omega

instance (w : World) : ∀ c, Decidable (w.Permitted c)
  | .kmalloc size => inferInstanceAs (Decidable (size ≤ 16352))
  | .kcalloc nmemb size => inferInstanceAs (Decidable (nmemb * size % 2 ^ 64 ≤ 16352))
  | .krealloc ptr size => inferInstanceAs (Decidable ((ptr = 0 ∨ ptr ∈ w.live) ∧ size ≤ 16352))
  | .kfree ptr => inferInstanceAs (Decidable (ptr = 0 ∨ ptr ∈ w.live))
  | .store ptr i _ => inferInstanceAs
    (Decidable (ptr ∈ w.live ∧ i < (header w.heap.mem (ptr - blockHeaderSize)).size))

def fiveCalls : List Call :=
  [.kmalloc 100, .kcalloc 3 8, .krealloc 65560 200, .store 65752 7 1, .kfree 65696]

theorem heap_tiling_small : ∃ w, run (World.call linearPages 2)
    (World.start linearPages fun _ => 0) fiveCalls = some w ∧
      (∃ free, w.Tiled linearPages free) ∧
      ∃ t, w.call linearPages 2 (.kmalloc 16352) = some t := by
  have hend : (run (World.call linearPages 2) (World.start linearPages fun _ => 0) fiveCalls).map
      (fun w => (w.live, w.heap.pmallocs)) = some ([65752], 4) := by decide +kernel
  obtain ⟨w, hw, hvals⟩ := Option.map_eq_some_iff.mp hend
  have hcount : w.heap.pmallocs = 4 := (Prod.mk.inj hvals).2
  have hall := heap_tiling linearPages 2 (fun _ => 0) fiveCalls w (by decide +kernel) hw
    (fun k hk => linearPages_fresh (by omega))
  exact ⟨w, hw, hall.1, hall.2 (.kmalloc 16352) le_rfl (linearPages_fresh (by omega)) le_rfl⟩

end XldKernel.Kmalloc
