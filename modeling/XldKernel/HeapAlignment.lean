import XldKernel.HeapSizes

/-!
# Alignment of heap pointers

`kmalloc.h` names 16 as the alignment, and `kmalloc.c` rounds sizes up to it. A payload
lies behind a header of 24 bytes, so the first block of a pool has its payload 8 bytes
off, and a split moves the next header by 24 bytes more. A run whose pointers are all
aligned is therefore one that never asks for memory.
-/

namespace XldKernel.Kmalloc
open ByteMemory IntervalTiling LinkedPath GuardedRun

def World.returned (pmalloc : ℕ → ℕ) (fuel : ℕ) (w : World) : Call → Option ℕ
  | .kmalloc size => (Kmalloc.kmalloc pmalloc fuel size w.heap).map Prod.fst
  | .kcalloc nmemb size => (Kmalloc.kcalloc pmalloc fuel nmemb size w.heap).map Prod.fst
  | .krealloc ptr size => (Kmalloc.krealloc pmalloc fuel ptr size w.heap).map Prod.fst
  | .kfree _ => none
  | .store _ _ _ => none

def Call.asked : Call → ℕ
  | .kmalloc size => size
  | .kcalloc nmemb size => nmemb * size % 2 ^ 64
  | .krealloc _ size => size
  | .kfree _ => 0
  | .store _ _ _ => 0

/-- The pointers a client passes are its own. Sizes are not restricted. -/
def World.Owned (w : World) : Call → Prop
  | .kmalloc _ => True
  | .kcalloc _ _ => True
  | .krealloc ptr _ => ptr = 0 ∨ ptr ∈ w.live
  | .kfree ptr => ptr = 0 ∨ ptr ∈ w.live
  | .store ptr i _ => ptr ∈ w.live ∧ i < (header w.heap.mem (ptr - blockHeaderSize)).size

variable {pmalloc : ℕ → ℕ} {fuel size ptr : ℕ} {h h' : Heap} {w t : World} {c : Call}

theorem kmalloc_zero (hres : kmalloc pmalloc fuel 0 h = some (ptr, h')) : ptr = 0 ∧ h' = h := by
  cases fuel with
  | zero => cases hres
  | succ fuel =>
    cases hres
    exact ⟨rfl, rfl⟩

theorem kcalloc_pointer {nmemb : ℕ} (hres : kcalloc pmalloc fuel nmemb size h = some (ptr, h')) :
    ∃ g, kmalloc pmalloc fuel (nmemb * size % 2 ^ 64) h = some (ptr, g) ∧ (ptr = 0 → h' = g) := by
  obtain ⟨⟨q, g⟩, hk, hret⟩ := Option.map_eq_some_iff.mp hres
  dsimp only at hret
  by_cases hq : q = 0
  · rw [if_pos hq] at hret
    obtain ⟨rfl, rfl⟩ := Prod.mk.inj hret
    exact ⟨_, hk, fun _ => rfl⟩
  · rw [if_neg hq] at hret
    obtain ⟨rfl, rfl⟩ := Prod.mk.inj hret
    exact ⟨_, hk, fun h0 => absurd h0 hq⟩

theorem World.returned_zero (hask : c.asked = 0) (hret : w.returned pmalloc fuel c = some ptr) :
    ptr = 0 := by
  cases c with
  | kmalloc size =>
    obtain ⟨⟨q, g⟩, hres, rfl⟩ := Option.map_eq_some_iff.mp hret
    rw [show size = 0 from hask] at hres
    exact (kmalloc_zero hres).1
  | kcalloc nmemb size =>
    obtain ⟨⟨q, g⟩, hres, rfl⟩ := Option.map_eq_some_iff.mp hret
    obtain ⟨g', hk, -⟩ := kcalloc_pointer hres
    rw [show nmemb * size % 2 ^ 64 = 0 from hask] at hk
    exact (kmalloc_zero hk).1
  | krealloc p size =>
    obtain ⟨⟨q, g⟩, hres, rfl⟩ := Option.map_eq_some_iff.mp hret
    rw [show size = 0 from hask, krealloc] at hres
    by_cases hp : p = 0
    · rw [if_pos hp] at hres
      exact (kmalloc_zero hres).1
    · rw [if_neg hp, if_pos rfl] at hres
      obtain ⟨g', -, hq⟩ := Option.map_eq_some_iff.mp hres
      exact (congrArg Prod.fst hq).symm
  | kfree p => cases hret
  | store p i v => cases hret

theorem World.call_idle (hlive : w.live = []) (hc : w.Owned c) (hask : c.asked = 0)
    (hcall : w.call pmalloc fuel c = some t) : t = w := by
  have hnone : ∀ {p}, p = 0 ∨ p ∈ w.live → p = 0 := by
    intro p hp
    simpa [hlive] using hp
  have hworld : (⟨w.heap, w.live⟩ : World) = w := rfl
  cases c with
  | kmalloc size =>
    obtain ⟨⟨q, g⟩, hres, rfl⟩ := Option.map_eq_some_iff.mp hcall
    rw [show size = 0 from hask] at hres
    obtain ⟨rfl, rfl⟩ := kmalloc_zero hres
    rfl
  | kcalloc nmemb size =>
    obtain ⟨⟨q, g⟩, hres, rfl⟩ := Option.map_eq_some_iff.mp hcall
    obtain ⟨g', hk, hsame⟩ := kcalloc_pointer hres
    rw [show nmemb * size % 2 ^ 64 = 0 from hask] at hk
    obtain ⟨rfl, rfl⟩ := kmalloc_zero hk
    rw [hsame rfl]
    rfl
  | krealloc p size =>
    obtain ⟨⟨q, g⟩, hres, rfl⟩ := Option.map_eq_some_iff.mp hcall
    obtain rfl := hnone hc
    rw [show size = 0 from hask] at hres ⊢
    obtain ⟨rfl, rfl⟩ := kmalloc_zero hres
    rw [hlive]
    exact congrArg (World.mk w.heap) hlive.symm
  | kfree p =>
    obtain ⟨g, hres, rfl⟩ := Option.map_eq_some_iff.mp hcall
    obtain rfl := hnone hc
    cases hres
    rw [hlive]
    exact congrArg (World.mk w.heap) hlive.symm
  | store p i v =>
    have hmem : p ∈ w.live := hc.1
    simp [hlive] at hmem

theorem run_idle {calls : List Call} (hlive : w.live = [])
    (hok : Allowed (World.call pmalloc fuel) World.Owned w calls) (hask : ∀ c ∈ calls, c.asked = 0)
    (hrun : run (World.call pmalloc fuel) w calls = some t) : t = w := by
  induction calls with
  | nil =>
    cases hrun
    rfl
  | cons c calls ih =>
    obtain ⟨u, hu, hrest⟩ := Option.bind_eq_some_iff.mp hrun
    obtain rfl := World.call_idle hlive hok.1 (hask c (by simp)) hu
    exact ih (hok.2 u hu) (fun d hd => hask d (by simp [hd])) hrest

theorem PageSource.kmalloc_first (hp : PageSource pmalloc) (m : Mem) (h0 : size ≠ 0)
    (hres : kmalloc pmalloc fuel size (World.start pmalloc m).heap = some (ptr, h')) :
    ptr % 16 = 8 := by
  obtain ⟨free, hstart⟩ := hp.untouched_start m
  have hlaid : ∀ g free, Untouched pmalloc g free → ∃ P, Laid g P free [] ∧ ∀ x, P x → 4096 ≤ x :=
    fun g free hu => ⟨_, hu.1, (hp.supplies _).low _ le_rfl⟩
  have hadd : ∀ g free, Untouched pmalloc g free → g.pmallocs < h'.pmallocs →
      ∃ free', Untouched pmalloc (Kmalloc.addPool pmalloc g) free' :=
    fun g free hu _ => ⟨_, hp.untouched_addPool hu⟩
  rcases kmalloc_taken hstart hlaid hadd hres with
    ⟨hz, -⟩ | ⟨g, pre, b, post, ⟨-, hpools⟩, -, -, rfl, -⟩
  · exact absurd hz h0
  · obtain ⟨k, rfl⟩ := hpools b (by simp)
    have hpage := hp.aligned k
    simp only [Block.payload, poolBlock, blockHeaderSize]
    omega

theorem World.returned_first (hp : PageSource pmalloc) (m : Mem)
    (hc : (World.start pmalloc m).Owned c) (hask : c.asked ≠ 0)
    (hcall : (World.start pmalloc m).call pmalloc fuel c = some t) :
    ∃ q, (World.start pmalloc m).returned pmalloc fuel c = some q ∧ q % 16 = 8 := by
  cases c with
  | kmalloc size =>
    obtain ⟨⟨q, g⟩, hres, -⟩ := Option.map_eq_some_iff.mp hcall
    exact ⟨q, by rw [World.returned, hres]; rfl, hp.kmalloc_first m hask hres⟩
  | kcalloc nmemb size =>
    obtain ⟨⟨q, g⟩, hres, -⟩ := Option.map_eq_some_iff.mp hcall
    obtain ⟨g', hk, -⟩ := kcalloc_pointer hres
    exact ⟨q, by rw [World.returned, hres]; rfl, hp.kmalloc_first m hask hk⟩
  | krealloc p size =>
    obtain ⟨⟨q, g⟩, hres, -⟩ := Option.map_eq_some_iff.mp hcall
    have hnull : p = 0 := by simpa [World.Owned, World.start] using hc
    obtain rfl := hnull
    exact ⟨q, by rw [World.returned, hres]; rfl, hp.kmalloc_first m hask hres⟩
  | kfree p => exact absurd rfl hask
  | store p i v => exact absurd rfl hask

/-- All pointers that a run returns are multiples of 16 exactly when the run asks for no
memory: the first block that is handed out starts 24 bytes into a pool. -/
theorem pointers_aligned_iff (pmalloc : ℕ → ℕ) (hp : PageSource pmalloc) (fuel : ℕ) (m : Mem)
    (calls : List Call) (w : World)
    (hok : Allowed (World.call pmalloc fuel) World.Owned (World.start pmalloc m) calls)
    (hrun : run (World.call pmalloc fuel) (World.start pmalloc m) calls = some w) :
    (∀ pre c post v q, calls = pre ++ c :: post →
      run (World.call pmalloc fuel) (World.start pmalloc m) pre = some v →
      v.returned pmalloc fuel c = some q → q ≠ 0 → q % kmallocAlign = 0) ↔
    ∀ c ∈ calls, c.asked = 0 := by
  constructor
  · intro haligned
    by_contra hasks
    push Not at hasks
    obtain ⟨d, hd, hne⟩ := hasks
    -- the first call that asks for something
    obtain ⟨c, hfind⟩ : ∃ c, calls.find? (fun c => decide (c.asked ≠ 0)) = some c :=
      Option.isSome_iff_exists.mp (List.find?_isSome.mpr ⟨d, hd, by simpa using hne⟩)
    obtain ⟨hask, pre, post, rfl, hidle⟩ := List.find?_eq_some_iff_append.mp hfind
    rw [run_append] at hrun
    obtain ⟨v, hv, hrest⟩ := Option.bind_eq_some_iff.mp hrun
    obtain ⟨hpre, hpost⟩ := hok.append hv
    obtain rfl := run_idle rfl hpre (fun e he => by simpa using hidle e he) hv
    obtain ⟨t, ht, -⟩ := Option.bind_eq_some_iff.mp hrest
    obtain ⟨q, hq, hoff⟩ := World.returned_first hp m hpost.1 (by simpa using hask) ht
    have hmod : q % 16 = 0 := haligned pre c post _ q rfl hv hq (by omega)
    omega
  · rintro hidle pre c post v q rfl - hq hne
    exact absurd (World.returned_zero (hidle c (by simp)) hq) hne

instance (w : World) : ∀ c, Decidable (w.Owned c)
  | .kmalloc _ => isTrue trivial
  | .kcalloc _ _ => isTrue trivial
  | .krealloc ptr _ => inferInstanceAs (Decidable (ptr = 0 ∨ ptr ∈ w.live))
  | .kfree ptr => inferInstanceAs (Decidable (ptr = 0 ∨ ptr ∈ w.live))
  | .store ptr i _ => inferInstanceAs
    (Decidable (ptr ∈ w.live ∧ i < (header w.heap.mem (ptr - blockHeaderSize)).size))

theorem pointers_aligned_iff_one : ∃ w,
    run (World.call fourPools 1) (World.start fourPools fun _ => 0) [.kcalloc 3 40] = some w ∧
    ∃ c v q, (World.returned fourPools 1 v c = some q ∧ q ≠ 0) ∧ q % kmallocAlign ≠ 0 := by
  have hsome : (run (World.call fourPools 1) (World.start fourPools fun _ => 0)
      [.kcalloc 3 40]).isSome := by decide +kernel
  obtain ⟨w, hw⟩ := Option.isSome_iff_exists.mp hsome
  have hiff := pointers_aligned_iff fourPools fourPools_source 1 (fun _ => 0) [.kcalloc 3 40] w
    (by decide +kernel) hw
  have hnot := hiff.not.mpr fun hidle => absurd (hidle _ List.mem_cons_self) (by decide)
  push Not at hnot
  obtain ⟨pre, c, post, v, q, -, -, hq, hne, hoff⟩ := hnot
  exact ⟨w, hw, c, v, q, ⟨hq, hne⟩, hoff⟩

theorem first_pointer_off :
    PageSource fourPools ∧
    Allowed (World.call fourPools 1) World.Owned (World.start fourPools fun _ => 0) [.kmalloc 100] ∧
    (World.start fourPools fun _ => 0).returned fourPools 1 (.kmalloc 100) = some 65560 ∧
    65560 % kmallocAlign = 8 :=
  ⟨fourPools_source, by decide +kernel, by decide +kernel, by decide⟩

end XldKernel.Kmalloc
