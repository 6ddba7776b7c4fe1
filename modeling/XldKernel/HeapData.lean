import XldKernel.HeapTiling

/-!
# The data of the clients

The allocator writes into headers, into free blocks, and (`kcalloc`, `krealloc`) into
the block it returns. With the tiling of the pools this keeps it away from the payloads
of all other live blocks.
-/

namespace XldKernel.Kmalloc
open ByteMemory IntervalTiling LinkedPath GuardedRun

variable {pmalloc : ℕ → ℕ} {fuel : ℕ} {h h' : Heap} {m m' m'' : Mem} {P : ℕ → Prop}
  {free live pre post : List Block}

def SameData (live : List Block) (m m' : Mem) : Prop :=
  ∀ b ∈ live, ∀ x, b.payload ≤ x → x < b.fin → m' x = m x

theorem SameData.refl (live : List Block) (m : Mem) : SameData live m m := fun _ _ _ _ _ => rfl

theorem SameData.trans (h1 : SameData live m m') (h2 : SameData live m' m'') :
    SameData live m m'' :=
  fun b hb x hlo hhi => (h2 b hb x hlo hhi).trans (h1 b hb x hlo hhi)

theorem SameData.mono {live' : List Block} (h : SameData live m m') (hsub : live' ⊆ live) :
    SameData live' m m' :=
  fun b hb => h b (hsub hb)

theorem SameData.of_span {c : Block} (hm : ∀ x, x < c.addr ∨ c.fin ≤ x → m' x = m x)
    (hapart : ∀ b ∈ live, c.Apart b) : SameData live m m' := by
  intro b hb x hlo hhi
  apply hm
  have hcb := hapart b hb
  simp only [Block.Apart, Block.payload, blockHeaderSize] at hcb hlo
  omega

theorem Laid.sameData_header (hl : Laid h P free live) {c : Block} (hc : c ∈ free ++ live)
    (honly : OnlyHeader m m' c.addr) : SameData live m m' := by
  intro b hb x hlo hhi
  apply honly
  rcases eq_or_apart hl.pairwise hc (List.mem_append_right _ hb) with rfl | hcb
  · exact Or.inr hlo
  · simp only [Block.Apart, Block.fin, Block.payload] at hcb hlo hhi
    omega

theorem setLink_sameData (hl : Laid h P free live) (hsub : pre ⊆ free ++ live) (g : Heap) (v : ℕ) :
    SameData live g.mem (setLink g (lastAddr 0 pre) v).mem := by
  rcases List.eq_nil_or_concat pre with rfl | ⟨ini, p, rfl⟩
  · exact SameData.refl _ _
  · rw [List.concat_eq_append] at *
    rw [lastAddr_snoc, setLink]
    split_ifs
    · exact SameData.refl _ _
    · exact hl.sameData_header (hsub (by simp)) (setNext_only _ _ _)

theorem coalesce_only (m : Mem) (a n : ℕ) : OnlyHeader m (coalesce m a n) a :=
  (setSize_only _ _ _).trans (setNext_only _ _ _)

theorem splitBlock_span {b : Block} {size : ℕ} (hl : Laid h P (pre ++ b :: post) live)
    (hsize : size + blockHeaderSize + kmallocMinSize < 2 ^ 64) :
    ∀ x, x < b.addr ∨ b.fin ≤ x → splitBlock h.mem b.addr size x = h.mem x := by
  have hb := hl.free_hdr b (by simp)
  by_cases hcut : size + blockHeaderSize + kmallocMinSize ≤ b.size
  · have hroom := (hl.room (b := b) (by simp)).2
    have hspec := (splitBlock_spec (m := h.mem) (a := b.addr) rfl (by rw [hb.size]; exact hcut)
      (by rw [hb.size]; exact hroom)).2.2
    rwa [hb.size] at hspec
  · rw [splitBlock, hb.size, Nat.mod_eq_of_lt hsize, if_pos (by omega)]
    exact fun _ _ => rfl

theorem Laid.take_sameData {b : Block} {size : ℕ} (hl : Laid h P (pre ++ b :: post) live)
    (hsize : size + blockHeaderSize + kmallocMinSize < 2 ^ 64) :
    SameData live h.mem (takeBlock h (lastAddr 0 pre) b.addr size).mem := by
  have hapart : ∀ c ∈ live, b.Apart c := fun c hc =>
    (List.pairwise_append.mp hl.pairwise).2.2 b (by simp) c hc
  have hsplit := SameData.of_span (splitBlock_span hl hsize) hapart
  have hused : SameData live (splitBlock h.mem b.addr size)
      (setUsed (splitBlock h.mem b.addr size) b.addr 1) :=
    hl.sameData_header (by simp) (setUsed_only _ _ _)
  exact (hsplit.trans hused).trans (setLink_sameData hl (fun c hc => by simp [hc]) _ _)

theorem HeapOk.addPool_sameData (hl : HeapOk pmalloc h free live)
    (hf : FreshPool pmalloc h.pmallocs) : SameData live h.mem (Kmalloc.addPool pmalloc h).mem := by
  have hgrown : Laid _ _ _ live := hl.addPool hf
  have hheader : SameData live h.mem (writeHeader h.mem (poolBlock (pmalloc h.pmallocs)).addr
      (poolSize - blockHeaderSize) h.freeList) :=
    hgrown.sameData_header (by simp) (writeHeader_only _ _ _ _)
  simp only [Kmalloc.addPool]
  rw [if_neg hf.ne_zero]
  exact hheader

theorem HeapOk.kmalloc_sameData {size ptr : ℕ} (hl : HeapOk pmalloc h free live)
    (hres : Kmalloc.kmalloc pmalloc fuel size h = some (ptr, h'))
    (hfresh : ∀ k < h'.pmallocs, FreshPool pmalloc k) : SameData live h.mem h'.mem := by
  have hpool : ∀ g free, HeapOk pmalloc g free live → FreshPool pmalloc g.pmallocs →
      SameData live h.mem g.mem → SameData live h.mem (Kmalloc.addPool pmalloc g).mem :=
    fun g free hok hnew hsame => hsame.trans (hok.addPool_sameData hnew)
  rcases hl.kmalloc_cases (SameData.refl live h.mem) hpool hres hfresh with
    ⟨-, -, rfl⟩ | ⟨g, pre, b, post, hok, hsame, -, hsize, -, rfl⟩
  · exact SameData.refl _ _
  · exact hsame.trans (Laid.take_sameData hok hsize)

theorem SameData.ite {c : Prop} [Decidable c] {g₁ g₂ : Heap} (h₁ : c → SameData live m g₁.mem)
    (h₂ : SameData live m g₂.mem) : SameData live m (if c then g₁ else g₂).mem := by
  split_ifs with hc
  · exact h₁ hc
  · exact h₂

theorem Laid.insert_sameData {b : Block} (hl : Laid h P (pre ++ post) (b :: live)) (g : Heap)
    (curr : ℕ) :
    SameData (b :: live) g.mem (insertBlock g b.addr (lastAddr 0 pre) curr).mem := by
  have hself : ∀ m m', OnlyHeader m m' b.addr → SameData (b :: live) m m' := fun m m' honly =>
    hl.sameData_header (by simp) honly
  have hprev : ∀ m n, lastAddr 0 pre ≠ 0 →
      SameData (b :: live) m (coalesce m (lastAddr 0 pre) n) := by
    intro m n hne
    rcases List.eq_nil_or_concat pre with rfl | ⟨ini, p, rfl⟩
    · exact absurd rfl hne
    · rw [List.concat_eq_append] at *
      rw [lastAddr_snoc]
      exact hl.sameData_header (by simp) (coalesce_only _ _ _)
  have hlink := (hself _ _ (setNext_only g.mem b.addr curr)).trans
    (setLink_sameData hl (show pre ⊆ pre ++ post ++ b :: live from fun c hc => by simp [hc])
      { g with mem := setNext g.mem b.addr curr } b.addr)
  have hnext : ∀ g₁ : Heap, SameData (b :: live) g.mem g₁.mem → ∀ n,
      SameData (b :: live) g.mem (coalesce g₁.mem b.addr n) :=
    fun g₁ hsame n => hsame.trans (hself _ _ (coalesce_only _ _ _))
  rw [insertBlock]
  refine SameData.ite (fun htouch => SameData.trans ?_ (hprev _ _ htouch.1)) ?_
  · exact SameData.ite (fun _ => hnext _ hlink _) hlink
  · exact SameData.ite (fun _ => hnext _ hlink _) hlink

theorem HeapOk.kfree_sameData {b : Block} (hl : HeapOk pmalloc h free (b :: live))
    (hres : Kmalloc.kfree b.payload h = some h') : SameData (b :: live) h.mem h'.mem := by
  have hlaid : Laid h (Pools pmalloc h.pmallocs) free (b :: live) := hl
  rw [hlaid.kfree_eq, Option.some.injEq] at hres
  rw [← below_append_notBelow b.addr free] at hlaid
  have hused : SameData (b :: live) h.mem (setUsed h.mem b.addr 0) :=
    hlaid.sameData_header (by simp) (setUsed_only _ _ _)
  rw [← hres]
  exact hused.trans (hlaid.insert_sameData { h with mem := setUsed h.mem b.addr 0 } _)

theorem HeapOk.kcalloc_sameData {nmemb size ptr : ℕ} (hl : HeapOk pmalloc h free live)
    (hreq : nmemb * size % 2 ^ 64 ≤ 16352)
    (hres : Kmalloc.kcalloc pmalloc fuel nmemb size h = some (ptr, h'))
    (hfresh : ∀ k < h'.pmallocs, FreshPool pmalloc k) :
    SameData live h.mem h'.mem ∧
      (ptr ≠ 0 → ∀ i < nmemb * size % 2 ^ 64, h'.mem (ptr + i) = 0) := by
  simp only [Kmalloc.kcalloc, Option.map_eq_some_iff, Prod.exists] at hres
  obtain ⟨q, h₁, hq, hret⟩ := hres
  split_ifs at hret with h0
  · cases hret
    exact ⟨hl.kmalloc_sameData hq hfresh, fun h => absurd h0 h⟩
  · cases hret
    obtain ⟨free', ⟨hz, -⟩ | ⟨c, rfl, hsize, hok⟩⟩ := hl.kmalloc hq hfresh
    · exact absurd hz h0
    · have hspan : ∀ x, x < c.addr ∨ c.fin ≤ x →
          fill h₁.mem c.payload (nmemb * size % 2 ^ 64) 0 x = h₁.mem x := by
        intro x hx
        apply fill_apart
        have hle : nmemb * size % 2 ^ 64 ≤ alignSize (nmemb * size % 2 ^ 64) :=
          le_alignSize (by omega)
        simp only [Block.fin, Block.payload] at hx ⊢
        omega
      have hapart := (List.pairwise_cons.mp (List.pairwise_append.mp (Laid.pairwise hok)).2.1).1
      refine ⟨(hl.kmalloc_sameData hq hfresh).trans (SameData.of_span hspan hapart),
        fun _ i hi => ?_⟩
      exact fill_inside _ ⟨by omega, by omega⟩

/-- The copy of the old data survives the release of the old block. -/
theorem HeapOk.move_sameData {b c : Block} (hl : HeapOk pmalloc h free (c :: b :: live))
    (hsize : b.size ≤ c.size) (hres : Kmalloc.kfree b.payload
      { h with mem := copy h.mem c.payload b.payload (header h.mem b.addr).size } = some h') :
    SameData (b :: live) h.mem h'.mem ∧
      ∀ i < b.size, h'.mem (c.payload + i) = h.mem (b.payload + i) := by
  rw [(Laid.live_hdr hl b (by simp)).size] at hres
  have hspan : ∀ x, x < c.payload ∨ c.fin ≤ x →
      copy h.mem c.payload b.payload b.size x = h.mem x := by
    intro x hx
    apply copy_apart
    have hend : c.fin = c.payload + c.size := rfl
    omega
  have hcopied : HeapOk pmalloc { h with mem := copy h.mem c.payload b.payload b.size } free
      (b :: c :: live) := Laid.perm_live (hl.payload _ (List.mem_cons_self) hspan)
    (List.Perm.swap b c live)
  have hapart := (List.pairwise_cons.mp (List.pairwise_append.mp (Laid.pairwise hl)).2.1).1
  have hfreed := hcopied.kfree_sameData hres
  have hcopy : SameData (b :: live) h.mem (copy h.mem c.payload b.payload b.size) :=
    SameData.of_span (fun x hx => hspan x (by simp only [Block.payload] at *; omega)) hapart
  refine ⟨hcopy.trans (hfreed.mono fun d hd => ?_), fun i hi => ?_⟩
  · rcases List.mem_cons.mp hd with rfl | hd
    · exact List.mem_cons_self
    · simp [hd]
  · have hend : c.fin = c.payload + c.size := rfl
    rw [hfreed c (by simp) (c.payload + i) (by omega) (by omega)]
    change copy h.mem c.payload b.payload b.size (c.payload + i) = _
    rw [copy, if_pos ⟨by omega, by omega⟩, Nat.add_sub_cancel_left]

theorem HeapOk.krealloc_sameData {b : Block} {size ptr : ℕ}
    (hl : HeapOk pmalloc h free (b :: live)) (hreq : size ≤ 16352)
    (hres : Kmalloc.krealloc pmalloc fuel b.payload size h = some (ptr, h'))
    (hfresh : ∀ k < h'.pmallocs, FreshPool pmalloc k) :
    SameData (b :: live) h.mem h'.mem ∧
      (ptr ≠ 0 → ∀ i < min b.size size, h'.mem (ptr + i) = h.mem (b.payload + i)) := by
  rcases krealloc_cases (Laid.live_hdr hl b (by simp)) hres with
    ⟨-, rfl, hfree⟩ | ⟨-, -, rfl, rfl⟩ | ⟨q, h₁, -, hlt, hk, ⟨rfl, rfl, rfl⟩ | ⟨hq, rfl, hfree⟩⟩
  · exact ⟨hl.kfree_sameData hfree, fun h => absurd rfl h⟩
  · exact ⟨SameData.refl _ _, fun _ _ _ => rfl⟩
  · exact ⟨hl.kmalloc_sameData hk hfresh, fun h => absurd rfl h⟩
  · have hcount := kfree_pmallocs hfree
    dsimp only at hcount
    have hfresh₁ : ∀ k < h₁.pmallocs, FreshPool pmalloc k := hcount ▸ hfresh
    have hsame := hl.kmalloc_sameData hk hfresh₁
    obtain ⟨free', ⟨hz, -⟩ | ⟨c, rfl, hcs, hok⟩⟩ := hl.kmalloc hk hfresh₁
    · exact absurd hz hq
    · have hle : size ≤ alignSize size := le_alignSize (by omega)
      obtain ⟨hkept, hcopy⟩ := HeapOk.move_sameData hok (by omega) hfree
      refine ⟨hsame.trans hkept, fun _ i hi => ?_⟩
      have hend : b.fin = b.payload + b.size := rfl
      rw [hcopy i (by omega), hsame b List.mem_cons_self (b.payload + i) (by omega) (by omega)]

def sizeAt (h : Heap) (ptr : ℕ) : ℕ := (header h.mem (ptr - blockHeaderSize)).size

def World.Undisturbed (w : World) (q : ℕ) (h' : Heap) : Prop :=
  ∀ p ∈ w.live, p ≠ q → ∀ i < sizeAt w.heap p, h'.mem (p + i) = w.heap.mem (p + i)

def World.KeepsData (pmalloc : ℕ → ℕ) (fuel : ℕ) (w : World) : Call → Prop
  | .kmalloc size => ∀ q h', Kmalloc.kmalloc pmalloc fuel size w.heap = some (q, h') →
      (∀ k < h'.pmallocs, FreshPool pmalloc k) → w.Undisturbed q h'
  | .kcalloc nmemb size => ∀ q h', Kmalloc.kcalloc pmalloc fuel nmemb size w.heap = some (q, h') →
      (∀ k < h'.pmallocs, FreshPool pmalloc k) → w.Undisturbed q h' ∧
        (q ≠ 0 → nmemb * size < 2 ^ 64 → ∀ i < nmemb * size, h'.mem (q + i) = 0)
  | .krealloc ptr size => ∀ q h', Kmalloc.krealloc pmalloc fuel ptr size w.heap = some (q, h') →
      (∀ k < h'.pmallocs, FreshPool pmalloc k) → w.Undisturbed q h' ∧
        (ptr ≠ 0 → q ≠ 0 → ∀ i < min (sizeAt w.heap ptr) size,
          h'.mem (q + i) = w.heap.mem (ptr + i))
  | .kfree ptr => ∀ h', Kmalloc.kfree ptr w.heap = some h' → w.Undisturbed 0 h'
  | .store _ _ _ => True

variable {w : World}

theorem SameData.undisturbed (hsame : SameData live w.heap.mem h'.mem)
    (hlaid : Laid w.heap P free live) (hlive : w.live.Perm (live.map Block.payload)) (q : ℕ) :
    w.Undisturbed q h' := by
  intro p hp _ i hi
  obtain ⟨b, hb, rfl⟩ := List.mem_map.mp (hlive.mem_iff.mp hp)
  have hend : b.fin = b.payload + b.size := rfl
  rw [sizeAt, b.payload_sub, (hlaid.live_hdr b hb).size] at hi
  exact hsame b hb (b.payload + i) (by omega) (by omega)

theorem World.Good.keepsData (hg : w.Good pmalloc) {c : Call} (hc : w.Permitted c) :
    w.KeepsData pmalloc fuel c := by
  cases c with
  | kmalloc size =>
    intro q h' hres hfresh
    obtain ⟨free, live, hl, hlive⟩ := hg
    exact (hl.kmalloc_sameData hres hfresh).undisturbed hl hlive q
  | kcalloc nmemb size =>
    intro q h' hres hfresh
    obtain ⟨free, live, hl, hlive⟩ := hg
    obtain ⟨hsame, hzero⟩ := hl.kcalloc_sameData hc hres hfresh
    refine ⟨hsame.undisturbed hl hlive q, fun hq hlt i hi => hzero hq i ?_⟩
    rwa [Nat.mod_eq_of_lt hlt]
  | krealloc ptr size =>
    intro q h' hres hfresh
    obtain ⟨rfl | hptr, hreq⟩ := hc
    · obtain ⟨free, live, hl, hlive⟩ := hg
      rw [Kmalloc.krealloc, if_pos rfl] at hres
      exact ⟨(hl.kmalloc_sameData hres hfresh).undisturbed hl hlive q, fun h => absurd rfl h⟩
    · obtain ⟨free, b, rest, rfl, hl, -, hlive⟩ := hg.focus hptr
      obtain ⟨hsame, hcopy⟩ := hl.krealloc_sameData hreq hres hfresh
      refine ⟨hsame.undisturbed hl hlive q, fun _ hq => ?_⟩
      rw [sizeAt, b.payload_sub, (Laid.live_hdr hl b (by simp)).size]
      exact hcopy hq
  | kfree ptr =>
    intro h' hres
    rcases hc with rfl | hptr
    · rw [Kmalloc.kfree, if_pos rfl] at hres
      cases hres
      exact fun _ _ _ _ _ => rfl
    · obtain ⟨free, b, rest, rfl, hl, -, hlive⟩ := hg.focus hptr
      exact (hl.kfree_sameData hres).undisturbed hl hlive 0
  | store ptr i v => trivial

/-- Whatever was called and stored before, the next call leaves the data of the clients
alone: it changes at most the block it returns, `kcalloc` clears that block, and
`krealloc` takes the data along. -/
theorem heap_keeps_data (pmalloc : ℕ → ℕ) (fuel : ℕ) (m : Mem) (calls : List Call) (w : World)
    (hok : Allowed (World.call pmalloc fuel) World.Permitted (World.start pmalloc m) calls)
    (hrun : run (World.call pmalloc fuel) (World.start pmalloc m) calls = some w)
    (hfresh : ∀ k < w.heap.pmallocs, FreshPool pmalloc k) (c : Call) (hc : w.Permitted c) :
    w.KeepsData pmalloc fuel c :=
  (run_good hok hrun hfresh).keepsData hc

theorem heap_keeps_data_realloc : ∃ w, run (World.call linearPages 2)
    (World.start linearPages fun _ => 0) [.kmalloc 100, .store 65560 7 9] = some w ∧
      w.KeepsData linearPages 2 (.krealloc 65560 200) := by
  have hend : (run (World.call linearPages 2) (World.start linearPages fun _ => 0)
      [.kmalloc 100, .store 65560 7 9]).map (fun w => (w.live, w.heap.pmallocs)) =
        some ([65560], 4) := by decide +kernel
  obtain ⟨w, hw, hvals⟩ := Option.map_eq_some_iff.mp hend
  obtain ⟨hlive, hcount⟩ := Prod.mk.inj hvals
  exact ⟨w, hw, heap_keeps_data linearPages 2 (fun _ => 0) _ w (by decide +kernel) hw
    (fun k hk => linearPages_fresh (by omega)) _ ⟨Or.inr (by simp [hlive]), by decide⟩⟩

end XldKernel.Kmalloc
