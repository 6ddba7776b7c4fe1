import XldKernel.HeapLayout

/-!
# What the allocator's block operations do to the layout

Each operation of `kernel/src/kmalloc.c` on blocks is one change of the free
list and the live blocks of a laid out heap: `split_block` and coalescing
replace neighbours of the list inside their own span, taking a block unlinks
it, and freeing one inserts it.
-/

namespace XldKernel.Kmalloc
open ByteMemory IntervalTiling LinkedPath
variable {h : Heap} {P : ℕ → Prop} {free live pre post : List Block}

theorem Block.Apart.header_eq {m m' : Mem} {b c : Block} (hbc : b.Apart c)
    (hm : ∀ x, x < b.addr ∨ b.fin ≤ x → m' x = m x) : header m' c.addr = header m c.addr := by
  apply header_congr
  intro x h1 h2
  apply hm
  simp only [Block.Apart, Block.fin] at *
  omega

/-- Replacing neighbours of the free list by blocks that tile the same span. -/
theorem Laid.replace {as : List Block} (bs : List Block) (m' : Mem)
    (hl : Laid h P (pre ++ as ++ post) live)
    (hout : ∀ c : Block, (∀ a ∈ as, a.Apart c) → header m' c.addr = header h.mem c.addr)
    (hpath : ∀ r, Path (nextOf h.mem) r (as.map Block.addr) (headAddr post) →
      Path (nextOf m') r (bs.map Block.addr) (headAddr post))
    (hdesc : ∀ b ∈ bs, Describes m' 0 b)
    (htiles : ∀ is, Tiles (as.map Block.interval ++ is) P →
      Tiles (bs.map Block.interval ++ is) P) :
    Laid { h with mem := m' } P (pre ++ bs ++ post) live := by
  obtain ⟨hfree, -, hlive⟩ := List.pairwise_append.mp hl.pairwise
  obtain ⟨hpreas, -, hpost⟩ := List.pairwise_append.mp hfree
  have hpre := (List.pairwise_append.mp hpreas).2.2
  have epre : ∀ c ∈ pre, header m' c.addr = header h.mem c.addr := fun c hc =>
    hout c fun a ha => (hpre c hc a ha).symm
  have epost : ∀ c ∈ post, header m' c.addr = header h.mem c.addr := fun c hc =>
    hout c fun a ha => hpost a (by simp [ha]) c hc
  have elive : ∀ c ∈ live, header m' c.addr = header h.mem c.addr := fun c hc =>
    hout c fun a ha => hlive a (by simp [ha]) c hc
  have hold := hl.path
  rw [List.map_append, List.map_append, path_append] at hold
  obtain ⟨s, hboth, hback⟩ := hold
  obtain ⟨r, hfront, hmid⟩ := path_append.mp hboth
  obtain rfl := path_start hback
  refine ⟨?_, ?_, ?_, ?_, hl.bounded⟩
  · rw [List.map_append, List.map_append, path_append]
    refine ⟨_, path_append.mpr ⟨r, hfront.congr ?_, hpath r hmid⟩, hback.congr ?_⟩
    · intro a ha
      obtain ⟨c, hc, rfl⟩ := List.mem_map.mp ha
      exact nextOf_eq (epre c hc)
    · intro a ha
      obtain ⟨c, hc, rfl⟩ := List.mem_map.mp ha
      exact nextOf_eq (epost c hc)
  · intro c hc
    rcases List.mem_append.mp hc with hc | hc
    · rcases List.mem_append.mp hc with hc | hc
      · exact (hl.free_hdr c (by simp [hc])).of_header_eq (epre c hc)
      · exact hdesc c hc
    · exact (hl.free_hdr c (by simp [hc])).of_header_eq (epost c hc)
  · exact fun c hc => (hl.live_hdr c hc).of_header_eq (elive c hc)
  · have hperm : ∀ xs : List Block, (pre ++ xs ++ post ++ live).Perm
        (xs ++ (pre ++ (post ++ live))) := by
      intro xs
      simp only [List.append_assoc]
      rw [← List.append_assoc, ← List.append_assoc xs]
      exact List.perm_append_comm.append_right _
    have hnew := htiles ((pre ++ (post ++ live)).map Block.interval) (by
      rw [← List.map_append]
      exact hl.tiles.perm ((hperm as).map _))
    rw [← List.map_append] at hnew
    exact hnew.perm ((hperm bs).symm.map _)

theorem splitBlock_spec {m : Mem} {a size : ℕ} {b : Header} (hb : header m a = b)
    (hfit : size + blockHeaderSize + kmallocMinSize ≤ b.size)
    (hroom : a + blockHeaderSize + b.size ≤ 2 ^ 64) :
    header (splitBlock m a size) a = { b with size := size, next := a + blockHeaderSize + size } ∧
    header (splitBlock m a size) (a + blockHeaderSize + size) =
      ⟨b.size - size - blockHeaderSize, b.next, 0, blockMagic⟩ ∧
    ∀ x, x < a ∨ a + blockHeaderSize + b.size ≤ x → splitBlock m a size x = m x := by
  simp only [blockHeaderSize, kmallocMinSize] at hfit hroom
  set nb := a + blockHeaderSize + size with hnb
  have hnb' : nb = a + 24 + size := hnb
  set m1 := writeHeader m nb (b.size - size - blockHeaderSize) b.next with hm1
  have hnext : b.next < 2 ^ 64 := by rw [← hb]; exact load_lt _ _ _
  have hm : splitBlock m a size = setNext (setSize m1 a size) a nb := by
    have hno : ¬ b.size < (size + blockHeaderSize + kmallocMinSize) % 2 ^ 64 := by
      simp only [blockHeaderSize, kmallocMinSize]
      omega
    rw [splitBlock, hb, if_neg hno]
  have honly1 : OnlyHeader m m1 nb := writeHeader_only _ _ _ _
  have honly2 := (setSize_only m1 a size).trans (setNext_only (setSize m1 a size) a nb)
  refine ⟨?_, ?_, ?_⟩
  · rw [hm, header_setNext, header_setSize,
      honly1.header_eq (Or.inl (by simp only [blockHeaderSize]; omega)), hb,
      Nat.mod_eq_of_lt (by omega), Nat.mod_eq_of_lt (by omega)]
  · rw [hm, honly2.header_eq (Or.inr (by simp only [blockHeaderSize]; omega)), hm1,
      header_writeHeader, Nat.mod_eq_of_lt (by omega), Nat.mod_eq_of_lt hnext]
  · intro x hx
    rw [hm, honly2 x (by simp only [blockHeaderSize] at *; omega),
      honly1 x (by simp only [blockHeaderSize] at *; omega)]

theorem Laid.split {b : Block} {size : ℕ} (hl : Laid h P (pre ++ b :: post) live)
    (hfit : size + blockHeaderSize + kmallocMinSize ≤ b.size) :
    Laid { h with mem := splitBlock h.mem b.addr size } P
      (pre ++ ⟨b.addr, size⟩ :: ⟨b.addr + blockHeaderSize + size,
        b.size - size - blockHeaderSize⟩ :: post) live := by
  have hb := hl.free_hdr b (by simp)
  have hroom := (hl.room (b := b) (by simp)).2
  have hfit' : size + 24 + 16 ≤ b.size := hfit
  obtain ⟨hold, hnew, hout⟩ := splitBlock_spec (m := h.mem) (a := b.addr) rfl
    (by rw [hb.size]; exact hfit) (by rw [hb.size]; exact hroom)
  rw [hb.size] at hnew hout
  have hcast : pre ++ b :: post = pre ++ [b] ++ post := by simp
  rw [hcast] at hl
  have hres := hl.replace [⟨b.addr, size⟩, ⟨b.addr + blockHeaderSize + size,
    b.size - size - blockHeaderSize⟩] (splitBlock h.mem b.addr size) ?_ ?_ ?_ ?_
  · simpa using hres
  · intro c hc
    exact Block.Apart.header_eq (hc b (by simp)) hout
  · intro r hr
    simp only [List.map_cons, List.map_nil, path_cons, path_nil] at hr ⊢
    exact ⟨hr.1, by rw [nextOf, hold], by rw [nextOf, hnew]; exact hr.2⟩
  · intro c hc
    simp only [List.mem_cons, List.not_mem_nil, or_false] at hc
    rcases hc with rfl | rfl
    · exact ⟨by rw [hold], by rw [hold]; exact hb.used, by rw [hold]; exact hb.magic⟩
    · exact ⟨by rw [hnew], by rw [hnew], by rw [hnew]⟩
  · intro is his
    have hcut := his.split (m := b.addr + blockHeaderSize + size)
      (by simp only [blockHeaderSize]; omega)
      (by simp only [Block.fin, blockHeaderSize]; omega)
    have hend : b.addr + blockHeaderSize + size + blockHeaderSize +
        (b.size - size - blockHeaderSize) = b.fin := by
      simp only [Block.fin, blockHeaderSize]
      omega
    simp only [List.map_cons, List.map_nil, Block.interval, Block.fin] at hend ⊢
    simp only [hend]
    exact hcut

theorem coalesce_spec {m : Mem} {a n : ℕ} {b c : Header} (hb : header m a = b)
    (hc : header m n = c) (han : a + blockHeaderSize ≤ n)
    (hroom : b.size + blockHeaderSize + c.size < 2 ^ 64) :
    header (coalesce m a n) a =
      { b with size := b.size + blockHeaderSize + c.size, next := c.next } ∧
    OnlyHeader m (coalesce m a n) a := by
  have hnext : c.next < 2 ^ 64 := by rw [← hc]; exact load_lt _ _ _
  have hn : header (setSize m a (b.size + blockHeaderSize + c.size)) n = c :=
    ((setSize_only m a _).header_eq (Or.inr han)).trans hc
  simp only [coalesce, hb, hc, hn]
  refine ⟨?_, (setSize_only m a _).trans (setNext_only _ a _)⟩
  rw [header_setNext, header_setSize, hb, Nat.mod_eq_of_lt hroom, Nat.mod_eq_of_lt hnext]

theorem Laid.join {b c : Block} (hl : Laid h P (pre ++ b :: c :: post) live)
    (htouch : b.fin = c.addr) :
    Laid { h with mem := coalesce h.mem b.addr c.addr } P
      (pre ++ ⟨b.addr, b.size + blockHeaderSize + c.size⟩ :: post) live := by
  have hb := hl.free_hdr b (by simp)
  have hc := hl.free_hdr c (by simp)
  have hbpos := (hl.room (b := b) (by simp)).1
  have hroom := (hl.room (b := c) (by simp)).2
  have htouch' : b.addr + 24 + b.size = c.addr := htouch
  have hroom' : c.addr + 24 + c.size ≤ 2 ^ 64 := hroom
  obtain ⟨hnew, honly⟩ := coalesce_spec (m := h.mem) (a := b.addr) (n := c.addr) rfl rfl
    (by simp only [blockHeaderSize]; omega)
    (by rw [hb.size, hc.size]; simp only [blockHeaderSize]; omega)
  rw [hb.size, hc.size] at hnew
  have hcast : pre ++ b :: c :: post = pre ++ [b, c] ++ post := by simp
  rw [hcast] at hl
  have hres := hl.replace [⟨b.addr, b.size + blockHeaderSize + c.size⟩]
    (coalesce h.mem b.addr c.addr) ?_ ?_ ?_ ?_
  · simpa using hres
  · intro d hd
    exact honly.header_eq (hd b (by simp)).symm.sep
  · intro r hr
    simp only [List.map_cons, List.map_nil, path_cons, path_nil] at hr ⊢
    exact ⟨hr.1, by rw [nextOf, hnew]; exact hr.2.2⟩
  · intro d hd
    rw [List.mem_singleton] at hd
    subst hd
    exact ⟨by rw [hnew], by rw [hnew]; exact hb.used, by rw [hnew]; exact hc.magic ▸ hb.magic⟩
  · intro is his
    have hend : b.addr + blockHeaderSize + (b.size + blockHeaderSize + c.size) = c.fin := by
      simp only [Block.fin, blockHeaderSize]
      omega
    simp only [List.map_cons, List.map_nil, List.cons_append, List.nil_append, Block.interval,
      htouch] at his
    simp only [List.map_cons, List.map_nil, Block.interval, Block.fin] at hend ⊢
    simp only [hend]
    exact his.join

theorem Laid.unlink {b : Block} (hl : Laid h P (pre ++ b :: post) live) :
    Laid (setLink { h with mem := setUsed h.mem b.addr 1 } (lastAddr 0 pre)
      (nextOf h.mem b.addr)) P (pre ++ post) (b :: live) := by
  have hb := hl.free_hdr b (by simp)
  have hperm : (pre ++ b :: post ++ live).Perm (b :: (pre ++ post ++ live)) := by
    simp
  have hpair := (hperm.pairwise_iff fun h => Block.Apart.symm h).mp hl.pairwise
  obtain ⟨hbout, hrest⟩ := List.pairwise_cons.mp hpair
  have hout : ∀ c ∈ pre ++ post ++ live,
      header (setUsed h.mem b.addr 1) c.addr = header h.mem c.addr := fun c hc =>
    (setUsed_only h.mem b.addr 1).header_eq (hbout c hc).symm.sep
  have hpath := hl.path
  rw [List.map_append, List.map_cons] at hpath
  obtain ⟨hfront, hback⟩ := hpath.split
  have hv : nextOf h.mem b.addr < 2 ^ 64 := load_lt _ _ _
  refine ⟨?_, ?_, ?_, ?_, hl.bounded⟩
  · refine setLink_path (x := b.addr) (hfront.congr ?_) (hback.congr ?_)
      (List.pairwise_append.mp hrest).1 ?_ hv
    · intro a ha
      obtain ⟨c, hc, rfl⟩ := List.mem_map.mp ha
      exact nextOf_eq (hout c (by simp [hc]))
    · intro a ha
      obtain ⟨c, hc, rfl⟩ := List.mem_map.mp ha
      exact nextOf_eq (hout c (by simp [hc]))
    · exact fun c hc => (hl.room (by simp [hc])).1.ne'
  · intro c hc
    have hmem : c ∈ pre ++ post ++ live := List.mem_append_left _ hc
    have hfree : c ∈ pre ++ b :: post := by
      rcases List.mem_append.mp hc with hc | hc <;> simp [hc]
    exact setLink_describes ((hl.free_hdr c hfree).of_header_eq (hout c hmem))
      (headerSep_lastAddr hl.pairwise (fun x hx => by simp [hx]) (List.mem_append_left _ hfree))
  · intro c hc
    rcases List.mem_cons.mp hc with rfl | hc
    · refine setLink_describes ?_
        (headerSep_lastAddr hl.pairwise (fun x hx => by simp [hx]) (by simp))
      exact ⟨by simpa using hb.size, by simp, by simpa using hb.magic⟩
    · exact setLink_describes ((hl.live_hdr c hc).of_header_eq (hout c (by simp [hc])))
        (headerSep_lastAddr hl.pairwise (fun x hx => by simp [hx]) (by simp [hc]))
  · exact hl.tiles.perm ((hperm.trans List.perm_middle.symm).map _)

theorem Laid.insert {b : Block} (hl : Laid h P (pre ++ post) (b :: live)) :
    Laid (setLink { h with mem := setNext (setUsed h.mem b.addr 0) b.addr (headAddr post) }
      (lastAddr 0 pre) b.addr) P (pre ++ b :: post) live := by
  set m := setNext (setUsed h.mem b.addr 0) b.addr (headAddr post) with hm
  have hb := hl.live_hdr b (by simp)
  have hperm : (pre ++ post ++ b :: live).Perm (b :: (pre ++ post ++ live)) := List.perm_middle
  have hpair := (hperm.pairwise_iff fun h => Block.Apart.symm h).mp hl.pairwise
  obtain ⟨hbout, hrest⟩ := List.pairwise_cons.mp hpair
  have hout : ∀ c ∈ pre ++ post ++ live, header m c.addr = header h.mem c.addr := fun c hc =>
    ((setUsed_only h.mem b.addr 0).trans (setNext_only _ b.addr _)).header_eq (hbout c hc).symm.sep
  have hself : header m b.addr =
      { header h.mem b.addr with next := headAddr post % 2 ^ 64, used := 0 } := by simp [hm]
  have hpath := hl.path
  rw [List.map_append, path_append] at hpath
  obtain ⟨r, hfront, hback⟩ := hpath
  obtain rfl := path_start hback
  have hhead : headAddr post < 2 ^ 64 := by
    cases post with
    | nil => norm_num [headAddr]
    | cons c cs => exact hl.addr_lt (by simp)
  have hpair' : (pre ++ b :: post ++ live).Pairwise Block.Apart := by
    have hp : (pre ++ b :: post ++ live).Perm (b :: (pre ++ post ++ live)) := by
      simp
    exact (hp.pairwise_iff fun h => Block.Apart.symm h).mpr hpair
  refine ⟨?_, ?_, ?_, ?_, hl.bounded⟩
  · refine setLink_path (h := { h with mem := m }) (hfront.congr ?_) ?_
      (List.pairwise_append.mp hpair').1 ?_ (hl.addr_lt (by simp))
    · intro a ha
      obtain ⟨c, hc, rfl⟩ := List.mem_map.mp ha
      exact nextOf_eq (hout c (by simp [hc]))
    · refine ⟨rfl, ?_⟩
      rw [nextOf, hself]
      simp only [Nat.mod_eq_of_lt hhead]
      refine hback.congr ?_
      intro a ha
      obtain ⟨c, hc, rfl⟩ := List.mem_map.mp ha
      exact nextOf_eq (hout c (by simp [hc]))
    · exact fun c hc => (hl.room (by simp [hc])).1.ne'
  · intro c hc
    refine setLink_describes ?_
      (headerSep_lastAddr hpair' (fun x hx => by simp [hx]) (List.mem_append_left _ hc))
    by_cases hcb : c = b
    · subst hcb
      exact ⟨by rw [hself]; exact hb.size, by rw [hself], by rw [hself]; exact hb.magic⟩
    · have hc' : c ∈ pre ++ post := by
        simp only [List.mem_append, List.mem_cons, hcb, false_or] at hc ⊢
        exact hc
      exact (hl.free_hdr c hc').of_header_eq (hout c (List.mem_append_left _ hc'))
  · intro c hc
    exact setLink_describes ((hl.live_hdr c (by simp [hc])).of_header_eq (hout c (by simp [hc])))
      (headerSep_lastAddr hpair' (fun x hx => by simp [hx]) (by simp [hc]))
  · refine hl.tiles.perm ((hperm.trans ?_).map _)
    simpa using List.perm_middle.symm

theorem Laid.payload {b : Block} (m' : Mem) (hl : Laid h P free live) (hb : b ∈ live)
    (hm : ∀ x, x < b.addr + blockHeaderSize ∨ b.fin ≤ x → m' x = h.mem x) :
    Laid { h with mem := m' } P free live := by
  have hhdr : ∀ c ∈ free ++ live, header m' c.addr = header h.mem c.addr := by
    intro c hc
    apply header_congr
    intro x h1 h2
    apply hm
    rcases eq_or_apart hl.pairwise hc (List.mem_append_right _ hb) with rfl | hap
    · exact Or.inl h2
    · simp only [Block.Apart, Block.fin] at *
      omega
  refine ⟨hl.path.congr ?_, ?_, ?_, hl.tiles, hl.bounded⟩
  · intro a ha
    obtain ⟨c, hc, rfl⟩ := List.mem_map.mp ha
    exact nextOf_eq (hhdr c (by simp [hc]))
  · exact fun c hc => (hl.free_hdr c hc).of_header_eq (hhdr c (by simp [hc]))
  · exact fun c hc => (hl.live_hdr c hc).of_header_eq (hhdr c (by simp [hc]))

end XldKernel.Kmalloc
