import XldKernel.FatFile

/-!
# FAT32: names and new directory entries

What `to_8_3` yields for a component of a path, and what an entry written into a
slot reads back as.
-/

namespace XldKernel.Fat32
open ByteMemory BlockDevice

section Put
variable (b : Mem) (a : ℕ) (d : Dirent)

theorem putDirent_apart (hname : d.name.length = 11) {x : ℕ}
    (hx : x < a ∨ a + dirEntrySize ≤ x) : putDirent b a d x = b x := by
  simp only [dirEntrySize] at hx
  simp only [putDirent]
  rw [store_apart _ (by omega), store_apart _ (by omega), store_apart _ (by omega),
    Function.update_of_ne (by omega), write_apart _ (by omega),
    fill_apart _ (by simp only [dirEntrySize]; omega)]

theorem direntAt_putDirent (hname : d.name.length = 11) (hhi : d.clusterHi < 2 ^ 16)
    (hlo : d.clusterLo < 2 ^ 16) (hsize : d.size < 2 ^ 32) :
    direntAt (putDirent b a d) a = d := by
  have hhead : ∀ x, x < a + 20 → putDirent b a d x =
      Function.update (write (fill b a dirEntrySize 0) a d.name) (a + 11) d.attr x := by
    intro x hx
    simp only [putDirent]
    rw [store_apart _ (by omega), store_apart _ (by omega), store_apart _ (by omega)]
  have hread : read (putDirent b a d) a 11 = d.name := by
    have hcongr : read (putDirent b a d) a 11 =
        read (write (fill b a dirEntrySize 0) a d.name) a 11 :=
      read_congr fun i hi => by
        rw [hhead _ (by omega), Function.update_of_ne (by omega)]
    have hself := read_write_self (fill b a dirEntrySize 0) a d.name
    rw [hname] at hself
    rw [hcongr, hself]
  have hattr : putDirent b a d (a + 11) = d.attr := by
    rw [hhead _ (by omega), Function.update_self]
  have h20 : load (putDirent b a d) (a + 20) 2 = d.clusterHi := by
    simp only [putDirent]
    rw [load_store_apart _ (by omega), load_store_apart _ (by omega), load_store_self]
    exact Nat.mod_eq_of_lt hhi
  have h26 : load (putDirent b a d) (a + 26) 2 = d.clusterLo := by
    simp only [putDirent]
    rw [load_store_apart _ (by omega), load_store_self]
    exact Nat.mod_eq_of_lt hlo
  have h28 : load (putDirent b a d) (a + 28) 4 = d.size := by
    simp only [putDirent]
    rw [load_store_self]
    exact Nat.mod_eq_of_lt hsize
  rw [direntAt, hread, hattr, h20, h26, h28]

end Put

theorem sector_putDirent (m : Mem) (s i : ℕ) (d : Dirent) :
    sector (putDirent m (sectorSize * s + i) d) s = putDirent (sector m s) i d := by
  simp only [putDirent, Nat.add_assoc, sector_store, sector_update, sector_write, sector_fill]

theorem putSector_putDirent (m : Mem) {s i : ℕ} {d : Dirent} (hname : d.name.length = 11)
    (hi : i + dirEntrySize ≤ sectorSize) :
    putSector m s (putDirent (sector m s) i d) = putDirent m (sectorSize * s + i) d := by
  rw [← sector_putDirent]
  exact putSector_sector fun x hx => putDirent_apart m _ d hname (by omega)

theorem newDirent_cluster (name : List UInt8) (attr : UInt8) {c : ℕ} (hc : c < 2 ^ 32) :
    (newDirent name attr c).cluster = c := by
  simp only [newDirent, Dirent.cluster]
  omega

theorem direntAt_new (b : Mem) (a : ℕ) {name : List UInt8} (attr : UInt8) (c : ℕ)
    (hname : name.length = 11) :
    direntAt (putDirent b a (newDirent name attr c)) a = newDirent name attr c :=
  direntAt_putDirent b a _ hname (Nat.mod_lt _ (by decide)) (Nat.mod_lt _ (by decide))
    (by simp [newDirent])

def Printable (path : List UInt8) : Prop := ∀ c ∈ path, 32 ≤ c ∧ c ≤ 126

theorem upcase_cases (c : UInt8) :
    (c ≠ 0 → upcase c ≠ 0) ∧ upcase c ≠ 32 ∧ (upcase c = 46 → c = 46) ∧
      (c ≤ 126 → upcase c ≠ 0xE5) := by
  revert c
  apply forall_byte
  decide +kernel

theorem padTo_length (n : ℕ) (cs : List UInt8) : (padTo n cs).length = n := by
  simp only [padTo, List.length_append, List.length_map, List.length_take, List.length_replicate]
  omega

theorem to83_length (src : List UInt8) : (to83 src).length = 11 := by
  simp only [to83]
  split_ifs <;> simp [padTo_length]

theorem padTo_ne_zero {n : ℕ} {cs : List UInt8} (hcs : 0 ∉ cs) : ∀ c ∈ padTo n cs, c ≠ 0 := by
  intro c hc
  rcases List.mem_append.mp hc with hc | hc
  · obtain ⟨x, hx, rfl⟩ := List.mem_map.mp hc
    refine (upcase_cases x).1 ?_
    rintro rfl
    exact hcs (List.mem_of_mem_take hx)
  · rw [List.eq_of_mem_replicate hc]
    decide

theorem to83_ne_zero {src : List UInt8} (hsrc : 0 ∉ src) : ∀ c ∈ to83 src, c ≠ 0 := by
  intro c hc
  simp only [to83] at hc
  split_ifs at hc
  · rcases List.mem_append.mp hc with hc | hc
    · exact padTo_ne_zero (fun hx => hsrc (List.mem_of_mem_take hx)) c hc
    · exact padTo_ne_zero (fun hx => hsrc (List.mem_of_mem_drop hx)) c hc
  · rcases List.mem_append.mp hc with hc | hc
    · exact padTo_ne_zero hsrc c hc
    · rw [List.eq_of_mem_replicate hc]
      decide

theorem padTo_cons (n : ℕ) (c : UInt8) (cs : List UInt8) :
    padTo (n + 1) (c :: cs) = upcase c :: padTo n cs := by
  simp [padTo]

theorem to83_cons (c : UInt8) (cs : List UInt8) : ∃ t, to83 (c :: cs) = upcase c :: t := by
  simp only [to83]
  split_ifs with h
  · obtain ⟨k, hk⟩ := Nat.exists_eq_succ_of_ne_zero h.2
    rw [hk, List.take_succ_cons, padTo_cons]
    exact ⟨_, rfl⟩
  · rw [padTo_cons]
    exact ⟨_, rfl⟩

/-- The names of the two dot entries, as this driver and as other systems write them. -/
def dotNames : List (List UInt8) :=
  [dotName, dotdotName, 46 :: List.replicate 10 32, 46 :: 46 :: List.replicate 9 32]

theorem to83_dot (cs : List UInt8) :
    to83 (46 :: cs) = 46 :: (padTo 7 cs ++ List.replicate 3 32) := by
  have h0 : ¬ ((46 :: cs : List UInt8).idxOf 46 < (46 :: cs).length ∧
      (46 :: cs : List UInt8).idxOf 46 ≠ 0) := by simp
  simp only [to83, if_neg h0, padTo_cons]
  rfl

theorem to83_notMem_dotNames {src : List UInt8} (hsrc : 0 ∉ src) (hne : src ≠ [])
    (hdot : src ≠ [46]) (hdotdot : src ≠ [46, 46]) : to83 src ∉ dotNames := by
  intro hmem
  have hzero := to83_ne_zero hsrc
  obtain ⟨c, cs, rfl⟩ := List.exists_cons_of_ne_nil hne
  obtain ⟨t, ht⟩ := to83_cons c cs
  have hfirst : upcase c = 46 → c = 46 := (upcase_cases c).2.2.1
  simp only [dotNames, List.mem_cons, List.not_mem_nil, or_false] at hmem
  rcases hmem with h | h | h | h
  · rw [h] at hzero
    exact hzero 0 (by decide) rfl
  · rw [h] at hzero
    exact hzero 0 (by decide) rfl
  · have hc : c = 46 := hfirst (by rw [ht] at h; exact (List.cons.inj h).1)
    subst hc
    cases cs with
    | nil => exact hdot rfl
    | cons c₂ cs =>
      rw [to83_dot, padTo_cons] at h
      have h2 := (List.cons.inj (List.cons.inj h).2).1
      exact (upcase_cases c₂).2.1 h2
  · have hc : c = 46 := hfirst (by rw [ht] at h; exact (List.cons.inj h).1)
    subst hc
    cases cs with
    | nil => exact hdot rfl
    | cons c₂ cs =>
      rw [to83_dot, padTo_cons] at h
      have h2 := (List.cons.inj (List.cons.inj h).2).1
      have hc₂ : c₂ = 46 := (upcase_cases c₂).2.2.1 h2
      subst hc₂
      cases cs with
      | nil => exact hdotdot rfl
      | cons c₃ cs =>
        rw [padTo_cons] at h
        have h3 := (List.cons.inj (List.cons.inj (List.cons.inj h).2).2).1
        exact (upcase_cases c₃).2.1 h3

structure DotFree (path : List UInt8) : Prop where
  nul : 0 ∉ path
  no_dots : ∀ comp ∈ path.splitOn slash, comp ≠ [46] ∧ comp ≠ [46, 46]

instance (path : List UInt8) : Decidable (DotFree path) :=
  decidable_of_iff (0 ∉ path ∧ ∀ comp ∈ path.splitOn slash, comp ≠ [46] ∧ comp ≠ [46, 46])
    ⟨fun h => ⟨h.1, h.2⟩, fun h => ⟨h.nul, h.no_dots⟩⟩

structure PlainPath (path : List UInt8) : Prop where
  printable : Printable path
  no_dots : ∀ comp ∈ path.splitOn slash, comp ≠ [46] ∧ comp ≠ [46, 46]

theorem Printable.nul {path : List UInt8} (h : Printable path) : 0 ∉ path :=
  fun h0 => absurd (h 0 h0).1 (by decide)

theorem PlainPath.dotFree {path : List UInt8} (h : PlainPath path) : DotFree path :=
  ⟨h.printable.nul, h.no_dots⟩

instance (path : List UInt8) : Decidable (Printable path) :=
  inferInstanceAs (Decidable (∀ c ∈ path, _))

instance (path : List UInt8) : Decidable (PlainPath path) :=
  decidable_of_iff (Printable path ∧ ∀ comp ∈ path.splitOn slash, comp ≠ [46] ∧ comp ≠ [46, 46])
    ⟨fun h => ⟨h.1, h.2⟩, fun h => ⟨h.printable, h.no_dots⟩⟩

end XldKernel.Fat32
