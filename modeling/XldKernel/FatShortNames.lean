import XldKernel.FatOpenFailure
import XldKernel.FatListedNames

/-!
# FAT32: what an 8.3 name keeps of a path component

Source: `kernel/src/fat32.c` (`to_8_3`) and `kernel/src/fat32_ls.c`
(`fat32_name_to_string`). The conversion keeps eight characters of what stands before the
first dot and three of what stands behind it, in upper case and with underscores for
blanks. Names that fit are read back from the entry, and two components with the same
characters in these places name the same file.
-/

namespace XldKernel.Fat32
open ByteMemory BlockDevice LinkedPath
variable {base ext a b : List UInt8} {n : ℕ}

def asciiUpper (c : UInt8) : UInt8 := if 97 ≤ c ∧ c ≤ 122 then c - 32 else c

def nameFields (src : List UInt8) : List UInt8 × List UInt8 :=
  let dot := src.idxOf 46
  if dot < src.length ∧ dot ≠ 0 then (src.take dot, src.drop (dot + 1)) else (src, [])

theorem to83_fields (src : List UInt8) :
    to83 src = padTo 8 (nameFields src).1 ++ padTo 3 (nameFields src).2 := by
  rw [to83, nameFields]
  split_ifs <;> rfl

theorem nameFields_base (hdot : 46 ∉ base) : nameFields base = (base, []) := by
  have hidx : ¬ (base.idxOf 46 < base.length ∧ base.idxOf 46 ≠ 0) := fun h =>
    hdot (List.idxOf_lt_length_iff.mp h.1)
  rw [nameFields]
  exact if_neg hidx

theorem nameFields_ext (hdot : 46 ∉ base) (hne : base ≠ []) (ext : List UInt8) :
    nameFields (base ++ 46 :: ext) = (base, ext) := by
  have hidx : (base ++ 46 :: ext).idxOf 46 = base.length := by
    rw [List.idxOf_append_of_notMem hdot, List.idxOf_cons_self, Nat.add_zero]
  have hpos : base.length ≠ 0 := fun h => hne (List.length_eq_zero_iff.mp h)
  rw [nameFields, hidx, if_pos ⟨by simp, hpos⟩, List.take_left, ← List.drop_drop, List.drop_left]
  rfl

theorem padTo_takeWhile (n : ℕ) (cs : List UInt8) :
    (padTo n cs).takeWhile (· ≠ 32) = (cs.take n).map upcase := by
  have hkeep : ∀ c ∈ (cs.take n).map upcase, decide (c ≠ 32) = true := by
    intro c hc
    obtain ⟨x, -, rfl⟩ := List.mem_map.mp hc
    exact decide_eq_true (upcase_cases x).2.1
  rw [padTo, List.takeWhile_append_of_pos hkeep, List.takeWhile_replicate]
  simp

theorem padTo_inj {cs ds : List UInt8} :
    padTo n cs = padTo n ds ↔ (cs.take n).map upcase = (ds.take n).map upcase := by
  constructor
  · intro h
    rw [← padTo_takeWhile, h, padTo_takeWhile]
  · intro h
    have hlen : (cs.take n).length = (ds.take n).length := by simpa using congrArg List.length h
    rw [List.length_take, List.length_take] at hlen
    rw [padTo, padTo, h, show n - cs.length = n - ds.length by omega]

def Padded (field : List UInt8) : Prop := ∀ c ∈ field.dropWhile (· ≠ 32), c = 32

theorem padTo_padded {field : List UInt8} (hpad : Padded field)
    (hlower : ∀ c ∈ field, ¬ (97 ≤ c ∧ c ≤ 122)) :
    padTo field.length (field.takeWhile (· ≠ 32)) = field := by
  have hsame : ∀ c ∈ field.takeWhile (· ≠ 32), upcase c = c := by
    intro c hc
    have hblank : c ≠ 32 := by simpa using List.mem_takeWhile_imp hc
    rw [upcase, if_neg (hlower c ((List.takeWhile_prefix _).subset hc))]
    exact if_neg hblank
  have hlen : (field.takeWhile (· ≠ 32)).length + (field.dropWhile (· ≠ 32)).length =
      field.length := by
    rw [← List.length_append, List.takeWhile_append_dropWhile]
  have hrest : field.dropWhile (· ≠ 32) =
      List.replicate (field.length - (field.takeWhile (· ≠ 32)).length) 32 := by
    rw [List.eq_replicate_iff]
    exact ⟨by omega, hpad⟩
  rw [padTo, List.take_of_length_le (by omega), List.map_congr_left hsame, List.map_id', ← hrest,
    List.takeWhile_append_dropWhile]

instance (field : List UInt8) : Decidable (Padded field) := inferInstanceAs (Decidable (∀ c ∈ _, _))

theorem map_upcase (h : 32 ∉ base) : base.map upcase = base.map asciiUpper := by
  refine List.map_congr_left fun c hc => ?_
  have hblank : asciiUpper c ≠ 32 := by
    intro heq
    rw [asciiUpper] at heq
    split_ifs at heq with hletter
    · have hc64 : c = 64 := by
        have := congrArg (· + 32) heq
        simpa using this
      rw [hc64] at hletter
      exact absurd hletter (by decide)
    · exact h (heq ▸ hc)
  rw [upcase]
  exact if_neg hblank

def dotted (base ext : List UInt8) : List UInt8 := if ext = [] then base else base ++ 46 :: ext

theorem nameFields_dotted (hdot : 46 ∉ base) (hne : base ≠ []) (ext : List UInt8) :
    nameFields (dotted base ext) = (base, ext) := by
  rw [dotted]
  split_ifs with hext
  · rw [nameFields_base hdot, hext]
  · exact nameFields_ext hdot hne ext

theorem nameToString_dotted (de : Dirent) (hlen : de.name.length = 11) :
    nameToString de = dotted ((de.name.take 8).takeWhile (· ≠ 32))
      ((de.name.drop 8).takeWhile (· ≠ 32)) := by
  obtain ⟨c, ext, hext⟩ := List.exists_cons_of_ne_nil (show de.name.drop 8 ≠ [] by
    rw [← List.length_pos_iff, List.length_drop, hlen]
    decide)
  rw [nameToString, dotted, hext]
  by_cases hc : c = 32
  · simp [hc]
  · simp [hc]

theorem asciiUpper_dotted (base ext : List UInt8) :
    (dotted base ext).map asciiUpper = dotted (base.map asciiUpper) (ext.map asciiUpper) := by
  have hdot : asciiUpper 46 = 46 := by decide
  by_cases hext : ext = []
  · simp [dotted, hext]
  · simp [dotted, hext, hdot]

theorem nameToString_to83 (hpos : 1 ≤ base.length) (hbase : base.length ≤ 8) (hext : ext.length ≤ 3)
    (hdot : 46 ∉ base) (hblank : 32 ∉ base ∧ 32 ∉ ext) {de : Dirent}
    (hname : de.name = to83 (dotted base ext)) :
    nameToString de = (dotted base ext).map asciiUpper := by
  have hsplit : de.name = padTo 8 base ++ padTo 3 ext := by
    rw [hname, to83_fields, nameFields_dotted hdot (List.length_pos_iff.mp hpos)]
  rw [nameToString_dotted de (by rw [hname, to83_length]), hsplit,
    List.take_left' (padTo_length 8 base), List.drop_left' (padTo_length 8 base), padTo_takeWhile,
    padTo_takeWhile, List.take_of_length_le hbase, List.take_of_length_le hext, map_upcase hblank.1,
    map_upcase hblank.2, asciiUpper_dotted]

theorem base_ne_nil {name : List UInt8} (hne : name ≠ []) (hhead : name.head? ≠ some 32) :
    (name.take 8).takeWhile (· ≠ 32) ≠ [] := by
  obtain ⟨c, t, rfl⟩ := List.exists_cons_of_ne_nil hne
  rw [List.head?_cons, ne_eq, Option.some_inj] at hhead
  simp [hhead]

theorem to83_nameToString {de : Dirent} (hlen : de.name.length = 11)
    (hhead : de.name.head? ≠ some 32) (hbase : Padded (de.name.take 8))
    (hext : Padded (de.name.drop 8)) (hdot : 46 ∉ de.name)
    (hlower : ∀ c ∈ de.name, ¬ (97 ≤ c ∧ c ≤ 122)) : to83 (nameToString de) = de.name := by
  have hnil : de.name ≠ [] := by
    rw [← List.length_pos_iff, hlen]
    decide
  have hnodot : 46 ∉ (de.name.take 8).takeWhile (· ≠ 32) := fun h =>
    hdot (List.take_subset _ _ ((List.takeWhile_prefix _).subset h))
  have hb := padTo_padded hbase fun c hc => hlower c (List.take_subset _ _ hc)
  have he := padTo_padded hext fun c hc => hlower c (List.drop_subset _ _ hc)
  rw [List.length_take, hlen] at hb
  rw [List.length_drop, hlen] at he
  rw [nameToString_dotted de hlen, to83_fields, nameFields_dotted hnodot (base_ne_nil hnil hhead)]
  dsimp only
  rw [show padTo 8 _ = _ from hb, show padTo 3 _ = _ from he, List.take_append_drop]

/-- Names of up to eight and three characters come back in upper case, and names of entries
come back as they are. -/
theorem short_names_round_trip :
    (∀ base ext : List UInt8, 1 ≤ base.length → base.length ≤ 8 → ext.length ≤ 3 →
      (∀ c ∈ base ++ ext, c ≠ 46 ∧ c ≠ 47 ∧ c ≠ 32 ∧ c ≠ 0) →
      ∀ de : Dirent, de.name = to83 (dotted base ext) →
        nameToString de = (dotted base ext).map asciiUpper) ∧
    ∀ de : Dirent, de.name.length = 11 → de.name.head? ≠ some 32 → Padded (de.name.take 8) →
      Padded (de.name.drop 8) →
      (∀ c ∈ de.name, c ≠ 46 ∧ c ≠ 0 ∧ ¬ (97 ≤ c ∧ c ≤ 122)) →
      to83 (nameToString de) = de.name := by
  constructor
  · intro base ext hpos hbase hext hchars de hname
    have hblank : 32 ∉ base ++ ext := fun h => (hchars 32 h).2.2.1 rfl
    have hdot : 46 ∉ base := fun h => (hchars 46 (List.mem_append_left _ h)).1 rfl
    exact nameToString_to83 hpos hbase hext hdot (by simpa using hblank) hname
  · intro de hlen hhead hbase hext hchars
    exact to83_nameToString hlen hhead hbase hext (fun h => (hchars 46 h).1 rfl)
      fun c hc => (hchars c hc).2.2

theorem short_names_round_trip_ab :
    nameToString (newDirent (to83 [97, 98, 46, 99]) attrArchive 0) = [65, 66, 46, 67] ∧
    to83 (nameToString (newDirent [65, 66, 32, 32, 32, 32, 32, 32, 67, 32, 32] attrArchive 0)) =
      [65, 66, 32, 32, 32, 32, 32, 32, 67, 32, 32] := by
  constructor
  · rw [short_names_round_trip.1 [97, 98] [99] (by decide) (by decide) (by decide) (by simp) _ rfl]
    decide
  · exact short_names_round_trip.2 _ rfl (by decide +kernel) (by decide +kernel) (by decide +kernel)
      (by simp [newDirent])

def SameUpToCase (a b : List UInt8) : Prop := a.map asciiUpper = b.map asciiUpper

instance (a b : List UInt8) : Decidable (SameUpToCase a b) := inferInstanceAs (Decidable (_ = _))

/-- The components differ in the first eight characters before the dot or in the first three
behind it, by more than letter case and blanks for underscores. -/
def Distinguished (a b : List UInt8) : Prop :=
  ((nameFields a).1.take 8).map upcase ≠ ((nameFields b).1.take 8).map upcase ∨
    ((nameFields a).2.take 3).map upcase ≠ ((nameFields b).2.take 3).map upcase

theorem to83_eq_iff : to83 a = to83 b ↔ ¬ Distinguished a b := by
  rw [Distinguished, not_or, not_not, not_not, to83_fields, to83_fields, ← padTo_inj, ← padTo_inj]
  constructor
  · intro h
    exact List.append_inj h (by rw [padTo_length, padTo_length])
  · rintro ⟨hbase, hext⟩
    rw [hbase, hext]

structure HoldsOnly (l : Layout) (m : Mem) (dir slot : ℕ) (a : List UInt8) : Prop where
  chain : ∃ cs, Path (l.next m) dir cs endOfChain ∧ endOfChain ∉ cs ∧
    liveSlots m (l.dirSlots cs) = [slot]
  name : (direntAt m slot).name = to83 a
  taken : l.entry m (direntAt m slot).cluster ≠ 0

/-- The names of the components differ, and opening `b` for writing where there is only a
file `a` does not return the file `a`, unless the components are equal up to case. -/
def DistinctFiles (a b : List UInt8) : Prop :=
  (to83 a = to83 b → SameUpToCase a b) ∧
  ∀ l m dir slot, HoldsOnly l m dir slot a → ∀ path files i files' m',
    fat32Resolve l.ram path m = some (some ⟨dir, some (to83 b)⟩, m) →
    fat32Open l.ram path charW files m = some ((some i, files'), m') →
    (files' i).firstCluster = (direntAt m slot).cluster → SameUpToCase a b

theorem fat32Open_fresh {l : Layout} {m m' : Mem} {dir : ℕ} {name path : List UInt8}
    {files files' : Files} {i : Fin maxOpenFiles}
    (hres : fat32Resolve l.ram path m = some (some ⟨dir, some name⟩, m))
    (hnone : fat32Find l.ram dir name m = some (none, m))
    (hopen : fat32Open l.ram path charW files m = some ((some i, files'), m')) :
    l.entry m (files' i).firstCluster = 0 := by
  rcases fat32Open_cases hopen with heq | ⟨p, name', found, hres', hfind, -⟩ |
    ⟨p, name', e, m₁, -, hmiss, hcreate, heq⟩
  · simp at heq
  · rw [hres] at hres'
    cases hres'
    rw [hnone] at hfind
    simp at hfind
  · obtain ⟨hhandle, rfl⟩ := Prod.mk.inj heq
    rcases createEntry_cases hcreate with hfail | ⟨c, sec, ent, hfirst, -, hdone⟩
    · obtain ⟨rfl, -⟩ := Prod.mk.inj hfail
      simp [handOut] at hhandle
    · obtain ⟨rfl, -⟩ := Prod.mk.inj hdone
      have hlt : c < 2 ^ 32 := hfirst.lt_end.trans (by decide)
      have hfile := takeHandle_some hhandle.symm
      have hcluster : (files' i).firstCluster = c := by
        rw [hfile, Function.update_self]
        exact newDirent_cluster _ _ hlt
      rw [hcluster]
      exact hfirst.free

theorem distinct_files_iff (a b : List UInt8) :
    DistinctFiles a b ↔ SameUpToCase a b ∨ Distinguished a b := by
  constructor
  · rintro ⟨hnames, -⟩
    by_cases h : Distinguished a b
    · exact Or.inr h
    · exact Or.inl (hnames (to83_eq_iff.mpr h))
  · rintro (hsame | hdist)
    · exact ⟨fun _ => hsame, fun _ _ _ _ _ _ _ _ _ _ _ _ _ => hsame⟩
    · have hne : to83 a ≠ to83 b := fun h => to83_eq_iff.mp h hdist
      refine ⟨fun h => absurd h hne,
        fun l m dir slot hdir path files i files' m' hres hopen hfirst => ?_⟩
      obtain ⟨cs, hpath, hcs, hlive⟩ := hdir.chain
      -- the lookup passes over the only entry
      have hnone : fat32Find l.ram dir (to83 b) m = some (none, m) := by
        have hother : nameIs m (to83 b) slot = false := by
          rw [nameIs, hdir.name]
          exact decide_eq_false hne
        rw [fat32Find_ram l hpath hcs (path_length_lt hpath hcs), hlive,
          List.find?_cons_of_neg (by simp [hother])]
        rfl
      refine absurd ?_ hdir.taken
      rw [← hfirst]
      exact fat32Open_fresh hres hnone hopen

/-- `longname1` and `longname2`, opened for writing one after the other: the second open
returns the file that the first one created. -/
theorem long_names_collide :
    ¬ SameUpToCase [108, 111, 110, 103, 110, 97, 109, 101, 49]
      [108, 111, 110, 103, 110, 97, 109, 101, 50] ∧
    to83 [108, 111, 110, 103, 110, 97, 109, 101, 49] =
      to83 [108, 111, 110, 103, 110, 97, 109, 101, 50] ∧
    ((fat32Open tinyLayout.ram [108, 111, 110, 103, 110, 97, 109, 101, 49] charW noFiles
      tinyDisk).bind
        fun r =>
          (fat32Open tinyLayout.ram [108, 111, 110, 103, 110, 97, 109, 101, 50] charW r.1.2 r.2).map
          fun r' => (r.1.1.map fun i => (r.1.2 i).firstCluster,
            r'.1.1.map fun i => (r'.1.2 i).firstCluster)) = some (some 3, some 3) := by
  exact ⟨by decide, by decide, by decide +kernel⟩

end XldKernel.Fat32
