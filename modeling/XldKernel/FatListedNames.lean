import XldKernel.FatWalks
import XldKernel.FatReading

/-!
# What a listing shows and what a lookup finds

`fat32_list_dir_flat` and `fat32_find` walk the same slots up to the end marker. The
listing leaves out the volume labels and the names that begin with a dot, the lookup
does not.
-/

namespace XldKernel.Fat32
open ByteMemory BlockDevice LinkedPath
variable {l : Layout} {m : Mem}

def listedSlots (m : Mem) (slots : List ℕ) : List ℕ :=
  (slots.takeWhile fun a => m a ≠ 0).filter fun a => listTest m a = .print

def Layout.listed (l : Layout) (m : Mem) (cs : List ℕ) : List Dirent :=
  (listedSlots m (l.dirSlots cs)).map (direntAt m)

def goesOn (m : Mem) (slots : List ℕ) : Bool := slots.all fun a => m a ≠ 0

theorem listedSlots_cons (m : Mem) (a : ℕ) (slots : List ℕ) :
    listedSlots m (a :: slots) =
      match listTest m a with
      | .stop => []
      | .skip => listedSlots m slots
      | .print => a :: listedSlots m slots := by
  by_cases h0 : m a = 0
  · have hstop : listTest m a = .stop := by rw [listTest, if_pos h0]
    simp [listedSlots, h0, hstop]
  · have hgo : listTest m a ≠ .stop := by
      rw [listTest, if_neg h0]
      split_ifs <;> simp
    cases htest : listTest m a with
    | stop => exact absurd htest hgo
    | skip => simp [listedSlots, h0, htest]
    | print => simp [listedSlots, h0, htest]

theorem listTest_stop_iff (m : Mem) (a : ℕ) : listTest m a = .stop ↔ m a = 0 := by
  rw [listTest]
  split_ifs with h0 <;> simp [h0]

theorem goesOn_cons (m : Mem) (a : ℕ) (slots : List ℕ) :
    goesOn m (a :: slots) =
      match listTest m a with
      | .stop => false
      | _ => goesOn m slots := by
  have hstop := listTest_stop_iff m a
  cases htest : listTest m a with
  | stop => simp [goesOn, hstop.mp htest]
  | skip => simp [goesOn, mt hstop.mpr (by simp [htest])]
  | print => simp [goesOn, mt hstop.mpr (by simp [htest])]

theorem goesOn_append (m : Mem) (xs ys : List ℕ) :
    goesOn m (xs ++ ys) = (goesOn m xs && goesOn m ys) := List.all_append

theorem listedSlots_append (m : Mem) (xs ys : List ℕ) :
    listedSlots m (xs ++ ys) =
      if goesOn m xs then listedSlots m xs ++ listedSlots m ys else listedSlots m xs := by
  induction xs with
  | nil => simp [goesOn, listedSlots]
  | cons a xs ih =>
    rw [List.cons_append, listedSlots_cons, listedSlots_cons, goesOn_cons]
    cases listTest m a with
    | stop => simp
    | skip => exact ih
    | print =>
      dsimp only
      rw [ih]
      split_ifs <;> rfl

theorem listTest_sector (s i : ℕ) : listTest (sector m s) i = listTest m (sectorSize * s + i) := by
  simp only [listTest, sector, Nat.add_assoc]
  rfl

section Fold
variable (f : Dirent → Listing → Listing) {onEntry : Dirent → Listing → Mem →
  Option (Listing × Mem)}

def listAll (m : Mem) (slots : List ℕ) (out : Listing) : Listing :=
  ((listedSlots m slots).map (direntAt m)).foldl (fun out de => f de out) out

theorem listAll_append (xs ys : List ℕ) (out : Listing) :
    listAll f m (xs ++ ys) out =
      if goesOn m xs then listAll f m ys (listAll f m xs out) else listAll f m xs out := by
  rw [listAll, listedSlots_append]
  split_ifs
  · rw [List.map_append, List.foldl_append]
    rfl
  · rfl

def ActsAs (onEntry : Dirent → Listing → Mem → Option (Listing × Mem)) (m : Mem) (slots : List ℕ) :
    Prop :=
  ∀ a ∈ listedSlots m slots, ∀ out, onEntry (direntAt m a) out m = some (f (direntAt m a) out, m)

variable {f} in
theorem ActsAs.append {xs ys : List ℕ} (h : ActsAs f onEntry m (xs ++ ys)) :
    ActsAs f onEntry m xs ∧ (goesOn m xs = true → ActsAs f onEntry m ys) := by
  have hsplit := listedSlots_append m xs ys
  refine ⟨fun a ha => h a ?_, fun hgo a ha => h a ?_⟩
  · rw [hsplit]
    split_ifs
    · exact List.mem_append_left _ ha
    · exact ha
  · rw [hsplit, if_pos hgo]
    exact List.mem_append_right _ ha

theorem listEntries_fold (s n ent : ℕ) (out : Listing)
    (hon : ActsAs f onEntry m
      ((List.range' ent n).map fun e => sectorSize * s + e * dirEntrySize)) :
    listEntries onEntry (sector m s) n ent out m =
      some (goesOn m ((List.range' ent n).map fun e => sectorSize * s + e * dirEntrySize),
        listAll f m ((List.range' ent n).map fun e => sectorSize * s + e * dirEntrySize)
          out, m) := by
  induction n generalizing ent out with
  | zero => rfl
  | succ n ih =>
    rw [List.range'_succ, List.map_cons] at hon
    have hslot := listedSlots_cons m (sectorSize * s + ent * dirEntrySize)
      ((List.range' (ent + 1) n).map fun e => sectorSize * s + e * dirEntrySize)
    rw [listEntries, List.range'_succ, List.map_cons, listAll, hslot, goesOn_cons, listTest_sector]
    cases htest : listTest m (sectorSize * s + ent * dirEntrySize) with
    | stop => rfl
    | skip =>
      rw [htest] at hslot
      exact ih (ent + 1) out fun a ha => hon a (hslot ▸ ha)
    | print =>
      rw [htest] at hslot
      dsimp only at hslot ⊢
      rw [direntAt_sector, hon _ (hslot ▸ List.mem_cons_self)]
      dsimp only
      rw [ih (ent + 1) _ fun a ha => hon a (hslot ▸ List.mem_cons_of_mem _ ha)]
      rfl

theorem listSectors_fold (l : Layout) (c n sec : ℕ) (out : Listing)
    (hon : ActsAs f onEntry m ((List.range' sec n).flatMap fun i => sectorSlots (l.sectorOf c i))) :
    listSectors onEntry l.ram (l.firstSector c) n sec out m =
      some (goesOn m ((List.range' sec n).flatMap fun i => sectorSlots (l.sectorOf c i)),
        listAll f m ((List.range' sec n).flatMap fun i => sectorSlots (l.sectorOf c i))
          out, m) := by
  induction n generalizing sec out with
  | zero => rfl
  | succ n ih =>
    have hread : l.ram.dev.read ((l.firstSector c + sec) % 2 ^ 32) m =
      (some (sector m (l.sectorOf c sec)), m) := rfl
    rw [List.range'_succ, List.flatMap_cons] at hon
    obtain ⟨hhere, hrest⟩ := hon.append
    have hentries := listEntries_fold f (l.sectorOf c sec) dirEntriesPerSec 0 out (by
      rwa [← List.range_eq_range', ← sectorSlots])
    rw [← List.range_eq_range', ← sectorSlots] at hentries
    rw [listSectors, hread]
    dsimp only
    rw [hentries, List.range'_succ, List.flatMap_cons, goesOn_append, listAll_append]
    cases hgo : goesOn m (sectorSlots (l.sectorOf c sec)) with
    | false => rfl
    | true =>
      dsimp only
      rw [ih (sec + 1) _ (hrest hgo), if_pos rfl, Bool.true_and]

theorem listDir_fold (l : Layout) {cs : List ℕ} {c : ℕ} (hpath : Path (l.next m) c cs endOfChain)
    (hcs : ∀ x ∈ cs, Listed x) (hon : ActsAs f onEntry m (l.dirSlots cs)) {fuel : ℕ}
    (hfuel : cs.length < fuel) (out : Listing) :
    listDir onEntry l.ram fuel c out m = some (listAll f m (l.dirSlots cs) out, m) := by
  induction cs generalizing c fuel out with
  | nil =>
    obtain ⟨fuel, rfl⟩ := Nat.exists_eq_succ_of_ne_zero hfuel.ne_bot
    have hc : c = endOfChain := hpath
    rw [listDir, if_pos (Or.inl hc)]
    rfl
  | cons x cs ih =>
    obtain ⟨fuel, rfl⟩ := Nat.exists_eq_succ_of_ne_zero (Nat.ne_zero_of_lt hfuel)
    obtain ⟨rfl, hrest⟩ := hpath
    have hlisted := hcs c List.mem_cons_self
    have hgo : ¬ (c = endOfChain ∨ c < 2) := not_or.mpr ⟨hlisted.1, not_lt.mpr hlisted.2⟩
    rw [Layout.dirSlots, List.flatMap_cons, ← Layout.dirSlots] at hon
    obtain ⟨hhere, hthere⟩ := hon.append
    have hsectors := listSectors_fold f l c l.bpb.sectorsPerCluster 0 out (by
      rwa [← List.range_eq_range', ← Layout.clusterSlots])
    rw [← List.range_eq_range', ← Layout.clusterSlots] at hsectors
    have hrec :=
      fun hgo out => ih hrest (fun x hx => hcs x (List.mem_cons_of_mem _ hx)) (hthere hgo)
      (by simpa using hfuel) out
    rw [listDir, if_neg hgo]
    simp only [nextCluster_ram]
    simp only [Layout.ram] at hsectors hrec ⊢
    rw [hsectors, Layout.dirSlots, List.flatMap_cons, listAll_append, ← Layout.dirSlots]
    cases hflag : goesOn m (l.clusterSlots c) with
    | false => rfl
    | true => exact hrec hflag _

end Fold

def Label (m : Mem) (a : ℕ) : Prop := m (a + 11) &&& attrVolumeId ≠ 0

instance (m : Mem) (a : ℕ) : Decidable (Label m a) := inferInstanceAs (Decidable (_ ≠ _))

theorem listTest_print_iff {a : ℕ} (h0 : m a ≠ 0) : listTest m a = .print ↔
    (m a ≠ 0xE5 ∧ m (a + 11) ≠ attrLfn) ∧ ¬ Label m a ∧ m a ≠ 46 := by
  rw [listTest, if_neg h0, Label]
  split_ifs with h1 h2 h3
  · simp [h1]
  · simp only [false_iff]
    exact fun h => h2.elim h.1.2 h.2.1
  · simp [h3]
  · simp only [true_iff]
    exact ⟨⟨h1, (not_or.mp h2).1⟩, (not_or.mp h2).2, h3⟩

theorem listedSlots_eq (m : Mem) (slots : List ℕ) :
    listedSlots m slots = (liveSlots m slots).filter fun a => ¬ Label m a ∧ m a ≠ 46 := by
  rw [listedSlots, liveSlots, List.filter_filter]
  refine List.filter_congr fun a ha => ?_
  have h0 : m a ≠ 0 := by
    have := List.mem_takeWhile_imp ha
    simpa using this
  rw [← Bool.decide_and, decide_eq_decide, listTest_print_iff h0, and_comm]

theorem mem_listedSlots {slots : List ℕ} {a : ℕ} :
    a ∈ listedSlots m slots ↔ a ∈ liveSlots m slots ∧ ¬ Label m a ∧ m a ≠ 46 := by
  rw [listedSlots_eq, List.mem_filter, decide_eq_true_eq]

theorem path_length_lt {c : ℕ} {cs : List ℕ} (hpath : Path (l.next m) c cs endOfChain)
    (hcs : endOfChain ∉ cs) : cs.length < chainFuel := by
  cases cs with
  | nil => decide
  | cons x cs =>
    have hnodup := (List.nodup_cons.mp (hpath.nodup hcs)).2
    have hsub : cs.toFinset ⊆ Finset.range (2 ^ 28) := by
      intro y hy
      have hmem := List.mem_toFinset.mp hy
      have hlink : y ∈ insert endOfChain (Finset.range (2 ^ 28)) := by
        obtain ⟨pre, post, hsplit⟩ := List.append_of_mem hmem
        have hsplit' : x :: cs = (x :: pre) ++ y :: post := by rw [hsplit]; rfl
        rw [hsplit'] at hpath
        rcases List.eq_nil_or_concat pre with rfl | ⟨ini, z, rfl⟩
        · exact hpath.split.1.2 ▸ next_mem l m x
        · rw [List.concat_eq_append, ← List.cons_append] at hpath
          exact (path_snoc.mp hpath.split.1).2 ▸ next_mem l m z
      exact (Finset.mem_insert.mp hlink).resolve_left fun h =>
        hcs (List.mem_cons_of_mem _ (h ▸ hmem))
    have hcard := Finset.card_le_card hsub
    rw [List.toFinset_card_of_nodup hnodup, Finset.card_range] at hcard
    rw [List.length_cons, chainFuel]
    omega

/-- Where a label in use has the name, another entry in use that is no label has it too. -/
def LabelsShadowed (l : Layout) (m : Mem) (cs : List ℕ) (name : List UInt8) : Prop :=
  ∀ a ∈ liveSlots m (l.dirSlots cs), (direntAt m a).name = name → Label m a →
    ∃ b ∈ liveSlots m (l.dirSlots cs), (direntAt m b).name = name ∧ ¬ Label m b

instance (l : Layout) (m : Mem) (cs : List ℕ) (name : List UInt8) :
    Decidable (LabelsShadowed l m cs name) :=
  inferInstanceAs (Decidable (∀ a ∈ _, _ → _ → ∃ b ∈ _, _))

theorem find_iff {cs : List ℕ} {dir : ℕ} (hpath : Path (l.next m) dir cs endOfChain)
    (hcs : endOfChain ∉ cs) (name : List UInt8) :
    (∃ f, fat32Find l.ram dir name m = some (some f, m)) ↔
      ∃ a ∈ liveSlots m (l.dirSlots cs), (direntAt m a).name = name := by
  rw [fat32Find_ram l hpath hcs (path_length_lt hpath hcs)]
  cases hfind : (liveSlots m (l.dirSlots cs)).find? (nameIs m name) with
  | none =>
    rw [List.find?_eq_none] at hfind
    simp only [Option.map_none, Option.some_inj, Prod.mk.injEq, reduceCtorEq, false_and,
      exists_false, false_iff, not_exists, not_and]
    exact fun a ha hname => hfind a ha (decide_eq_true hname)
  | some a =>
    have hname : nameIs m name a = true := List.find?_some hfind
    rw [nameIs, decide_eq_true_eq] at hname
    exact ⟨fun _ => ⟨a, List.mem_of_find?_eq_some hfind, hname⟩, fun _ => ⟨_, rfl⟩⟩

theorem direntAt_first {name : List UInt8} {a : ℕ} (h : (direntAt m a).name = name) :
    name.head? = some (m a) := by
  rw [← h]
  rfl

/-- The listing prints the entries `listed`, one line each, and a lookup agrees with it
exactly when no label stands alone with the name. -/
theorem listing_agrees_iff (l : Layout) (m : Mem) (dir : ℕ) (cs : List ℕ)
    (hpath : Path (l.next m) dir cs endOfChain) (hcs : ∀ c ∈ cs, c ≠ endOfChain ∧ 2 ≤ c)
    (name : List UInt8) (hdot : name.head? ≠ some 46) :
    (∀ indent out, fat32ListDirFlat l.ram dir indent out m =
      some ((l.listed m cs).foldl (fun out de => flatEntry indent de out) out, m)) ∧
    (((∃ f, fat32Find l.ram dir name m = some (some f, m)) ↔
      ∃ de ∈ l.listed m cs, de.name = name) ↔ LabelsShadowed l m cs name) := by
  have hend : endOfChain ∉ cs := fun h => (hcs _ h).1 rfl
  refine ⟨fun indent out => ?_, ?_⟩
  · exact listDir_fold (flatEntry indent) l hpath hcs (fun _ _ _ => rfl)
      (path_length_lt hpath hend) out
  · have hlisted : (∃ de ∈ l.listed m cs, de.name = name) ↔
        ∃ a ∈ liveSlots m (l.dirSlots cs), (direntAt m a).name = name ∧ ¬ Label m a := by
      constructor
      · rintro ⟨de, hde, hna⟩
        obtain ⟨a, ha, rfl⟩ := List.mem_map.mp hde
        exact ⟨a, (mem_listedSlots.mp ha).1, hna, (mem_listedSlots.mp ha).2.1⟩
      · rintro ⟨a, ha, hna, hlabel⟩
        refine ⟨_, List.mem_map_of_mem (mem_listedSlots.mpr ⟨ha, hlabel, fun h46 => hdot ?_⟩), hna⟩
        rw [direntAt_first hna, h46]
    rw [find_iff hpath hend, hlisted]
    constructor
    · intro h a ha hna _
      exact h.mp ⟨a, ha, hna⟩
    · intro h
      refine ⟨fun ⟨a, ha, hna⟩ => ?_, fun ⟨a, ha, hna, _⟩ => ⟨a, ha, hna⟩⟩
      by_cases hlabel : Label m a
      · exact h a ha hna hlabel
      · exact ⟨a, ha, hna, hlabel⟩

theorem listing_agrees_iff_hello :
    (∃ f, fat32Find tinyLayout.ram 2 (to83 [65]) helloDisk = some (some f, helloDisk)) ↔
      ∃ de ∈ tinyLayout.listed helloDisk [2], de.name = to83 [65] :=
  (listing_agrees_iff tinyLayout helloDisk 2 [2] (by decide +kernel) (by decide) (to83 [65])
    (by decide)).2.mpr (by decide +kernel)

def labelDisk : Mem := putDirent tinyDisk 1024 ⟨to83 [76], attrVolumeId, 0, 0, 0⟩

theorem label_found_not_listed :
    Path (tinyLayout.next labelDisk) 2 [2] endOfChain ∧
    ((fat32Find tinyLayout.ram 2 (to83 [76]) labelDisk).map fun r => r.1.isSome) = some true ∧
    tinyLayout.listed labelDisk [2] = [] ∧
    ((fat32ListDirFlat tinyLayout.ram 2 [] ⟨[], 0, 0⟩ labelDisk).map fun r => r.1) =
      some ⟨[], 0, 0⟩ := by
  exact ⟨by decide +kernel, by decide +kernel, by decide +kernel, by decide +kernel⟩

end XldKernel.Fat32
