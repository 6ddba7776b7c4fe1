import XldKernel.FatListing
import XldKernel.FatLookup
import XldKernel.FatMount

/-!
# Which directory walks end

The walks follow the links of the table without a bound. On a disk whose reads do not
fail, a walk passes over a cluster that holds no end marker and nothing it looks for,
and it ends just if it never comes back to a cluster that it passed over.
-/

namespace XldKernel.Fat32
open ByteMemory BlockDevice FiniteWalk

variable {l : Layout} {m : Mem} {test : Mem → ℕ → Verdict}

theorem next_mem (l : Layout) (m : Mem) (c : ℕ) :
    l.next m c ∈ insert endOfChain (Finset.range (2 ^ 28)) := by
  have hlt : l.entry m c < 2 ^ 28 := Nat.mod_lt _ (by decide)
  rw [Layout.next, linkOf, Finset.mem_insert, Finset.mem_range]
  split_ifs
  · exact Or.inl rfl
  · exact Or.inl rfl
  · exact Or.inr hlt

theorem links_card : (insert endOfChain (Finset.range (2 ^ 28))).card < chainFuel := by
  refine (Finset.card_insert_le _ _).trans_lt ?_
  rw [Finset.card_range]
  decide

/-- A walk that ends has enough fuel. -/
theorem ends_fuel_iff {go : ℕ → Prop} {c : ℕ} :
    (∃ n b, n < chainFuel ∧ StepsTo (l.next m) go c n b ∧ ¬ go b) ↔
      ¬ ComesBack (l.next m) go c := by
  rw [← ends_iff (next_mem l m)]
  constructor
  · rintro ⟨n, b, -, hat, hno⟩
    exact ⟨n, b, hat, hno⟩
  · intro h
    obtain ⟨n, b, hle, hat, hno⟩ := h.bounded (next_mem l m)
    exact ⟨n, b, hle.trans_lt links_card, hat, hno⟩

def Layout.Passes (l : Layout) (m : Mem) (test : Mem → ℕ → Verdict) (c : ℕ) : Prop :=
  c ≠ endOfChain ∧
    (walkSectors l.ram test (l.firstSector c) l.bpb.sectorsPerCluster 0 m).1 = .next

theorem walkDir_isSome (fuel c : ℕ) : (walkDir l.ram test fuel c m).isSome ↔
    ∃ n b, n < fuel ∧ StepsTo (l.next m) (l.Passes m test) c n b ∧ ¬ l.Passes m test b := by
  induction fuel generalizing c with
  | zero => simp [walkDir]
  | succ fuel ih =>
    have hstay : ¬ l.Passes m test c →
        ∃ n b, n < fuel + 1 ∧ StepsTo (l.next m) (l.Passes m test) c n b ∧ ¬ l.Passes m test b :=
      fun h => ⟨0, c, by omega, stepsTo_zero, h⟩
    rw [walkDir]
    by_cases hend : c = endOfChain
    · rw [if_pos hend]
      exact iff_of_true rfl (hstay fun h => h.1 hend)
    rw [if_neg hend]
    have hpass : l.Passes m test c ↔
        (walkSectors l.ram test (l.firstSector c) l.bpb.sectorsPerCluster 0 m).1 = .next :=
      and_iff_right hend
    obtain ⟨r, hwalk⟩ : ∃ r,
        walkSectors l.ram test (l.firstSector c) l.bpb.sectorsPerCluster 0 m = (r, m) :=
      ⟨_, Prod.ext rfl (walkSectors_mem l test _ _ _)⟩
    rw [hwalk] at hpass
    simp only [Layout.ram_toLayout, hwalk]
    cases r with
    | stop => exact iff_of_true rfl (hstay fun h => by simpa using hpass.mp h)
    | hit h => exact iff_of_true rfl (hstay fun h => by simpa using hpass.mp h)
    | next =>
      have hgo : l.Passes m test c := hpass.mpr rfl
      simp only [nextCluster_ram, ih]
      constructor
      · rintro ⟨n, b, hn, hat, hno⟩
        exact ⟨n + 1, b, by omega, stepsTo_succ.mpr ⟨hgo, hat⟩, hno⟩
      · rintro ⟨n, b, hn, hat, hno⟩
        cases n with
        | zero =>
          obtain rfl : c = b := hat.1
          exact absurd hgo hno
        | succ n => exact ⟨n, b, by omega, (stepsTo_succ.mp hat).2, hno⟩

theorem fat32Find_returns_iff (dir : ℕ) (target : List UInt8) :
    (fat32Find l.ram dir target m).isSome ↔
      ¬ ComesBack (l.next m) (l.Passes m (findTest target)) dir := by
  rw [fat32Find, Option.isSome_map, walkDir_isSome, ends_fuel_iff]

theorem findFreeDirentSlot_returns_iff (dir : ℕ) :
    (findFreeDirentSlot l.ram dir m).isSome ↔ ¬ ComesBack (l.next m) (l.Passes m freeTest) dir := by
  rw [findFreeDirentSlot, Option.isSome_map, walkDir_isSome, ends_fuel_iff]

def firstComponent (start : List UInt8) : List UInt8 := start.takeWhile (· ≠ slash)

def afterSlash (start : List UInt8) : List UInt8 := start.drop ((firstComponent start).length + 1)

/-- Resolving the components `start` from the directory `cur` searches `dir` for `name`. -/
inductive Searched (l : Layout) (m : Mem) : ℕ → List UInt8 → ℕ → List UInt8 → Prop
  | here {cur : ℕ} {start : List UInt8} (hslash : (firstComponent start).length < start.length)
      (hne : firstComponent start ≠ []) : Searched l m cur start cur (to83 (firstComponent start))
  | skip {cur dir : ℕ} {start name : List UInt8}
      (hslash : (firstComponent start).length < start.length) (hnil : firstComponent start = [])
      (hrest : Searched l m cur (afterSlash start) dir name) : Searched l m cur start dir name
  | down {cur dir : ℕ} {start name : List UInt8} {found : Found}
      (hslash : (firstComponent start).length < start.length) (hne : firstComponent start ≠ [])
      (hfind : fat32Find l.ram cur (to83 (firstComponent start)) m = some (some found, m))
      (hdir : found.dirent.IsDir)
      (hrest : Searched l m found.dirent.cluster (afterSlash start) dir name) :
      Searched l m cur start dir name

def PathSearched (l : Layout) (m : Mem) (path : List UInt8) (dir : ℕ) (name : List UInt8) : Prop :=
  let current := if path.head? = some slash then path.tail else path
  current.length < 256 ∧ Searched l m l.bpb.rootCluster current dir name

def SearchesEnd (l : Layout) (m : Mem) (cur : ℕ) (start : List UInt8) : Prop :=
  ∀ dir name, Searched l m cur start dir name →
    ¬ ComesBack (l.next m) (l.Passes m (findTest name)) dir

section Searches
variable {cur : ℕ} {start : List UInt8}

theorem searchesEnd_none (hlen : ¬ (firstComponent start).length < start.length) :
    SearchesEnd l m cur start := by
  intro dir name hs
  cases hs with
  | here h => exact absurd h hlen
  | skip h => exact absurd h hlen
  | down h => exact absurd h hlen

theorem searchesEnd_skip (hslash : (firstComponent start).length < start.length)
    (hempty : firstComponent start = []) :
    SearchesEnd l m cur start ↔ SearchesEnd l m cur (afterSlash start) := by
  refine ⟨fun h dir name hs => h dir name (.skip hslash hempty hs), fun h dir name hs => ?_⟩
  cases hs with
  | here _ hne => exact absurd hempty hne
  | skip _ _ hrest => exact h dir name hrest
  | down _ hne => exact absurd hempty hne

theorem searchesEnd_step (hslash : (firstComponent start).length < start.length)
    (hne : firstComponent start ≠ []) :
    SearchesEnd l m cur start ↔
      ¬ ComesBack (l.next m) (l.Passes m (findTest (to83 (firstComponent start)))) cur ∧
      ∀ found, fat32Find l.ram cur (to83 (firstComponent start)) m = some (some found, m) →
        found.dirent.IsDir → SearchesEnd l m found.dirent.cluster (afterSlash start) := by
  constructor
  · intro h
    exact ⟨h _ _ (.here hslash hne),
      fun found hfind hdir dir name hs => h dir name (.down hslash hne hfind hdir hs)⟩
  · rintro ⟨hhere, hdown⟩ dir name hs
    cases hs with
    | here => exact hhere
    | skip _ hnil => exact absurd hnil hne
    | down _ _ hfind hdir hrest => exact hdown _ hfind hdir dir name hrest

end Searches

theorem resolveLoop_returns_iff (n cur : ℕ) (start : List UInt8) (hn : start.length ≤ n) :
    (resolveLoop l.ram n cur start m).isSome ↔ SearchesEnd l m cur start := by
  induction n generalizing cur start with
  | zero =>
    have hnil : start = [] := List.eq_nil_of_length_eq_zero (by omega)
    exact iff_of_true rfl (searchesEnd_none (by simp [hnil, firstComponent]))
  | succ n ih =>
    rw [resolveLoop]
    by_cases hnil : start = []
    · rw [if_pos hnil]
      exact iff_of_true rfl (searchesEnd_none (by simp [hnil, firstComponent]))
    rw [if_neg hnil, ← firstComponent]
    dsimp only
    by_cases hslash : (firstComponent start).length < start.length
    swap
    · rw [if_neg hslash]
      exact iff_of_true rfl (searchesEnd_none hslash)
    rw [if_pos hslash, ← afterSlash]
    have hshort : (afterSlash start).length ≤ n := by
      rw [afterSlash, List.length_drop]
      omega
    by_cases hempty : firstComponent start = []
    · rw [if_pos hempty, searchesEnd_skip hslash hempty]
      exact ih cur (afterSlash start) hshort
    · rw [if_neg hempty, searchesEnd_step hslash hempty, ← fat32Find_returns_iff]
      rcases hres : fat32Find l.ram cur (to83 (firstComponent start)) m with _ | ⟨_ | found, m'⟩
      · simp
      · simp
      · obtain rfl : m' = m := fat32Find_mem l hres
        by_cases hdir : found.dirent.IsDir
        · simp [hdir, ih _ _ hshort]
        · simp [hdir]

theorem fat32Resolve_returns_iff (path : List UInt8) :
    (fat32Resolve l.ram path m).isSome ↔ ∀ dir name, PathSearched l m path dir name →
      ¬ ComesBack (l.next m) (l.Passes m (findTest name)) dir := by
  have hnil : ∀ cur dir name, ¬ Searched l m cur [] dir name := by
    rintro cur dir name (h | h | h) <;> simp [firstComponent] at h
  rw [fat32Resolve]
  by_cases hroot : path = [] ∨ path = [slash]
  · rw [if_pos hroot]
    refine iff_of_true rfl fun dir name h => ?_
    rcases hroot with rfl | rfl
    · exact absurd h.2 (hnil _ _ _)
    · exact absurd h.2 (hnil _ _ _)
  · rw [if_neg hroot]
    dsimp only
    by_cases hlen : 256 ≤ (if path.head? = some slash then path.tail else path).length
    · rw [if_pos hlen]
      exact iff_of_true rfl fun dir name h => absurd h.1 (not_lt.mpr hlen)
    · rw [if_neg hlen]
      refine (resolveLoop_returns_iff _ _ _ le_rfl).trans ⟨?_, ?_⟩
      · exact fun h dir name hs => h dir name hs.2
      · exact fun h dir name hs => h dir name ⟨not_le.mp hlen, hs⟩

def shownIn (buf : Mem) : ℕ → ℕ → List Dirent × Bool
  | 0, _ => ([], true)
  | n + 1, ent =>
    match listTest buf (ent * dirEntrySize) with
    | .stop => ([], false)
    | .skip => shownIn buf n (ent + 1)
    | .print =>
      let rest := shownIn buf n (ent + 1)
      (direntAt buf (ent * dirEntrySize) :: rest.1, rest.2)

def shownSectors (m : Mem) (first : ℕ) : ℕ → ℕ → List Dirent × Bool
  | 0, _ => ([], true)
  | n + 1, sec =>
    let here := shownIn (sector m ((first + sec) % 2 ^ 32)) dirEntriesPerSec 0
    let rest := shownSectors m first n (sec + 1)
    if here.2 then (here.1 ++ rest.1, rest.2) else here

def Layout.shown (l : Layout) (m : Mem) (c : ℕ) : List Dirent × Bool :=
  shownSectors m (l.firstSector c) l.bpb.sectorsPerCluster 0

def Listed (c : ℕ) : Prop := c ≠ endOfChain ∧ 2 ≤ c

def Layout.Lists (l : Layout) (m : Mem) (c : ℕ) : Prop := Listed c ∧ (l.shown m c).2 = true

section Entries
variable {onEntry : Dirent → Listing → Mem → Option (Listing × Mem)} {Returns : Dirent → Prop}
  (hreturns : ∀ de out, (onEntry de out m).isSome ↔ Returns de)
  (hmem : ∀ de out r, onEntry de out m = some r → r.2 = m)
include hreturns hmem

theorem onEntry_cases (de : Dirent) (out : Listing) :
    (Returns de ∧ ∃ out', onEntry de out m = some (out', m)) ∨
      (¬ Returns de ∧ onEntry de out m = none) := by
  cases h : onEntry de out m with
  | none =>
    refine Or.inr ⟨fun hr => ?_, rfl⟩
    simpa [h] using (hreturns de out).mpr hr
  | some r =>
    refine Or.inl ⟨(hreturns de out).mp (by simp [h]), r.1, ?_⟩
    rw [← hmem de out r h]

theorem listEntries_ram (buf : Mem) (n ent : ℕ) (out : Listing) :
    ((∀ de ∈ (shownIn buf n ent).1, Returns de) ∧
      ∃ out', listEntries onEntry buf n ent out m = some ((shownIn buf n ent).2, out', m)) ∨
    ((∃ de ∈ (shownIn buf n ent).1, ¬ Returns de) ∧
      listEntries onEntry buf n ent out m = none) := by
  induction n generalizing ent out with
  | zero => exact Or.inl ⟨by simp [shownIn], out, rfl⟩
  | succ n ih =>
    rw [shownIn, listEntries]
    cases listTest buf (ent * dirEntrySize) with
    | stop => exact Or.inl ⟨by simp, out, rfl⟩
    | skip => exact ih (ent + 1) out
    | print =>
      dsimp only
      rcases onEntry_cases hreturns hmem (direntAt buf (ent * dirEntrySize)) out with
        ⟨hret, out₁, hres⟩ | ⟨hret, hres⟩
      · rw [hres]
        rcases ih (ent + 1) out₁ with ⟨hall, hrest⟩ | ⟨⟨de, hde, hno⟩, hrest⟩
        · exact Or.inl ⟨List.forall_mem_cons.mpr ⟨hret, hall⟩, hrest⟩
        · exact Or.inr ⟨⟨de, List.mem_cons_of_mem _ hde, hno⟩, hrest⟩
      · rw [hres]
        exact Or.inr ⟨⟨_, List.mem_cons_self, hret⟩, rfl⟩

theorem listSectors_ram (first n sec : ℕ) (out : Listing) :
    ((∀ de ∈ (shownSectors m first n sec).1, Returns de) ∧
      ∃ out', listSectors onEntry l.ram first n sec out m =
        some ((shownSectors m first n sec).2, out', m)) ∨
    ((∃ de ∈ (shownSectors m first n sec).1, ¬ Returns de) ∧
      listSectors onEntry l.ram first n sec out m = none) := by
  induction n generalizing sec out with
  | zero => exact Or.inl ⟨by simp [shownSectors], out, rfl⟩
  | succ n ih =>
    have hread : l.ram.dev.read ((first + sec) % 2 ^ 32) m =
      (some (sector m ((first + sec) % 2 ^ 32)), m) := rfl
    rw [shownSectors, listSectors, hread]
    dsimp only
    rcases listEntries_ram hreturns hmem (sector m ((first + sec) % 2 ^ 32))
      dirEntriesPerSec 0 out with
      ⟨hall, out₁, hres⟩ | ⟨⟨de, hde, hno⟩, hres⟩
    · rw [hres]
      cases hflag : (shownIn (sector m ((first + sec) % 2 ^ 32)) dirEntriesPerSec 0).2 with
      | false =>
        rw [if_neg (by decide), hflag]
        exact Or.inl ⟨hall, out₁, rfl⟩
      | true =>
        rw [if_pos rfl]
        rcases ih (sec + 1) out₁ with ⟨hrest, hres'⟩ | ⟨⟨de, hde, hno⟩, hres'⟩
        · exact Or.inl ⟨List.forall_mem_append.mpr ⟨hall, hrest⟩, hres'⟩
        · exact Or.inr ⟨⟨de, List.mem_append_right _ hde, hno⟩, hres'⟩
    · rw [hres]
      refine Or.inr ⟨⟨de, ?_, hno⟩, rfl⟩
      split_ifs
      · exact List.mem_append_left _ hde
      · exact hde

/-- The walk returns if it ends and so does what it does at every entry it shows. -/
theorem listDir_isSome (fuel c : ℕ) (out : Listing) :
    (listDir onEntry l.ram fuel c out m).isSome ↔
      (∃ n b, n < fuel ∧ StepsTo (l.next m) (l.Lists m) c n b ∧ ¬ l.Lists m b) ∧
      ∀ n b, StepsTo (l.next m) (l.Lists m) c n b → Listed b →
        ∀ de ∈ (l.shown m b).1, Returns de := by
  induction fuel generalizing c out with
  | zero => simp [listDir]
  | succ fuel ih =>
    rw [listDir]
    -- a walk that stays at its first cluster
    have hstay : ¬ l.Lists m c → (Listed c → ∀ de ∈ (l.shown m c).1, Returns de) →
        (∃ n b, n < fuel + 1 ∧ StepsTo (l.next m) (l.Lists m) c n b ∧ ¬ l.Lists m b) ∧
        ∀ n b, StepsTo (l.next m) (l.Lists m) c n b → Listed b →
          ∀ de ∈ (l.shown m b).1, Returns de := by
      intro hno hall
      refine ⟨⟨0, c, by omega, stepsTo_zero, hno⟩, fun n b hsteps hlisted => ?_⟩
      cases n with
      | zero =>
        obtain rfl : c = b := hsteps.1
        exact hall hlisted
      | succ n => exact absurd (stepsTo_succ.mp hsteps).1 hno
    by_cases hend : c = endOfChain ∨ c < 2
    · rw [if_pos hend]
      have hnot : ¬ Listed c := fun h => hend.elim h.1 (not_lt.mpr h.2)
      exact iff_of_true rfl (hstay (fun h => hnot h.1) fun h => absurd h hnot)
    rw [if_neg hend]
    have hlisted : Listed c := ⟨fun h => hend (Or.inl h), not_lt.mp fun h => hend (Or.inr h)⟩
    simp only [Layout.ram_toLayout]
    rcases listSectors_ram hreturns hmem (l.firstSector c) l.bpb.sectorsPerCluster 0 out with
      ⟨hall, out₁, hres⟩ | ⟨⟨de, hde, hno⟩, hres⟩
    · rw [hres, ← Layout.shown] at *
      cases hflag : (l.shown m c).2 with
      | false =>
        exact iff_of_true rfl (hstay (fun h => by simpa [hflag] using h.2) fun _ => hall)
      | true =>
        have hgo : l.Lists m c := ⟨hlisted, hflag⟩
        simp only [nextCluster_ram]
        rw [ih]
        refine and_congr ⟨?_, ?_⟩ ⟨?_, ?_⟩
        · rintro ⟨n, b, hn, hsteps, hno⟩
          exact ⟨n + 1, b, by omega, stepsTo_succ.mpr ⟨hgo, hsteps⟩, hno⟩
        · rintro ⟨n, b, hn, hsteps, hno⟩
          cases n with
          | zero =>
            obtain rfl : c = b := hsteps.1
            exact absurd hgo hno
          | succ n => exact ⟨n, b, by omega, (stepsTo_succ.mp hsteps).2, hno⟩
        · intro h n b hsteps hb
          cases n with
          | zero =>
            obtain rfl : c = b := hsteps.1
            exact hall
          | succ n => exact h n b (stepsTo_succ.mp hsteps).2 hb
        · exact fun h n b hsteps => h (n + 1) b (stepsTo_succ.mpr ⟨hgo, hsteps⟩)
    · rw [hres]
      exact iff_of_false (by simp) fun h => hno (h.2 0 c stepsTo_zero hlisted de hde)

theorem listDir_returns_iff (c : ℕ) (out : Listing) :
    (listDir onEntry l.ram chainFuel c out m).isSome ↔ ¬ ComesBack (l.next m) (l.Lists m) c ∧
      ∀ n b, StepsTo (l.next m) (l.Lists m) c n b → Listed b →
        ∀ de ∈ (l.shown m b).1, Returns de := by
  rw [listDir_isSome hreturns hmem, ends_fuel_iff]

omit hreturns in
theorem listEntries_mem {buf : Mem} {n ent : ℕ} {out : Listing} {r : Bool × Listing × Mem}
    (h : listEntries onEntry buf n ent out m = some r) : r.2.2 = m := by
  induction n generalizing ent out with
  | zero => rw [← Option.some_inj.mp h]
  | succ n ih =>
    rw [listEntries] at h
    split at h
    · rw [← Option.some_inj.mp h]
    · exact ih h
    · split at h
      · simp at h
      · next s heq =>
        obtain rfl : s = m := hmem _ _ _ heq
        exact ih h

omit hreturns in
theorem listSectors_mem {first n sec : ℕ} {out : Listing} {r : Bool × Listing × Mem}
    (h : listSectors onEntry l.ram first n sec out m = some r) : r.2.2 = m := by
  have hread : ∀ s, l.ram.dev.read s m = (some (sector m s), m) := fun _ => rfl
  induction n generalizing sec out with
  | zero => rw [← Option.some_inj.mp h]
  | succ n ih =>
    rw [listSectors, hread] at h
    dsimp only at h
    split at h
    · simp at h
    · next s heq => rw [← Option.some_inj.mp h, ← listEntries_mem hmem heq]
    · next s heq =>
      obtain rfl : s = m := listEntries_mem hmem heq
      exact ih h

omit hreturns in
theorem listDir_mem {fuel c : ℕ} {out : Listing} {r : Listing × Mem}
    (h : listDir onEntry l.ram fuel c out m = some r) : r.2 = m := by
  induction fuel generalizing c out with
  | zero => simp [listDir] at h
  | succ fuel ih =>
    rw [listDir] at h
    split_ifs at h
    · rw [← Option.some_inj.mp h]
    · simp only [Layout.ram_toLayout] at h
      split at h
      · simp at h
      · next s heq => rw [← Option.some_inj.mp h, ← listSectors_mem hmem heq]
      · next s heq =>
        obtain rfl : s = m := listSectors_mem hmem heq
        rw [nextCluster_ram] at h
        exact ih h

end Entries

theorem listLevels_mem {left c : ℕ} {path : List UInt8} {out : Listing} {r : Listing × Mem}
    (h : listLevels l.ram left c path out m = some r) : r.2 = m := by
  induction left generalizing c path out r with
  | zero => rw [← Option.some_inj.mp h]
  | succ left ih =>
    refine listDir_mem (fun de out r h => ?_) h
    dsimp only at h
    split_ifs at h
    · exact ih h
    · rw [← Option.some_inj.mp h]

inductive Entered (l : Layout) (m : Mem) : ℕ → ℕ → ℕ → Prop
  | here {left c : ℕ} : Entered l m (left + 1) c c
  | inside {left c n b d : ℕ} {de : Dirent} (hsteps : StepsTo (l.next m) (l.Lists m) c n b)
      (hlisted : Listed b) (hshown : de ∈ (l.shown m b).1) (hdir : de.IsDir)
      (hrest : Entered l m left de.cluster d) : Entered l m (left + 1) c d

def LevelsEnd (l : Layout) (m : Mem) (left c : ℕ) : Prop :=
  ∀ d, Entered l m left c d → ¬ ComesBack (l.next m) (l.Lists m) d

theorem listLevels_returns_iff (left c : ℕ) (path : List UInt8) (out : Listing) :
    (listLevels l.ram left c path out m).isSome ↔ LevelsEnd l m left c := by
  induction left generalizing c path out with
  | zero => exact iff_of_true rfl fun d h => nomatch h
  | succ left ih =>
    have hreturns : ∀ (de : Dirent) (out : Listing), (if de.IsDir then
          listLevels l.ram left de.cluster (subPath path (nameToString de))
            ⟨out.lines ++ [.subdir (List.replicate ((10 - left) * 2) 32) (nameToString de)],
              out.fileCount, out.dirCount + 1⟩ m
        else some (⟨out.lines ++ [.file (List.replicate ((10 - left) * 2) 32) (nameToString de)
          (sizeText de.size)], out.fileCount + 1, out.dirCount⟩, m)).isSome ↔
        (de.IsDir → LevelsEnd l m left de.cluster) := by
      intro de out
      by_cases hdir : de.IsDir
      · rw [if_pos hdir, ih]
        exact ⟨fun h _ => h, fun h => h hdir⟩
      · rw [if_neg hdir]
        exact iff_of_true rfl fun h => absurd h hdir
    rw [listLevels, listDir_returns_iff hreturns]
    · constructor
      · rintro ⟨hend, hall⟩ d hd
        cases hd with
        | here => exact hend
        | inside hsteps hlisted hshown hdir hrest =>
          exact hall _ _ hsteps hlisted _ hshown hdir d hrest
      · exact fun h => ⟨h c .here, fun n b hsteps hlisted de hde hdir d hd =>
          h d (.inside hsteps hlisted hde hdir hd)⟩
    · intro de out r h
      dsimp only at h
      split_ifs at h
      · exact listLevels_mem h
      · rw [← Option.some_inj.mp h]

theorem fat32ListDirFlat_returns_iff (dir : ℕ) (indent : List UInt8) (out : Listing) :
    (fat32ListDirFlat l.ram dir indent out m).isSome ↔
      ¬ ComesBack (l.next m) (l.Lists m) dir := by
  have hreturns : ∀ (de : Dirent) (out : Listing),
      (some (flatEntry indent de out, m)).isSome ↔ True := fun _ _ => iff_of_true rfl trivial
  rw [fat32ListDirFlat, listDir_returns_iff hreturns fun _ _ r h => by rw [← Option.some_inj.mp h]]
  simp

/-- On every disk, each walk returns just if no directory that it walks leads back to a
cluster it passed over. -/
theorem walks_end_iff (l : Layout) (m : Mem) :
    (∀ dir target, (fat32Find l.ram dir target m).isSome ↔
      ¬ ComesBack (l.next m) (l.Passes m (findTest target)) dir) ∧
    (∀ dir, (findFreeDirentSlot l.ram dir m).isSome ↔
      ¬ ComesBack (l.next m) (l.Passes m freeTest) dir) ∧
    (∀ path, (fat32Resolve l.ram path m).isSome ↔ ∀ dir name, PathSearched l m path dir name →
      ¬ ComesBack (l.next m) (l.Passes m (findTest name)) dir) ∧
    (∀ dir indent out, (fat32ListDirFlat l.ram dir indent out m).isSome ↔
      ¬ ComesBack (l.next m) (l.Lists m) dir) ∧
    ∀ dir path depth out, (fat32ListDirRecursive l.ram dir path depth out m).isSome ↔
      ∀ d, Entered l m (11 - depth) dir d → ¬ ComesBack (l.next m) (l.Lists m) d :=
  ⟨fat32Find_returns_iff, findFreeDirentSlot_returns_iff, fat32Resolve_returns_iff,
    fat32ListDirFlat_returns_iff, fun dir path _ out => listLevels_returns_iff _ dir path out⟩

def loopDisk : Mem := tinyBoot (store (fill (fun _ => 0) 1024 512 65) 520 4 2)

theorem loopDisk_mount :
    fat32Mount ramDisk true loopDisk = (some (bootLayout (sector loopDisk 0)).ram, loopDisk) :=
  fat32Mount_direct (by decide +kernel) (by decide +kernel)

theorem comesBack_self {go : ℕ → Prop} {c : ℕ} (hgo : go c) (hnext : l.next m c = c) :
    ComesBack (l.next m) go c :=
  ⟨0, 1, c, by omega, stepsTo_zero, stepsTo_succ.mpr ⟨hgo, by rw [hnext]; exact stepsTo_zero⟩⟩

theorem walks_never_end :
    ∃ l : Layout, fat32Mount ramDisk true loopDisk = (some l.ram, loopDisk) ∧
      l.bpb.rootCluster = 2 ∧
      fat32Find l.ram 2 (to83 [66]) loopDisk = none ∧
      findFreeDirentSlot l.ram 2 loopDisk = none ∧
      fat32Resolve l.ram [66, 47, 67] loopDisk = none ∧
      fat32ListDirFlat l.ram 2 [] ⟨[], 0, 0⟩ loopDisk = none ∧
      fat32ListDirRecursive l.ram 2 [] 0 ⟨[], 0, 0⟩ loopDisk = none := by
  have hroot : (bootLayout (sector loopDisk 0)).bpb.rootCluster = 2 := by decide +kernel
  have hnext : (bootLayout (sector loopDisk 0)).next loopDisk 2 = 2 := by decide +kernel
  have hfind : (bootLayout (sector loopDisk 0)).Passes loopDisk (findTest (to83 [66])) 2 :=
    ⟨by decide, by rfl⟩
  have hfree : (bootLayout (sector loopDisk 0)).Passes loopDisk freeTest 2 :=
    ⟨by decide, by rfl⟩
  have hlist : (bootLayout (sector loopDisk 0)).Lists loopDisk 2 :=
    ⟨⟨by decide, le_rfl⟩, by decide +kernel⟩
  refine ⟨_, loopDisk_mount, hroot, ?_, ?_, ?_, ?_, ?_⟩
  · exact Option.not_isSome_iff_eq_none.mp fun h =>
      (fat32Find_returns_iff _ _).mp h (comesBack_self hfind hnext)
  · exact Option.not_isSome_iff_eq_none.mp fun h =>
      (findFreeDirentSlot_returns_iff _).mp h (comesBack_self hfree hnext)
  · have hsearched : PathSearched (bootLayout (sector loopDisk 0)) loopDisk [66, 47, 67] 2
        (to83 [66]) := by
      refine ⟨by decide, ?_⟩
      rw [hroot]
      exact @Searched.here _ _ 2 [66, 47, 67] (by decide) (by decide)
    exact Option.not_isSome_iff_eq_none.mp fun h =>
      (fat32Resolve_returns_iff _).mp h _ _ hsearched (comesBack_self hfind hnext)
  · exact Option.not_isSome_iff_eq_none.mp fun h =>
      (fat32ListDirFlat_returns_iff _ _ _).mp h (comesBack_self hlist hnext)
  · exact Option.not_isSome_iff_eq_none.mp fun h =>
      (listLevels_returns_iff _ _ _ _).mp h 2 .here (comesBack_self hlist hnext)

end XldKernel.Fat32
