import XldKernel.FatFaultyCreate
import XldKernel.FatOpenFailure

/-!
# FAT32: a directory that could not be made

`fat32_mkdir` frees the cluster that it claimed whenever a later step fails. When
a failed access was the reason and no second one fails, this succeeds and the
table is as before. It also happens without any failure, when the parent has no
free slot; then the accesses that free the cluster may be the ones that fail.
-/

namespace XldKernel.Fat32
open ByteMemory BlockDevice LinkedPath

/-- The table is as before, and so is every data sector outside of the clusters that
were free. -/
structure RolledBack (l : Layout) (m m' : Mem) : Prop where
  fat : ∀ s, l.fatStart ≤ s → s < l.dataStart → ∀ k < sectorSize, sector m' s k = sector m s k
  data : ∀ s, l.dataStart ≤ s → (∀ c, l.InVolume c → l.entry m c = 0 →
    ∀ i < l.bpb.sectorsPerCluster, s ≠ l.sectorOf c i) → ∀ k < sectorSize, sector m' s k =
      sector m s k

def makeDirectory {σ : Type} (fs : Fs σ) (parent : ℕ) (name : List UInt8) (s : σ) :
    Option (Bool × σ) :=
  match allocateCluster fs 0 s with
  | (cluster, s) =>
    if cluster = 0 then some (false, s)
    else
      match initDirectory fs parent cluster s with
      | (false, s) => some (false, (writeFatEntry fs cluster fat32FreeCluster s).2)
      | (true, s) => insertEntry fs parent (newDirent name attrDirectory cluster) cluster s

/-- The parent is full, and the read or the write that frees the cluster again fails. -/
def FreeingFails (l : Layout) (d : Faulty) (cs : List ℕ) : Prop :=
  FullDir l d.mem cs ∧ ∃ y, FirstFree l d.mem y ∧
    d.FailsAt (y + 1 + l.walkReads cs) (l.bpb.sectorsPerCluster + 2)

def TwoFree (l : Layout) (m : Mem) : Prop :=
  ∃ a b, a ≠ b ∧ l.InVolume a ∧ l.InVolume b ∧ l.entry m a = 0 ∧ l.entry m b = 0

variable {l : Layout} {m m₁ m' : Mem} {c p : ℕ} {cs : List ℕ} {d d₁ d₂ : Faulty} {name : List UInt8}

theorem RolledBack.refl (l : Layout) (m : Mem) : RolledBack l m m :=
  ⟨fun _ _ _ _ _ => rfl, fun _ _ _ _ _ => rfl⟩

section Volume
variable (hg : l.Geometry)
include hg

theorem rolledBack_of_frame (hc : l.InVolume c) (hfree : l.entry m c = 0)
    (hframe : ∀ x, ¬ l.InCluster c x → m' x = m x) : RolledBack l m m' := by
  refine ⟨fun s _ hs k hk => ?_, fun s _ hout k hk => ?_⟩
  · apply hframe
    intro hin
    have h1 := hin.1
    have hle := Nat.mul_le_mul_left sectorSize (Nat.le_add_right l.dataStart
      ((c - 2) * l.bpb.sectorsPerCluster))
    have hlt := Nat.mul_le_mul_left sectorSize hs
    rw [Layout.clusterAddr] at h1
    rw [Nat.mul_succ] at hlt
    omega
  · exact hframe _ (sector_notMem hg hc (hout c hc hfree) hk)

theorem freed_frame (hc : l.InVolume c) (hfree : l.entry m c = 0)
    (hframe : ∀ x, ¬ l.InCluster c x → m₁ x = l.claim m 0 c x) {x : ℕ} (hx : ¬ l.InCluster c x) :
    l.setEntry m₁ c fat32FreeCluster x = m x := by
  have hback : l.setEntry (l.claim m 0 c) c 0 = m := by
    rw [Layout.claim, if_neg (by simp), setEntry_free l m _ hfree]
  have hload : load m₁ (l.fatAddr c) 4 = load (l.claim m 0 c) (l.fatAddr c) 4 := by
    apply load_congr
    intro i hi
    exact hframe _ fun hin => not_inTable_of_inCluster hg hin (fatAddr_inTable hg hc.2 hi)
  have hsame : l.setEntry m₁ c 0 x = l.setEntry (l.claim m 0 c) c 0 x := by
    simp only [Layout.setEntry, hload, store]
    rw [hframe x hx]
  rw [fat32FreeCluster, hsame, hback]

theorem not_rolledBack (hc : l.InVolume c) (hfree : l.entry m c = 0) (hmark : l.entry m' c ≠ 0) :
    ¬ RolledBack l m m' := by
  intro h
  refine hmark ?_
  rw [← hfree]
  apply entry_congr hg hc.2
  intro x hx
  have hle := hg.table_le
  have hmul := Nat.div_add_mod x sectorSize
  have hsec := h.fat (x / sectorSize) (by
    have := hx.1
    simp only [sectorSize] at *
    omega) (by
    have := hx.2
    simp only [sectorSize] at *
    omega) (x % sectorSize) (Nat.mod_lt _ (by decide))
  simp only [sector, hmul] at hsec
  exact hsec

theorem freed_faulty (hc : l.InVolume c) (hfree : l.entry m c = 0)
    (hframe : ∀ x, ¬ l.InCluster c x → d.mem x = l.claim m 0 c x) :
    RolledBack l m (writeFatEntry l.faulty c fat32FreeCluster d).2.mem ↔ ¬ d.FailsAt 0 0 := by
  by_cases hbad : d.FailsAt 0 0
  · obtain ⟨d', hres, hmem⟩ := writeFatEntry_bad l c fat32FreeCluster hbad
    have hclaimed : l.entry d'.mem c = 0x0FFFFFFF := by
      have hpos : 0 < l.clusters := Nat.zero_lt_of_lt hc.2
      have hne : 0 ≠ c := by
        have h2 := hc.1
        omega
      rw [hmem, entry_within hg hframe hc.2]
      exact entry_claim_new hg hc hpos hne
    rw [hres]
    refine iff_of_false (not_rolledBack hg hc hfree ?_) (not_not_intro hbad)
    rw [hclaimed]
    decide
  · obtain ⟨hr, hw⟩ := not_failsAt.mp hbad
    obtain ⟨d', hres, hmem, -⟩ := writeFatEntry_good l c fat32FreeCluster hr hw
    rw [hres]
    refine iff_of_true (rolledBack_of_frame hg hc hfree fun x hx => ?_) hbad
    rw [hmem, freed_frame hg hc hfree hframe hx]

end Volume

theorem TwoFree.inVolume (h : TwoFree l d.mem) (hone : d.AtMostOne) {y : ℕ} (hy : 2 ≤ y)
    (hpassed : ∀ b, 2 ≤ b → b < y → l.entry d.mem b = 0 → d.readFails (b - 2) = true) :
    l.InVolume y := by
  refine ⟨hy, ?_⟩
  by_contra hout
  obtain ⟨a, b, hne, ha, hb, ha0, hb0⟩ := h
  have h1 := hpassed a ha.1 (by have := ha.2; omega) ha0
  have h2 := hpassed b hb.1 (by have := hb.2; omega) hb0
  have h3 := hone.reads _ _ h1 h2
  have h4 := ha.1
  have h5 := hb.1
  omega

/-- When freeing fails nothing else did, so the cluster that was claimed is the first
free one. -/
theorem FreeingFails.claimed (h : FreeingFails l d cs) (hone : d.AtMostOne) {y : ℕ} (hy : 2 ≤ y)
    (hfree : l.entry d.mem y = 0)
    (hpassed : ∀ b, 2 ≤ b → b < y → l.entry d.mem b = 0 → d.readFails (b - 2) = true) :
    d.FailsAt (y + 1 + l.walkReads cs) (l.bpb.sectorsPerCluster + 2) := by
  obtain ⟨-, z, hz, hfails⟩ := h
  rcases Nat.lt_trichotomy z y with hlt | rfl | hlt
  · have hbad := hpassed z hz.two_le hlt hz.free
    refine absurd hfails
      (hone.not_failsAt (r := z - 2 + 1) (w := 0) (Or.inl ⟨z - 2, ?_, hbad⟩) ?_ ?_)
    · omega
    · omega
    · omega
  · exact hfails
  · exact absurd hfree (hz.least y hy hlt)

theorem firstFree_of_passed (hone : d.AtMostOne) {y r w : ℕ} (hy : 2 ≤ y) (hend : y < scanEnd)
    (hfree : l.entry d.mem y = 0)
    (hpassed : ∀ b, 2 ≤ b → b < y → l.entry d.mem b = 0 → d.readFails (b - 2) = true)
    (hfails : d.FailsAt r w) (hr : y ≤ r) : FirstFree l d.mem y := by
  refine ⟨hy, hend, hfree, fun b hb hby h0 => ?_⟩
  refine hone.not_failsAt (r := b - 2 + 1) (w := 0) (Or.inl ⟨b - 2, ?_, hpassed b hb hby h0⟩) ?_ ?_
    hfails
  · omega
  · omega
  · omega

theorem insertStage_faulty (hg : l.Geometry) (hone : d.AtMostOne) (hch : Chain l d.mem p cs)
    (hname : name.length = 11) {y : ℕ} (hyv : l.InVolume y) (hend : y < scanEnd)
    (hfree : l.entry d.mem y = 0)
    (hpassed : ∀ b, 2 ≤ b → b < y → l.entry d.mem b = 0 → d.readFails (b - 2) = true)
    (hframe : ∀ x, ¬ l.InCluster y x → d₂.mem x = l.claim d.mem 0 y x)
    (hall : d.Later d₂ (y + 1) (1 + (l.bpb.sectorsPerCluster + 1))) :
    ∃ ok d', insertEntry l.faulty p (newDirent name attrDirectory y) y d₂ = some (ok, d') ∧
      ((ok = false → RolledBack l d.mem d'.mem) ↔ ¬ FreeingFails l d cs) := by
  have hs₂ := (scratched_claim hg hyv hfree).within hg hframe
  have hfull : FullDir l d₂.mem cs ↔ FullDir l d.mem cs := by
    refine forall₂_congr fun a ha => ?_
    have hbyte := hs₂.slots hg hch ha (show 0 < dirEntrySize by decide)
    rw [Nat.add_zero] at hbyte
    rw [hbyte]
  have hwidx : 1 + (l.bpb.sectorsPerCluster + 1) + 0 + 0 = l.bpb.sectorsPerCluster + 2 := by omega
  rcases insertEntry_faulty hg (hs₂.chain hch) (e := newDirent name attrDirectory y) hname y with
    ⟨d₃, r, w, hins, hmem₃, hlater₃, hcount, hwhy⟩ | ⟨pre, a, post, d', hsplit, -, ha, hins, -⟩
  · have hall₃ := hall.trans hlater₃
    have hfreed := freed_faulty hg (d := d₃) hyv hfree (by rw [hmem₃]; exact hframe)
    refine ⟨false, _, hins, ?_⟩
    simp only [true_implies]
    rw [hfreed, not_iff_not]
    refine ⟨fun hbad => ?_, fun hfreeing => ?_⟩
    · rcases hwhy with hfails | ⟨hfull₂, rfl⟩
      · have hnone := hone.noFaults hall₃ (hall.failsIn hfails)
        exact absurd hbad (not_failsAt.mpr ⟨hnone.1 0, hnone.2 0⟩)
      · obtain ⟨-, rfl⟩ := hcount hfull₂
        rw [hall₃.failsAt] at hbad
        refine ⟨hfull.mp hfull₂, y,
          firstFree_of_passed hone hyv.1 hend hfree hpassed hbad (by omega), ?_⟩
        rwa [Nat.add_zero, hwidx] at hbad
    · obtain ⟨hle, rfl⟩ := hcount (hfull.mpr hfreeing.1)
      have hat := hfreeing.claimed hone hyv.1 hfree hpassed
      rcases hwhy with hfails | ⟨-, rfl⟩
      · exact absurd hat (hone.not_failsAt (hall.failsIn hfails) (by omega) (by omega))
      · rw [hall₃.failsAt]
        rwa [Nat.add_zero, hwidx]
  · refine ⟨true, d', hins, iff_of_true (by simp) fun hfreeing => ?_⟩
    have hno := hfull.mpr hfreeing.1 a (by simp [hsplit])
    exact ha.elim hno.1 hno.2

theorem makeDirectory_faulty (hg : l.Geometry) (hone : d.AtMostOne) (htwo : TwoFree l d.mem)
    (hch : Chain l d.mem p cs) (hname : name.length = 11) :
    ∃ ok d', makeDirectory l.faulty p name d = some (ok, d') ∧
      ((ok = false → RolledBack l d.mem d'.mem) ↔ ¬ FreeingFails l d cs) := by
  obtain ⟨y, d₁, halloc, hout⟩ := allocateCluster_fresh l d
  simp only [makeDirectory, halloc]
  cases hout with
  | none hmem hwhy =>
    rw [if_pos rfl]
    refine ⟨false, d₁, rfl, iff_of_true (fun _ => hmem ▸ .refl l d.mem) ?_⟩
    rintro ⟨-, z, hz, hfails⟩
    have h2 := hz.two_le
    refine hone.not_failsAt (hwhy z h2 hz.lt_end hz.free) ?_ ?_ hfails
    · omega
    · omega
  | claimed hy hend hfree hmem₁ hlater₁ hpassed =>
    have hyv := htwo.inVolume hone hy hpassed
    have hy2 : y - 2 + 2 = y := by omega
    rw [hy2] at hlater₁
    rw [if_neg (by omega)]
    obtain ⟨ok, d₂, hinit, hframe, hok, hbad⟩ := initDirectory_faulty hg hyv p d₁
    rw [hmem₁] at hframe hok
    simp only [hinit]
    cases ok with
    | false =>
      obtain ⟨r, w, hr, hw, hlater₂, hfails⟩ := hbad rfl
      have hbefore := hlater₁.failsIn hfails
      refine ⟨false, _, rfl, iff_of_true (fun _ => ?_) fun hfreeing => ?_⟩
      · rw [freed_faulty hg hyv hfree hframe]
        have hnone := hone.noFaults (hlater₁.trans hlater₂) hbefore
        exact not_failsAt.mpr ⟨hnone.1 0, hnone.2 0⟩
      · refine hone.not_failsAt hbefore ?_ ?_ (hfreeing.claimed hone hy hfree hpassed)
        · omega
        · omega
    | true =>
      exact insertStage_faulty hg hone hch hname hyv hend hfree hpassed hframe
        (hlater₁.trans (hok rfl).2)

section Stages
variable {σ : Type} {fs : Fs σ} {path : List UInt8} {s s₁ s₂ : σ} (hvalid : fs.toLayout.Valid)
include hvalid

theorem fat32Mkdir_unresolved {r : Option Resolved} (hres : fat32Resolve fs path s = some (r, s₁))
    (hr : ∀ p name, r ≠ some ⟨p, some name⟩) : fat32Mkdir fs path s = some (false, s₁) := by
  rw [fat32Mkdir, if_neg (not_not_intro hvalid)]
  rcases r with - | ⟨p, - | name⟩
  · simp only [hres]
  · simp only [hres]
  · exact absurd rfl (hr p name)

theorem fat32Mkdir_exists {found : Found}
    (hres : fat32Resolve fs path s = some (some ⟨p, some name⟩, s₁))
    (hfind : fat32Find fs p name s₁ = some (some found, s₂)) :
    fat32Mkdir fs path s = some (false, s₂) := by
  rw [fat32Mkdir, if_neg (not_not_intro hvalid)]
  simp only [hres, hfind]

theorem fat32Mkdir_missing (hres : fat32Resolve fs path s = some (some ⟨p, some name⟩, s₁))
    (hfind : fat32Find fs p name s₁ = some (none, s₂)) :
    fat32Mkdir fs path s = makeDirectory fs p name s₂ := by
  rw [fat32Mkdir, if_neg (not_not_intro hvalid)]
  simp only [hres, hfind]
  rfl

end Stages

/-- The call ends before it changes anything, or goes on to make the directory; then the
name is missing, or one of the reads has failed. -/
theorem fat32Mkdir_lookup (hg : l.Geometry)
    (hdirs : ∀ c, DirCluster l d.mem c → ∃ cs, Chain l d.mem c cs) {path : List UInt8}
    (hpath : DotFree path) :
    (∃ d', fat32Mkdir l.faulty path d = some (false, d') ∧ d'.mem = d.mem ∧
      ∀ p name, l.Valid → Missing l d.mem path p name →
        d.FailsIn (lookupReads l d.mem path p name) 0) ∨
    ∃ p name r, l.Valid ∧ DirCluster l d.mem p ∧ name.length = 11 ∧
      fat32Mkdir l.faulty path d = makeDirectory l.faulty p name (d.skip r) ∧
      ((Missing l d.mem path p name ∧ r = lookupReads l d.mem path p name) ∨
        (d.FailsIn r 0 ∧ ∀ p' name', Missing l d.mem path p' name' → p' = p ∧ name' = name ∧
          r ≤ lookupReads l d.mem path p name)) := by
  by_cases hvalid : l.Valid
  swap
  · refine Or.inl ⟨d, ?_, rfl, fun p name hv => absurd hv hvalid⟩
    rw [fat32Mkdir, Layout.faulty_toLayout, if_pos hvalid]
  have hreads : ∀ p name, resolveReads l d.mem path ≤ lookupReads l d.mem path p name :=
    fun p name => Nat.le_add_right _ _
  cases faultyTarget hg hdirs hpath with
  | unresolved r n hres hr hwhy =>
    refine Or.inl ⟨_, fat32Mkdir_unresolved hvalid hres hr, rfl, ?_⟩
    intro p name _ hmiss
    rcases hwhy with ⟨j, hj, hbad⟩ | hram
    · exact Or.inl ⟨j, hj.trans_le (hreads p name), hbad⟩
    · exact absurd (congrArg Prod.fst (Option.some_inj.mp (hram.symm.trans hmiss.1))) (hr p name)
  | found p name found hram hfound hres hfind =>
    refine Or.inl ⟨_, fat32Mkdir_exists hvalid hres hfind, rfl, ?_⟩
    intro p' name' _ hmiss
    obtain ⟨rfl, rfl⟩ := resolved_unique hram hmiss.1
    have hnone := hfound.symm.trans hmiss.2
    simp at hnone
  | missing p name h htarget hres hfind =>
    exact Or.inr ⟨p, name, _, hvalid, htarget.1, fat32Resolve_name h.1,
      fat32Mkdir_missing hvalid hres hfind, Or.inl ⟨h, rfl⟩⟩
  | lost p name j hram htarget hj hbad hres hfind =>
    refine Or.inr ⟨p, name, _, hvalid, htarget.1, fat32Resolve_name hram,
      fat32Mkdir_missing hvalid hres hfind, Or.inr ⟨?_, ?_⟩⟩
    · exact Or.inl ⟨_, Nat.lt_succ_self _, hbad⟩
    · intro p' name' hmiss
      obtain ⟨rfl, rfl⟩ := resolved_unique hram hmiss.1
      exact ⟨rfl, rfl, Nat.add_le_add_left hj _⟩

def RollbackFails (l : Layout) (d : Faulty) (path : List UInt8) : Prop :=
  l.Valid ∧ ∃ p name cs, Missing l d.mem path p name ∧ Chain l d.mem p cs ∧
    FreeingFails l (d.skip (lookupReads l d.mem path p name)) cs

/-- A failed `fat32_mkdir` leaves no trace unless the parent directory is full and the one
access that fails is one of the two that free the cluster again. -/
theorem failed_mkdir_iff (l : Layout) (hg : l.Geometry) (d : Faulty) (files : Files)
    (hwf : WellFormed l d.mem files) (htwo : TwoFree l d.mem) (hone : d.AtMostOne)
    (path : List UInt8) (hpath : DotFree path) :
    ∃ ok d', fat32Mkdir l.faulty path d = some (ok, d') ∧
      ((ok = false → RolledBack l d.mem d'.mem) ↔ ¬ RollbackFails l d path) := by
  have hdirs : ∀ c, DirCluster l d.mem c → ∃ cs, Chain l d.mem c cs := fun c hc => hwf.dir_chain hc
  rcases fat32Mkdir_lookup hg hdirs hpath with ⟨d', hres, hmem, hwhy⟩ |
    ⟨p, name, r, hvalid, hp, hname, hres, hwhy⟩
  · refine ⟨false, d', hres, iff_of_true (fun _ => hmem ▸ .refl l d.mem) ?_⟩
    rintro ⟨hvalid, p, name, cs, hmiss, -, -, y, -, hfails⟩
    rw [(d.later_skip _).failsAt] at hfails
    exact hone.not_failsAt (hwhy p name hvalid hmiss) (by omega) (by omega) hfails
  · obtain ⟨cs, hch⟩ := hdirs p hp
    obtain ⟨ok, d', hmake, hiff⟩ := makeDirectory_faulty (d := d.skip r) hg
      (hone.later (d.later_skip r)) htwo hch hname
    refine ⟨ok, d', hres.trans hmake, hiff.trans (not_congr ?_)⟩
    rcases hwhy with ⟨hmiss, rfl⟩ | ⟨hfails, hsame⟩
    · refine ⟨fun h => ⟨hvalid, p, name, cs, hmiss, hch, h⟩, ?_⟩
      rintro ⟨-, p', name', cs', hmiss', hch', h⟩
      obtain ⟨rfl, rfl⟩ := resolved_unique hmiss.1 hmiss'.1
      rwa [hch.unique hg hch']
    · refine iff_of_false ?_ ?_
      · rintro ⟨-, y, -, hat⟩
        rw [(d.later_skip _).failsAt] at hat
        exact hone.not_failsAt hfails (by omega) (by omega) hat
      · rintro ⟨-, p', name', cs', hmiss', -, -, y, -, hat⟩
        obtain ⟨rfl, rfl, hle⟩ := hsame p' name' hmiss'
        rw [(d.later_skip _).failsAt] at hat
        exact hone.not_failsAt hfails (by omega) (by omega) hat

def failingWrite (m : Mem) (n : ℕ) : Faulty := ⟨m, fun _ => false, fun k => k = n⟩

theorem failingWrite_one (m : Mem) (n : ℕ) : (failingWrite m n).AtMostOne where
  reads i j hi := by simp [failingWrite] at hi
  writes i j hi hj := (of_decide_eq_true hi).trans (of_decide_eq_true hj).symm
  either i j hi := by simp [failingWrite] at hi

theorem failed_mkdir_tiny :
    ∃ d', fat32Mkdir tinyLayout.faulty [68] (failingWrite tinyDisk 1) = some (false, d') ∧
      RolledBack tinyLayout tinyDisk d'.mem := by
  have hcheck : (⟨[(2, [2])], [(2, [2])]⟩ : Catalogue).Checks tinyLayout tinyDisk noFiles := by
    decide +kernel
  have htwo : TwoFree tinyLayout tinyDisk :=
    ⟨3, 4, by decide, by decide, by decide, by decide +kernel, by decide +kernel⟩
  obtain ⟨ok, d', hres, hiff⟩ := failed_mkdir_iff tinyLayout tinyLayout_geometry
    (failingWrite tinyDisk 1) noFiles (hcheck.wellFormed tinyLayout_geometry) htwo
    (failingWrite_one _ _) [68] (by decide)
  have hfail : (fat32Mkdir tinyLayout.faulty [68] (failingWrite tinyDisk 1)).map Prod.fst =
      some false := by decide +kernel
  rw [hres] at hfail
  obtain rfl : ok = false := Option.some_inj.mp hfail
  refine ⟨d', hres, hiff.mpr ?_ rfl⟩
  rintro ⟨-, p, name, cs, -, -, -, y, -, hat | hat⟩
  · simp [failingWrite] at hat
  · have hthree : decide (tinyLayout.bpb.sectorsPerCluster + 2 = 1) = true := hat
    exact absurd hthree (by decide)

def fullDisk : Mem :=
  (List.range 16).foldl (fun m i => putDirent m (1024 + 32 * i)
    ⟨to83 [65 + UInt8.ofNat i], attrArchive, 0, 0, 0⟩) tinyDisk

/-- The root is full, and the write that frees cluster 3 again fails. -/
theorem claimed_cluster_kept :
    WellFormed tinyLayout fullDisk noFiles ∧ TwoFree tinyLayout fullDisk ∧ DotFree [90] ∧
    (failingWrite fullDisk 3).AtMostOne ∧
    ∃ d', fat32Mkdir tinyLayout.faulty [90] (failingWrite fullDisk 3) = some (false, d') ∧
      ¬ RolledBack tinyLayout fullDisk d'.mem := by
  have hcheck : (⟨[(2, [2])], [(2, [2])]⟩ : Catalogue).Checks tinyLayout fullDisk noFiles := by
    decide +kernel
  have hrun : (fat32Mkdir tinyLayout.faulty [90] (failingWrite fullDisk 3)).map
      (fun r => (r.1, tinyLayout.entry r.2.mem 3)) = some (false, 0x0FFFFFFF) := by decide +kernel
  obtain ⟨⟨ok, d'⟩, hres, heq⟩ := Option.map_eq_some_iff.mp hrun
  obtain ⟨rfl, hentry⟩ := Prod.mk.inj heq
  refine ⟨hcheck.wellFormed tinyLayout_geometry, ?_, by decide, failingWrite_one _ _, d', hres, ?_⟩
  · exact ⟨3, 4, by decide, by decide, by decide, by decide +kernel, by decide +kernel⟩
  · refine not_rolledBack tinyLayout_geometry (by decide) (c := 3) (by decide +kernel) ?_
    rw [hentry]
    decide

end XldKernel.Fat32
