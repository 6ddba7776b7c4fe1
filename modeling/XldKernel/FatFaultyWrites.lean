import XldKernel.FatLinkFaults
import XldKernel.FatFaultyCreate

/-!
# FAT32: the rounds of a write on a faulty device

A round of `fat32_write` stands at a position of the clusters that the file had
before the call, or has left them (`Away`): behind the end of the chain, or where a
link could not be read, it goes on in a cluster of its own. What a round does to the
data of the clusters is stated position by position.
-/

namespace XldKernel.Fat32
open ByteMemory BlockDevice LinkedPath UniformBlocks

/-- The read of the `r`-th link from position `offset` of a cluster on: it comes behind the
sectors of `r` clusters, less those in front of `offset`, and `r - 1` other links. -/
def linkRead (l : Layout) (offset r : ℕ) : ℕ :=
  r * (l.bpb.sectorsPerCluster + 1) - 1 - offset / sectorSize

/-- The next `n` allocations of a call, of which the first begins with read `k`, come to a
free cluster before they read behind the table, or can read nothing there. An allocation
that gets cluster `y` reads its entry with read `k + (y - 2)`, and once more, and that of
the cluster in front of it; the next one begins behind the sectors of `y` and its link. -/
def ScansStay (l : Layout) (fails : ℕ → Bool) : ℕ → ℕ → List ℕ → Prop
  | 0, _, _ => True
  | n + 1, k, free =>
    match free.find? fun y => !fails (k + (y - 2)) with
    | none => ∀ z, l.clusters ≤ z → z < scanEnd → fails (k + (z - 2)) = true
    | some y => fails (k + (y - 1)) = true ∨ fails (k + y) = true ∨
        ScansStay l fails n (k + y + 2 + l.bpb.sectorsPerCluster) (free.erase y)

/-- A call of `len` bytes leaves its chain, of which there are `left` clusters from
position `offset` of the first on, at the `r`-th link: it is lost or it is the last. -/
structure LeavesAt (l : Layout) (left offset len : ℕ) (fails : ℕ → Bool) (r : ℕ) : Prop where
  pos : 0 < r
  reached : r * l.bytesPerCluster ≤ offset + len
  inside : r ≤ left
  links : ∀ r', 0 < r' → r' < r → fails (linkRead l offset r') = false
  why : fails (linkRead l offset r) = true ∨ r = left

def WriteStays (l : Layout) (left offset len : ℕ) (fails : ℕ → Bool) (free : List ℕ) : Prop :=
  ∀ r, LeavesAt l left offset len fails r →
    ScansStay l fails ((offset + len) / l.bytesPerCluster - r + 1) (linkRead l offset r + 1) free

variable {l : Layout} {m m' m₁ m₂ : Mem} {old : List ℕ} {w : WriteState Faulty}

theorem writeLoop_succ {σ : Type} (fs : Fs σ) (n : ℕ) {w : WriteState σ} (hdata : w.data ≠ []) :
    writeLoop fs (n + 1) w =
      if (writeRound fs w).1 then writeLoop fs n (writeRound fs w).2 else (writeRound fs w).2 := by
  rw [writeLoop, if_neg hdata]
  rcases writeRound fs w with ⟨_ | _, w₁⟩ <;> rfl

def SameData (l : Layout) (old : List ℕ) (m m' : Mem) : Prop :=
  ∀ q < old.length * l.bytesPerCluster, chainByte l m' old q = chainByte l m old q

theorem SameData.trans (h₁ : SameData l old m m₁) (h₂ : SameData l old m₁ m₂) :
    SameData l old m m₂ :=
  fun q hq => (h₂ q hq).trans (h₁ q hq)

theorem same_sector (hg : l.Geometry) {p q : ℕ} (h : q / sectorSize = p / sectorSize) :
    q / l.bytesPerCluster = p / l.bytesPerCluster ∧
      q % l.bytesPerCluster / sectorSize = p % l.bytesPerCluster / sectorSize := by
  rw [hg.bytes, ← Nat.div_div_eq_div_mul, ← Nat.div_div_eq_div_mul, Nat.mod_mul_right_div_self,
    Nat.mod_mul_right_div_self, h]
  exact ⟨rfl, rfl⟩

section Data
variable (hg : l.Geometry) (hrange : ∀ x ∈ old, l.InVolume x)
include hg hrange

theorem sameData_of_table (h : ∀ x, ¬ l.InTable x → m' x = m x) : SameData l old m m' := by
  intro q hq
  rw [chainByte_eq hg hrange hq, chainByte_eq hg hrange hq]
  exact h _ (not_inTable_of_inCluster hg (posAddr_inCluster hg old q))

theorem sameData_putSector {x i : ℕ} (hx : l.InVolume x) (hno : x ∉ old)
    (hi : i < l.bpb.sectorsPerCluster) (buf : Mem) :
    SameData l old m (putSector m (l.sectorOf x i) buf) := by
  intro q hq
  rw [chainByte_eq hg hrange hq, chainByte_eq hg hrange hq]
  apply putSector_outside hg hx hi
  intro hin
  have hmem := posAddr_mem hq
  rw [← inCluster_inj hg hx (hrange _ hmem) hin (posAddr_inCluster hg old q)] at hmem
  exact hno hmem

theorem chainByte_putSector (hnodup : old.Nodup) {pos q : ℕ}
    (hpos : pos < old.length * l.bytesPerCluster) (hq : q < old.length * l.bytesPerCluster)
    (buf : Mem) :
    chainByte l (putSector m (l.sectorOf (old.getD (pos / l.bytesPerCluster) 0)
      (pos % l.bytesPerCluster / sectorSize)) buf) old q =
      if q / sectorSize = pos / sectorSize then buf (q % sectorSize) else chainByte l m old q := by
  have hmod := Nat.mod_lt q (show 0 < sectorSize by decide)
  split_ifs with hsame
  · obtain ⟨hdiv, hsec⟩ := same_sector hg hsame
    rw [chainByte, hdiv, hsec, putSector, if_pos (by omega), Nat.add_sub_cancel_left]
  · -- the position in the written sector that has the same offset in it is another one
    rw [chainByte, chainByte]
    apply putSector_apart
    by_contra hin
    have hoff : (sectorSize * (pos / sectorSize) + q % sectorSize) / sectorSize =
        pos / sectorSize := by
      rw [Nat.mul_add_div (by decide), Nat.div_eq_of_lt hmod, Nat.add_zero]
    have hrem : (sectorSize * (pos / sectorSize) + q % sectorSize) % sectorSize =
        q % sectorSize := by
      rw [Nat.mul_add_mod, Nat.mod_mod]
    obtain ⟨hdiv, hsec⟩ := same_sector hg hoff
    have hlt : sectorSize * (pos / sectorSize) + q % sectorSize <
        old.length * l.bytesPerCluster := by
      have hidx := Nat.div_lt_of_lt_mul (show pos < l.bytesPerCluster * old.length by
        rwa [Nat.mul_comm] at hpos)
      rw [← hdiv] at hidx
      exact (Nat.div_lt_iff_lt_mul hg.bytes_pos).mp hidx
    have hpa := posAddr_eq hg hrange hlt
    rw [hdiv, hsec, hrem] at hpa
    have hqa := posAddr_eq hg hrange hq
    have hsectors : l.sectorOf (old.getD (q / l.bytesPerCluster) 0)
        (q % l.bytesPerCluster / sectorSize) = l.sectorOf (old.getD (pos / l.bytesPerCluster) 0)
        (pos % l.bytesPerCluster / sectorSize) := by
      simp only [sectorSize] at *
      omega
    rw [hsectors] at hqa
    have heq := posAddr_inj hg hrange hnodup hq hlt (hqa.trans hpa.symm)
    apply hsame
    rw [heq]
    exact hoff

end Data

section Schedule
variable {fails fails' : ℕ → Bool} {free : List ℕ} {left offset len n : ℕ} {d : Faulty}

theorem scansStay_shift {j : ℕ} (h : ∀ i, fails' i = fails (i + j)) (n k : ℕ) (free : List ℕ) :
    ScansStay l fails' n k free ↔ ScansStay l fails n (k + j) free := by
  induction n generalizing k free with
  | zero => rfl
  | succ n ih =>
    have hidx : ∀ i, fails' (k + i) = fails (k + j + i) := fun i => by
      rw [h, Nat.add_right_comm]
    simp only [ScansStay, hidx]
    cases free.find? fun y => !fails (k + j + (y - 2)) with
    | none => rfl
    | some y =>
      have hnext : k + y + 2 + l.bpb.sectorsPerCluster + j =
          k + j + y + 2 + l.bpb.sectorsPerCluster := by omega
      dsimp only
      rw [ih, hnext]

theorem linkRead_stay (hg : l.Geometry) (hin : offset + n < l.bytesPerCluster)
    (hsec : (offset + n) / sectorSize = offset / sectorSize + 1) {r : ℕ} (hr : 0 < r) :
    linkRead l (offset + n) r + 1 = linkRead l offset r := by
  have hlt : (offset + n) / sectorSize < l.bpb.sectorsPerCluster := by
    rw [hg.bytes] at hin
    exact Nat.div_lt_of_lt_mul hin
  have hmul := Nat.mul_le_mul_right (l.bpb.sectorsPerCluster + 1) hr
  rw [linkRead, linkRead]
  omega

theorem linkRead_pass (hsec : offset / sectorSize + 1 = l.bpb.sectorsPerCluster) {r : ℕ}
    (hr : 0 < r) : linkRead l 0 r + 2 = linkRead l offset (r + 1) := by
  have hmul := Nat.mul_le_mul_right (l.bpb.sectorsPerCluster + 1) hr
  rw [linkRead, linkRead, Nat.zero_div, Nat.succ_mul]
  omega

theorem linkRead_one (hsec : offset / sectorSize + 1 = l.bpb.sectorsPerCluster) :
    linkRead l offset 1 = 1 := by
  rw [linkRead]
  omega

theorem WriteStays.stay (hg : l.Geometry) (h : WriteStays l left offset len d.readFails free)
    (hn : n < len) (hin : offset + n < l.bytesPerCluster)
    (hsec : (offset + n) / sectorSize = offset / sectorSize + 1) :
    WriteStays l left (offset + n) (len - n) (d.skip 1).readFails free := by
  intro r hr
  have hsum : offset + n + (len - n) = offset + len := by omega
  have hlink : ∀ {r}, 0 < r → linkRead l (offset + n) r + 1 = linkRead l offset r :=
    linkRead_stay hg hin hsec
  have hleaves : LeavesAt l left offset len d.readFails r := by
    refine ⟨hr.pos, hsum ▸ hr.reached, hr.inside, fun r' h0 hlt => ?_, ?_⟩
    · rw [← hlink h0]
      exact hr.links r' h0 hlt
    · rw [← hlink hr.pos]
      exact hr.why
  rw [scansStay_shift (d.skip_readFails 1), hsum, hlink hr.pos]
  exact h r hleaves

theorem WriteStays.pass (hg : l.Geometry)
    (h : WriteStays l (left + 1) offset len d.readFails free) (hn : n ≤ len)
    (hend : offset + n = l.bytesPerCluster)
    (hsec : offset / sectorSize + 1 = l.bpb.sectorsPerCluster) (hread : d.readFails 1 = false) :
    WriteStays l left 0 (len - n) (d.skip 2).readFails free := by
  intro r hr
  have hsum : offset + len = l.bytesPerCluster + (0 + (len - n)) := by omega
  have hdiv : (offset + len) / l.bytesPerCluster = (0 + (len - n)) / l.bytesPerCluster + 1 := by
    rw [hsum, Nat.add_div_left _ hg.bytes_pos]
  have hleaves : LeavesAt l (left + 1) offset len d.readFails (r + 1) := by
    have hreached := hr.reached
    refine ⟨Nat.succ_pos r, ?_, Nat.succ_le_succ hr.inside, fun r' h0 hlt => ?_, ?_⟩
    · rw [Nat.succ_mul]
      omega
    · cases r' with
      | zero => exact absurd h0 (lt_irrefl 0)
      | succ r' =>
        rcases Nat.eq_zero_or_pos r' with rfl | h1
        · rw [linkRead_one hsec]
          exact hread
        · rw [← linkRead_pass hsec h1]
          exact hr.links r' h1 (Nat.lt_of_succ_lt_succ hlt)
    · rw [← linkRead_pass hsec hr.pos]
      exact hr.why.imp id (congrArg Nat.succ)
  have hcount : (offset + len) / l.bytesPerCluster - (r + 1) + 1 =
      (0 + (len - n)) / l.bytesPerCluster - r + 1 := by
    rw [hdiv, Nat.add_sub_add_right]
  have hstay := h (r + 1) hleaves
  rw [hcount, ← linkRead_pass hsec hr.pos] at hstay
  rw [scansStay_shift (d.skip_readFails 2), Nat.add_right_comm]
  exact hstay

theorem WriteStays.leave (hg : l.Geometry) (h : WriteStays l left offset len d.readFails free)
    (hn : n ≤ len) (hend : offset + n = l.bytesPerCluster)
    (hsec : offset / sectorSize + 1 = l.bpb.sectorsPerCluster) (hleft : 0 < left)
    (hwhy : d.readFails 1 = true ∨ 1 = left) :
    ScansStay l (d.skip 2).readFails ((len - n) / l.bytesPerCluster + 1) 0 free := by
  have hsum : offset + len = l.bytesPerCluster + (len - n) := by omega
  have hstay := h 1 ⟨one_pos, by omega, hleft, fun r' h0 h1 => by omega, by
    rw [linkRead_one hsec]
    exact hwhy⟩
  rw [linkRead_one hsec, hsum, Nat.add_div_left _ hg.bytes_pos, Nat.add_sub_cancel] at hstay
  rw [scansStay_shift (d.skip_readFails 2)]
  exact hstay

end Schedule

theorem nextCluster_bad {d : Faulty} (h : d.readFails 0 = true) (l : Layout) (c : ℕ) :
    nextCluster l.faulty c d = (endOfChain, d.skip 1) := by
  simp only [nextCluster, readFatEntry, Layout.faulty_dev, read_bad h]
  rfl

section Scans
variable {d : Faulty} {prev y : ℕ}

theorem freeClusters_find {p : ℕ → Bool} (h : (l.freeClusters m).find? p = some y) :
    l.InVolume y ∧ y < scanEnd ∧ l.entry m y = 0 ∧ p y = true ∧
      ∀ z, 2 ≤ z → z < y → l.entry m z = 0 → p z = false := by
  rw [Layout.freeClusters, List.find?_filter, List.find?_range_eq_some] at h
  obtain ⟨hy, hlt, hmin⟩ := h
  simp only [List.mem_range, lt_min_iff, decide_eq_true_eq] at hy hlt
  refine ⟨⟨hy.1.1, hlt.1⟩, hlt.2, hy.1.2, hy.2, fun z h2 hz hfree => ?_⟩
  simpa [h2, hfree] using hmin z hz

theorem freeClusters_find_none {p : ℕ → Bool} (h : (l.freeClusters m).find? p = none) :
    ∀ z, l.InVolume z → z < scanEnd → l.entry m z = 0 → p z = false := by
  intro z hz hend hfree
  rw [List.find?_eq_none] at h
  have hmem : z ∈ l.freeClusters m := by
    simp [Layout.freeClusters, hz.1, hz.2, hend, hfree]
  simpa using h z hmem

theorem allocateScan_step (l : Layout) (prev n c : ℕ) (d : Faulty) :
    allocateScan l.faulty prev (n + 1) c d =
      if d.readFails 0 = false ∧ l.entry d.mem c = 0 then claimCluster l.faulty prev c (d.skip 1)
      else allocateScan l.faulty prev n (c + 1) (d.skip 1) := by
  cases hread : d.readFails 0 with
  | true =>
    simp only [allocateScan, readFatEntry, Layout.faulty_dev, read_bad hread]
    rw [if_neg (by decide), if_neg (by simp)]
  | false =>
    simp only [allocateScan, readFatEntry, Layout.faulty_dev, Layout.faulty_toLayout,
      read_good hread, load_sector, true_and]
    rw [← Layout.fatAddr, ← Layout.entry, fat32FreeCluster]

theorem allocateScan_first {n c : ℕ} (hcy : c ≤ y) (hyn : y < c + n) (hfree : l.entry d.mem y = 0)
    (hread : d.readFails (y - c) = false)
    (hmin : ∀ z, c ≤ z → z < y → l.entry d.mem z = 0 → d.readFails (z - c) = true) :
    allocateScan l.faulty prev n c d = claimCluster l.faulty prev y (d.skip (y - c + 1)) := by
  induction n generalizing c d with
  | zero => omega
  | succ n ih =>
    rw [allocateScan_step]
    rcases Nat.eq_or_lt_of_le hcy with rfl | hlt
    · rw [Nat.sub_self] at hread
      rw [if_pos ⟨hread, hfree⟩, Nat.sub_self]
    · have hpass : ¬ (d.readFails 0 = false ∧ l.entry d.mem c = 0) := by
        rintro ⟨h0, hc⟩
        have hbad := hmin c le_rfl hlt hc
        rw [Nat.sub_self, h0] at hbad
        exact Bool.false_ne_true hbad
      have hidx : y - (c + 1) + 1 = y - c := by omega
      rw [if_neg hpass, ih (d := d.skip 1) (c := c + 1) hlt (by omega) hfree,
        Faulty.skip_skip, Nat.add_comm 1, hidx]
      · rw [Faulty.skip_readFails, hidx]
        exact hread
      · intro z hcz hz hz0
        have hidz : z - (c + 1) + 1 = z - c := by omega
        rw [Faulty.skip_readFails, hidz]
        exact hmin z (by omega) hz hz0

theorem allocateScan_none {n c : ℕ}
    (h : ∀ z, c ≤ z → z < c + n → l.entry d.mem z = 0 → d.readFails (z - c) = true) :
    allocateScan l.faulty prev n c d = (0, d.skip n) := by
  induction n generalizing c d with
  | zero => rfl
  | succ n ih =>
    have hpass : ¬ (d.readFails 0 = false ∧ l.entry d.mem c = 0) := by
      rintro ⟨h0, hc⟩
      have hbad := h c le_rfl (by omega) hc
      rw [Nat.sub_self, h0] at hbad
      exact Bool.false_ne_true hbad
    rw [allocateScan_step, if_neg hpass, ih, Faulty.skip_skip, Nat.add_comm 1]
    intro z hcz hz hz0
    have hidz : z - (c + 1) + 1 = z - c := by omega
    rw [Faulty.skip_readFails, hidz]
    exact h z (by omega) (by omega) hz0

theorem claimCluster_later (hprev : prev ≠ 0) (hfree : l.entry d.mem y = 0) :
    ∃ c d', claimCluster l.faulty prev y d = (c, d') ∧ ClaimOutcome l d.mem prev y c d'.mem ∧
      (c ≠ 0 → d.readFails 0 = false ∧ d.readFails 1 = false ∧
        ∀ k, d'.readFails k = d.readFails (k + 2)) := by
  obtain ⟨c, d', hres, hout⟩ := claimCluster_faulty l prev hfree
  refine ⟨c, d', hres, hout, fun hc => ?_⟩
  by_cases h0 : d.FailsAt 0 0
  · obtain ⟨d₁, hbad, -⟩ := writeFatEntry_bad l y 0x0FFFFFFF h0
    simp only [claimCluster, hbad] at hres
    exact absurd (Prod.mk.inj hres).1.symm hc
  rw [Faulty.FailsAt, not_or, Bool.not_eq_true, Bool.not_eq_true] at h0
  obtain ⟨d₁, hmark, -, hlater⟩ := writeFatEntry_good l y 0x0FFFFFFF h0.1 h0.2
  by_cases h1 : d₁.FailsAt 0 0
  · obtain ⟨d₂, hbad, -⟩ := writeFatEntry_bad l prev y h1
    simp only [claimCluster, hmark, if_pos hprev, hbad] at hres
    exact absurd (Prod.mk.inj hres).1.symm hc
  rw [Faulty.FailsAt, not_or, Bool.not_eq_true, Bool.not_eq_true] at h1
  obtain ⟨d₂, hlink, -, hlater'⟩ := writeFatEntry_good l prev y h1.1 h1.2
  simp only [claimCluster, hmark, if_pos hprev, hlink] at hres
  obtain ⟨-, rfl⟩ := Prod.mk.inj hres
  refine ⟨h0.1, ?_, (hlater.trans hlater').1⟩
  rw [← Nat.zero_add 1, ← hlater.1]
  exact h1.1

inductive Allocates (l : Layout) (d : Faulty) (prev n : ℕ) : ℕ → Faulty → Prop
  | none {d' : Faulty} (hmem : d'.mem = d.mem) : Allocates l d prev n 0 d'
  | claims {y c : ℕ} {d' : Faulty} (hy : l.InVolume y) (hend : y < scanEnd)
      (hfree : l.entry d.mem y = 0) (hout : ClaimOutcome l d.mem prev y c d'.mem)
      (hstay : c ≠ 0 → ScansStay l d'.readFails n (l.bpb.sectorsPerCluster + 1)
        ((l.freeClusters d.mem).erase y)) : Allocates l d prev n c d'

theorem allocateCluster_stays {n : ℕ} (hprev : prev ≠ 0)
    (h : ScansStay l d.readFails (n + 1) 0 (l.freeClusters d.mem)) :
    ∃ c d', allocateCluster l.faulty prev d = (c, d') ∧ Allocates l d prev n c d' := by
  have hsum : 2 + (scanEnd - 2) = scanEnd := by decide
  rw [ScansStay] at h
  simp only [Nat.zero_add] at h
  rcases hfind : (l.freeClusters d.mem).find? fun y => !d.readFails (y - 2) with _ | y
  · rw [hfind] at h
    have hnone := freeClusters_find_none hfind
    refine ⟨0, _, allocateScan_none fun z h2 hz hfree => ?_, .none rfl⟩
    rw [hsum] at hz
    by_cases hvol : z < l.clusters
    · simpa using hnone z ⟨h2, hvol⟩ hz hfree
    · exact h z (not_lt.mp hvol) hz
  · rw [hfind] at h
    obtain ⟨hy, hend, hfree, hread, hmin⟩ := freeClusters_find hfind
    have hscan : allocateScan l.faulty prev (scanEnd - 2) 2 d =
        claimCluster l.faulty prev y (d.skip (y - 2 + 1)) :=
      allocateScan_first hy.1 (by omega) hfree (by simpa using hread)
        fun z h2 hz hz0 => by simpa using hmin z h2 hz hz0
    obtain ⟨c, d', hclaim, hout, hlater⟩ :=
      claimCluster_later (d := d.skip (y - 2 + 1)) hprev hfree
    refine ⟨c, d', hscan.trans hclaim, .claims hy hend hfree hout fun hc => ?_⟩
    obtain ⟨hfirst, hsecond, hshift⟩ := hlater hc
    have h2 := hy.1
    have hidx : ∀ k, k + 2 + (y - 2 + 1) = k + (y + 1) := fun k => by omega
    have hfails : ∀ k, d'.readFails k = d.readFails (k + (y + 1)) := fun k => by
      rw [hshift, Faulty.skip_readFails, hidx]
    have hone : 0 + (y - 2 + 1) = y - 1 := by omega
    have htwo : 1 + (y - 2 + 1) = y := by omega
    rw [Faulty.skip_readFails, hone] at hfirst
    rw [Faulty.skip_readFails, htwo] at hsecond
    rw [scansStay_shift hfails]
    have hnext : l.bpb.sectorsPerCluster + 1 + (y + 1) = y + 2 + l.bpb.sectorsPerCluster := by omega
    rw [hnext]
    rcases h with hbad | hbad | hrest
    · exact absurd (hfirst.symm.trans hbad) (by simp)
    · exact absurd (hsecond.symm.trans hbad) (by simp)
    · exact hrest

end Scans

theorem ClaimOutcome.spares (hg : l.Geometry) {prev y c : ℕ} (hprev : l.InVolume prev)
    (hused : l.entry m prev ≠ 0) (hy : l.InVolume y) (hend : y < scanEnd) (hfree : l.entry m y = 0)
    (h : ClaimOutcome l m prev y c m') :
    (∀ x, ¬ l.InTable x → m' x = m x) ∧
    (∀ z, l.InVolume z → l.entry m z ≠ 0 → l.entry m' z ≠ 0) ∧
    (c ≠ 0 → c = y ∧ l.entry m' y = 0x0FFFFFFF ∧ m' = l.claim m prev y) := by
  have hne : prev ≠ y := fun heq => hused (heq ▸ hfree)
  have hy0 : y ≠ 0 := by
    have h2 := hy.1
    omega
  cases h with
  | none => exact ⟨fun _ _ => rfl, fun _ _ => id, fun h0 => absurd rfl h0⟩
  | lost =>
    refine ⟨fun x hx => setEntry_apart hg hy.2 hx _, fun z hz hz0 => ?_, fun h0 => absurd rfl h0⟩
    rw [entry_setEntry_ne hg hy.2 hz.2 (fun heq => hz0 (heq ▸ hfree))]
    exact hz0
  | claimed =>
    refine ⟨fun x hx => claim_apart hg hy hprev.2 hx, fun z hz hz0 => ?_,
      fun _ => ⟨rfl, entry_claim_new hg hy hprev.2 hne, rfl⟩⟩
    have hzy : z ≠ y := fun heq => hz0 (heq ▸ hfree)
    by_cases hzp : z = prev
    · have hp0 : prev ≠ 0 := by
        have h2 := hprev.1
        omega
      rw [hzp, entry_claim_prev hp0 (hend.trans (by decide))]
      exact hy0
    · rw [entry_claim_other hg hy hprev.2 hz.2 hzy hzp]
      exact hz0

structure Away (l : Layout) (m : Mem) (f : File) (old : List ℕ) : Prop where
  curr : l.InVolume f.currCluster
  apart : f.currCluster ∉ old
  mark : l.entry m f.currCluster = 0x0FFFFFFF
  used : ∀ x ∈ old, l.entry m x ≠ 0
  off : f.currOffset < l.bytesPerCluster

def AwayStays (l : Layout) (w : WriteState Faulty) : Prop :=
  ScansStay l w.s.readFails ((w.file.currOffset + w.data.length) / l.bytesPerCluster)
    (l.bpb.sectorsPerCluster + 1 - w.file.currOffset / sectorSize) (l.freeClusters w.s.mem)

section Leaving
variable (hg : l.Geometry) (hrange : ∀ x ∈ old, l.InVolume x)
include hg hrange

theorem advance_leaves (hcurr : l.InVolume w.file.currCluster)
    (hbusy : l.entry w.s.mem w.file.currCluster ≠ 0) (hused : ∀ x ∈ old, l.entry w.s.mem x ≠ 0)
    (hout : ¬ w.file.currOffset < l.bytesPerCluster)
    (hnext : nextCluster l.faulty w.file.currCluster w.s = (endOfChain, w.s.skip 1))
    (hstay : ScansStay l (w.s.skip 1).readFails (w.data.length / l.bytesPerCluster + 1) 0
      (l.freeClusters w.s.mem)) :
    SameData l old w.s.mem (advance l.faulty w).2.s.mem ∧
    ((advance l.faulty w).1 = true →
      Away l (advance l.faulty w).2.s.mem (advance l.faulty w).2.file old ∧
      AwayStays l (advance l.faulty w).2) := by
  have hne : w.file.currCluster ≠ 0 := by
    have h2 := hcurr.1
    omega
  obtain ⟨c, d', halloc, hres⟩ := allocateCluster_stays (d := w.s.skip 1) hne hstay
  simp only [advance, Layout.faulty_toLayout, if_neg hout, hnext, if_true, halloc]
  cases hres with
  | none hmem =>
    rw [if_pos rfl]
    exact ⟨fun q _ => by rw [hmem, Faulty.skip_mem], fun h => absurd h (by simp)⟩
  | @claims y _ _ hy hend hy0 hclaim hrest =>
    rw [Faulty.skip_mem] at hy0 hclaim hrest
    obtain ⟨hdata, hkeep, hnew⟩ := hclaim.spares hg hcurr hbusy hy hend hy0
    by_cases h0 : c = 0
    · rw [if_pos h0]
      exact ⟨sameData_of_table hg hrange hdata, fun h => absurd h (by simp)⟩
    · rw [if_neg h0]
      obtain ⟨rfl, hmark, hmem⟩ := hnew h0
      refine ⟨sameData_of_table hg hrange hdata, fun _ => ⟨⟨hy, fun hin => hused c hin hy0, hmark,
        fun x hx => hkeep x (hrange x hx) (hused x hx), hg.bytes_pos⟩, ?_⟩⟩
      have hfree : l.freeClusters d'.mem = (l.freeClusters w.s.mem).erase c := by
        rw [hmem, freeClusters_claim hg hcurr.2 (fun _ => hbusy) hy hend hy0]
      rw [AwayStays, hfree, Nat.zero_add, Nat.zero_div]
      exact hrest h0

omit hg hrange in
theorem writeChunk_put (l : Layout) (w : WriteState Faulty) :
    (writeChunk l.faulty w).2.file.currCluster = w.file.currCluster ∧
    ((writeChunk l.faulty w).2.s.mem = w.s.mem ∨ ∃ buf, (writeChunk l.faulty w).2.s.mem =
      putSector w.s.mem (l.sectorOf w.file.currCluster (w.file.currOffset / sectorSize)) buf) := by
  simp only [writeChunk, Layout.faulty_dev, Layout.faulty_toLayout, faultyDisk]
  cases w.s.writeFails 0 with
  | true => exact ⟨rfl, Or.inl rfl⟩
  | false => exact ⟨rfl, Or.inr ⟨_, rfl⟩⟩

omit hrange in
theorem writeChunk_entry (hcurr : l.InVolume w.file.currCluster)
    (hoff : w.file.currOffset < l.bytesPerCluster) {z : ℕ} (hz : z < l.clusters) :
    l.entry (writeChunk l.faulty w).2.s.mem z = l.entry w.s.mem z := by
  rw [hg.bytes] at hoff
  rcases (writeChunk_put l w).2 with h | ⟨buf, h⟩ <;> rw [h]
  exact entry_putSector hg hcurr (Nat.div_lt_of_lt_mul hoff) hz buf

omit hg hrange in
theorem nextCluster_skip (l : Layout) (c : ℕ) (d : Faulty) : ∃ c',
    nextCluster l.faulty c d = (c', d.skip 1) ∧ (c' = endOfChain ∨ c' = l.next d.mem c) := by
  cases hread : d.readFails 0 with
  | true => exact ⟨_, nextCluster_bad hread l c, Or.inl rfl⟩
  | false => exact ⟨_, nextCluster_good hread l c, Or.inr rfl⟩

theorem writeRound_away (hw : Away l w.s.mem w.file old) (hstay : AwayStays l w)
    (hdata : w.data ≠ []) :
    SameData l old w.s.mem (writeRound l.faulty w).2.s.mem ∧
    ((writeRound l.faulty w).1 = true →
      Away l (writeRound l.faulty w).2.s.mem (writeRound l.faulty w).2.file old ∧
      AwayStays l (writeRound l.faulty w).2) := by
  obtain ⟨-, hn, hwrap, hle, hlast, hsec⟩ := toCopy_cases hg hw.off hdata
  have hne : w.file.currCluster ≠ 0 := by
    have h2 := hw.curr.1
    omega
  have hi : w.file.currOffset / sectorSize < l.bpb.sectorsPerCluster := by
    have hoff := hw.off
    rw [hg.bytes] at hoff
    exact Nat.div_lt_of_lt_mul hoff
  obtain ⟨hcurr, hput⟩ := writeChunk_put l w
  have hentry : ∀ z < l.clusters, l.entry (writeChunk l.faulty w).2.s.mem z = l.entry w.s.mem z :=
    fun z hz => writeChunk_entry hg hw.curr hw.off hz
  have hsame : SameData l old w.s.mem (writeChunk l.faulty w).2.s.mem := by
    rcases hput with h | ⟨buf, h⟩ <;> rw [h]
    · exact fun _ _ => rfl
    · exact sameData_putSector hg hrange hw.curr hw.apart hi buf
  have hfails := writeChunk_readFails l w
  have hensure : ensureCluster l.faulty w = (true, w) := if_pos hne
  simp only [writeRound, hensure]
  rcases hchunk : writeChunk l.faulty w with ⟨_ | _, w₁⟩
  · rw [hchunk] at hsame
    exact ⟨hsame, fun h => absurd h (by simp)⟩
  · obtain ⟨hdata₁, hoff⟩ := writeChunk_done (show (writeChunk l.faulty w).1 = true by rw [hchunk])
    rw [hchunk] at hcurr hentry hsame hoff hfails hdata₁
    dsimp only at hcurr hentry hsame hoff hfails hdata₁ ⊢
    rw [Nat.mod_eq_of_lt hwrap] at hoff
    have hlen : w₁.data.length = w.data.length - w.toCopy := by rw [hdata₁, List.length_drop]
    have hfree := freeClusters_congr hentry
    have hmark : l.entry w₁.s.mem w₁.file.currCluster = 0x0FFFFFFF := by
      rw [hcurr, hentry _ hw.curr.2, hw.mark]
    have hused : ∀ x ∈ old, l.entry w₁.s.mem x ≠ 0 := by
      intro x hx
      rw [hentry x (hrange x hx).2]
      exact hw.used x hx
    rw [AwayStays, ← hfree] at hstay
    by_cases hin : w₁.file.currOffset < l.bytesPerCluster
    · have hadv : advance l.faulty w₁ = (true, w₁) := if_pos hin
      rw [hadv]
      refine ⟨hsame, fun _ => ⟨⟨?_, ?_, hmark, hused, hin⟩, ?_⟩⟩
      · rw [hcurr]
        exact hw.curr
      · rw [hcurr]
        exact hw.apart
      · have hsum : w₁.file.currOffset + w₁.data.length = w.file.currOffset + w.data.length := by
          omega
        rw [AwayStays, hsum, hfails, scansStay_shift (w.s.skip_readFails 1), hoff]
        by_cases hmore : w.toCopy < w.data.length
        · have hidx : l.bpb.sectorsPerCluster + 1 - (w.file.currOffset + w.toCopy) /
              sectorSize + 1 = l.bpb.sectorsPerCluster + 1 - w.file.currOffset / sectorSize := by
            rw [hsec hmore]
            omega
          rw [hidx]
          exact hstay
        · -- nothing is left to write
          have hdone : (w.file.currOffset + w.data.length) / l.bytesPerCluster = 0 :=
            Nat.div_eq_of_lt (by omega)
          rw [hdone]
          trivial
    · have hfull : w.file.currOffset + w.toCopy = l.bytesPerCluster := by omega
      obtain ⟨next, hnext, hlink⟩ := nextCluster_skip l w₁.file.currCluster w₁.s
      have hend : next = endOfChain := by
        refine hlink.elim id fun h => h.trans ?_
        rw [Layout.next, hmark]
        rfl
      rw [hend] at hnext
      have hsum : w.file.currOffset + w.data.length = l.bytesPerCluster + w₁.data.length := by omega
      have hidx : l.bpb.sectorsPerCluster + 1 - w.file.currOffset / sectorSize = 0 + 1 + 1 := by
        have := hlast hfull
        omega
      rw [hsum, Nat.add_div_left _ hg.bytes_pos, hidx, ← scansStay_shift (w.s.skip_readFails 1),
        ← hfails, ← scansStay_shift (w₁.s.skip_readFails 1)] at hstay
      obtain ⟨hsame', haway⟩ := advance_leaves hg hrange (by rw [hcurr]; exact hw.curr)
        (by rw [hmark]; decide) hused hin hnext hstay
      exact ⟨hsame.trans hsame', haway⟩

theorem writeLoop_away {n : ℕ} (hw : Away l w.s.mem w.file old) (hstay : AwayStays l w) :
    SameData l old w.s.mem (writeLoop l.faulty n w).s.mem := by
  induction n generalizing w with
  | zero => exact fun _ _ => rfl
  | succ n ih =>
    by_cases hdata : w.data = []
    · rw [writeLoop, if_pos hdata]
      exact fun _ _ => rfl
    · obtain ⟨hsame, haway⟩ := writeRound_away hg hrange hw hstay hdata
      rw [writeLoop_succ l.faulty n hdata]
      split_ifs with hflag
      · exact hsame.trans (ih (haway hflag).1 (haway hflag).2)
      · exact hsame

end Leaving

theorem writeChunk_written (hwrites : ∀ n, w.s.writeFails n = false) :
    (writeChunk l.faulty w).1 = true ∧
    (∀ n, (writeChunk l.faulty w).2.s.writeFails n = false) ∧
    (writeChunk l.faulty w).2.written = w.written + w.toCopy ∧
    (writeChunk l.faulty w).2.s.mem =
      putSector w.s.mem (l.sectorOf w.file.currCluster (w.file.currOffset / sectorSize))
        (write (if w.s.readFails 0 then fun _ => 0
            else sector w.s.mem (l.sectorOf w.file.currCluster (w.file.currOffset / sectorSize)))
          (w.file.currOffset % sectorSize) (w.data.take w.toCopy)) := by
  simp only [writeChunk, Layout.faulty_dev, Layout.faulty_toLayout, faultyDisk, hwrites 0,
    Bool.false_eq_true, if_false, true_and]
  refine ⟨fun n => hwrites (n + 1), ?_⟩
  split_ifs <;> rfl

theorem writeChunk_around (hg : l.Geometry) {pos : ℕ} (hat : At l w.s.mem w.file old pos)
    (hwrites : ∀ n, w.s.writeFails n = false) {q : ℕ} (hq : q < old.length * l.bytesPerCluster)
    (hout : q < pos ∨ pos + w.toCopy ≤ q) :
    chainByte l (writeChunk l.faulty w).2.s.mem old q =
      if q / sectorSize = pos / sectorSize ∧ w.s.readFails 0 = true then 0
      else chainByte l w.s.mem old q := by
  have hmod : w.file.currOffset % sectorSize = pos % sectorSize := by
    rw [hat.off, mod_sector hg.mounted]
  rw [(writeChunk_written hwrites).2.2.2, hat.curr, hat.off, mod_sector hg.mounted,
    chainByte_putSector hg hat.chain.range hat.chain.nodup hat.lt hq]
  by_cases hsame : q / sectorSize = pos / sectorSize
  · obtain ⟨hdiv, hsec⟩ := same_sector hg hsame
    have hlen : (w.data.take w.toCopy).length ≤ w.toCopy := List.length_take_le _ _
    rw [if_pos hsame, write_apart]
    · cases hread : w.s.readFails 0 with
      | true => simp [hsame]
      | false => simp [chainByte, sector, hdiv, hsec]
    · simp only [sectorSize] at *
      omega
  · rw [if_neg hsame, if_neg (fun h => hsame h.1)]

inductive Advanced (l : Layout) (old : List ℕ) (pos n : ℕ) (w : WriteState Faulty) :
    Bool × WriteState Faulty → Prop
  | inside (hin : pos % l.bytesPerCluster + n < l.bytesPerCluster)
      (hat : At l w.s.mem w.file old (pos + n)) : Advanced l old pos n w (true, w)
  | linked {w' : WriteState Faulty} (hend : pos % l.bytesPerCluster + n = l.bytesPerCluster)
      (hread : w.s.readFails 0 = false) (hs : w'.s = w.s.skip 1)
      (hat : At l w'.s.mem w'.file old (pos + n)) : Advanced l old pos n w (true, w')
  | left {r : Bool × WriteState Faulty} (hend : pos % l.bytesPerCluster + n = l.bytesPerCluster)
      (hwhy : w.s.readFails 0 = true ∨ pos + n = old.length * l.bytesPerCluster)
      (hsame : SameData l old w.s.mem r.2.s.mem)
      (haway : r.1 = true → Away l r.2.s.mem r.2.file old ∧ AwayStays l r.2) :
      Advanced l old pos n w r

theorem advance_chain (hg : l.Geometry) {pos n : ℕ}
    (hch : Chain l w.s.mem w.file.firstCluster old)
    (hlt : pos < old.length * l.bytesPerCluster)
    (hcurr : w.file.currCluster = old.getD (pos / l.bytesPerCluster) 0)
    (hoff : w.file.currOffset = pos % l.bytesPerCluster + n)
    (hle : pos % l.bytesPerCluster + n ≤ l.bytesPerCluster)
    (hstay : pos % l.bytesPerCluster + n = l.bytesPerCluster →
      (w.s.readFails 0 = true ∨ pos / l.bytesPerCluster + 1 = old.length) →
      ScansStay l (w.s.skip 1).readFails (w.data.length / l.bytesPerCluster + 1) 0
        (l.freeClusters w.s.mem)) :
    Advanced l old pos n w (advance l.faulty w) := by
  have hidx : pos / l.bytesPerCluster < old.length :=
    Nat.div_lt_of_lt_mul (by rwa [Nat.mul_comm] at hlt)
  by_cases hin : w.file.currOffset < l.bytesPerCluster
  · have hadv : advance l.faulty w = (true, w) := if_pos hin
    rw [hadv]
    rw [hoff] at hin
    exact .inside hin (hch.at_inside hlt hcurr hoff hin)
  have hend : pos % l.bytesPerCluster + n = l.bytesPerCluster := by omega
  have hmem : w.file.currCluster ∈ old := by
    rw [hcurr]
    exact posAddr_mem hlt
  have hleaves : nextCluster l.faulty w.file.currCluster w.s = (endOfChain, w.s.skip 1) →
      (w.s.readFails 0 = true ∨ pos / l.bytesPerCluster + 1 = old.length) →
      Advanced l old pos n w (advance l.faulty w) := by
    intro hnext hwhy
    obtain ⟨hsame, haway⟩ := advance_leaves hg hch.range (hch.range _ hmem) (hch.not_free hmem)
      (fun x hx => hch.not_free hx) hin hnext (hstay hend hwhy)
    refine .left hend (hwhy.imp id fun hlast => ?_) hsame haway
    rw [(pos_boundary hg.bytes_pos hend).1, hlast]
  cases hread : w.s.readFails 0 with
  | true => exact hleaves (nextCluster_bad hread l _) (Or.inl hread)
  | false =>
    have hgood := nextCluster_good hread l w.file.currCluster
    rw [List.getD_eq_getElem _ _ hidx] at hcurr
    by_cases hmore : pos / l.bytesPerCluster + 1 < old.length
    · have hnext := hch.path.next_getElem hmore
      have hne : old[pos / l.bytesPerCluster + 1] ≠ endOfChain := fun h =>
        end_notMem hg hch.range (h ▸ List.getElem_mem hmore)
      rw [← hcurr] at hnext
      rw [hnext] at hgood
      rw [advance_linked l.faulty hin hgood hne]
      exact .linked hend hread rfl (hch.at_next hg hend hmore rfl)
    · have hlast : pos / l.bytesPerCluster + 1 = old.length := by omega
      have hnext := hch.path.next_last hlast
      rw [← hcurr] at hnext
      rw [hnext] at hgood
      exact hleaves hgood (Or.inr hlast)

theorem Advanced.same {pos n : ℕ} {r : Bool × WriteState Faulty} (h : Advanced l old pos n w r) :
    SameData l old w.s.mem r.2.s.mem := by
  cases h with
  | inside => exact fun _ _ => rfl
  | linked _ _ hs =>
    rw [hs]
    exact fun _ _ => rfl
  | left _ _ hsame => exact hsame

theorem advance_rest {σ : Type} (fs : Fs σ) (w : WriteState σ) :
    (advance fs w).2.data = w.data ∧ (advance fs w).2.written = w.written := by
  simp only [advance]
  split_ifs <;> exact ⟨rfl, rfl⟩

theorem writeLoop_counts {σ : Type} (fs : Fs σ) (n : ℕ) (w : WriteState σ) :
    w.written ≤ (writeLoop fs n w).written ∧
    (writeLoop fs n w).written ≤ w.written + w.data.length := by
  have hensure : ∀ w, w.written ≤ (ensureCluster fs w).2.written ∧
      (ensureCluster fs w).2.written + (ensureCluster fs w).2.data.length =
        w.written + w.data.length := by
    intro w
    simp only [ensureCluster]
    split_ifs <;> exact ⟨le_rfl, rfl⟩
  have hchunk : ∀ w, w.written ≤ (writeChunk fs w).2.written ∧
      (writeChunk fs w).2.written + (writeChunk fs w).2.data.length =
        w.written + w.data.length := by
    intro w
    have hle : w.toCopy ≤ w.data.length := Nat.min_le_left _ _
    simp only [writeChunk]
    split
    · exact ⟨le_rfl, rfl⟩
    · refine ⟨Nat.le_add_right _ _, ?_⟩
      dsimp only
      rw [List.length_drop]
      omega
  have hadvance : ∀ w, w.written ≤ (advance fs w).2.written ∧
      (advance fs w).2.written + (advance fs w).2.data.length = w.written + w.data.length := by
    intro w
    obtain ⟨hdata, hwritten⟩ := advance_rest fs w
    rw [hdata, hwritten]
    exact ⟨le_rfl, rfl⟩
  have hrel := writeLoop_rel (fun w w' => w.written ≤ w'.written ∧
      w'.written + w'.data.length = w.written + w.data.length)
    (fun _ _ _ h₁ h₂ => ⟨h₁.1.trans h₂.1, h₂.2.trans h₁.2⟩) hensure hchunk hadvance
    (fun _ => ⟨le_rfl, rfl⟩) n w
  omega

theorem writeLoop_nil {σ : Type} (fs : Fs σ) (n : ℕ) {w : WriteState σ} (h : w.data = []) :
    writeLoop fs n w = w := by
  cases n with
  | zero => rfl
  | succ n => rw [writeLoop, if_pos h]

end XldKernel.Fat32
