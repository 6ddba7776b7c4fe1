import XldKernel.FatFaultyWrites

/-!
# FAT32: sectors that cannot be read before they are written

`fat32_write` changes part of a sector by reading it, copying the new bytes into
the buffer and writing the buffer back. When the read fails the buffer is zeroed,
and the zeros are written back around the new bytes. Only the first and the last
sector of a call have bytes around the new ones; every other one is new as a whole.
-/

namespace XldKernel.Fat32
open ByteMemory BlockDevice LinkedPath UniformBlocks

/-- The call gets to its last sector without losing a link, and cannot read it. Behind
the sectors of `r` clusters, less those in front of `offset`, comes the `r`-th link. -/
structure LastLost (l : Layout) (offset len : ℕ) (fails : ℕ → Bool) : Prop where
  links : ∀ r, 0 < r → r * l.bytesPerCluster < offset + len →
    fails (r * (l.bpb.sectorsPerCluster + 1) - 1 - offset / sectorSize) = false
  last : fails ((offset + len - 1) / sectorSize - offset / sectorSize +
    (offset + len - 1) / l.bytesPerCluster) = true

/-- A call that writes `len` bytes from `pos` on zeroes position `q`: it stands in front
of the new bytes in the first sector or behind them in the last, and that sector cannot
be read. -/
def Zeroes (l : Layout) (pos len : ℕ) (fails : ℕ → Bool) (q : ℕ) : Prop :=
  0 < len ∧
    ((q < pos ∧ q / sectorSize = pos / sectorSize ∧ fails 0 = true) ∨
      (pos + len ≤ q ∧ q / sectorSize = (pos + len - 1) / sectorSize ∧
        LastLost l (pos % l.bytesPerCluster) len fails))

variable {l : Layout} {m m' m₁ m₂ : Mem} {old : List ℕ} {w : WriteState Faulty}

section Schedule
variable (hg : l.Geometry) {offset n len : ℕ} {d : Faulty}
include hg

omit hg in
theorem lastLost_single (hlen : 0 < len) (hin : offset + len ≤ l.bytesPerCluster)
    (hsec : (offset + len - 1) / sectorSize = offset / sectorSize) :
    LastLost l offset len d.readFails ↔ d.readFails 0 = true := by
  have hdiv : (offset + len - 1) / l.bytesPerCluster = 0 := Nat.div_eq_of_lt (by omega)
  have hidx : (offset + len - 1) / sectorSize - offset / sectorSize +
      (offset + len - 1) / l.bytesPerCluster = 0 := by omega
  constructor
  · intro h
    have hlast := h.last
    rwa [hidx] at hlast
  · intro h
    refine ⟨?_, by rwa [hidx]⟩
    intro r h0 hr
    have hmul := Nat.mul_le_mul_right l.bytesPerCluster h0
    omega

theorem lastLost_stay (hn : n < len) (hin : offset + n < l.bytesPerCluster)
    (hsec : (offset + n) / sectorSize = offset / sectorSize + 1) :
    LastLost l offset len d.readFails ↔
      LastLost l (offset + n) (len - n) (d.skip 1).readFails := by
  have hsum : offset + n + (len - n) = offset + len := by omega
  have hlt : (offset + n) / sectorSize < l.bpb.sectorsPerCluster := by
    rw [hg.bytes] at hin
    exact Nat.div_lt_of_lt_mul hin
  have hmono : (offset + n) / sectorSize ≤ (offset + len - 1) / sectorSize :=
    Nat.div_le_div_right (by omega)
  have hlink : ∀ r, 0 < r → r * (l.bpb.sectorsPerCluster + 1) - 1 - (offset + n) / sectorSize + 1 =
      r * (l.bpb.sectorsPerCluster + 1) - 1 - offset / sectorSize := by
    intro r h0
    have hmul := Nat.mul_le_mul_right (l.bpb.sectorsPerCluster + 1) h0
    omega
  have hlast : (offset + len - 1) / sectorSize - (offset + n) / sectorSize +
      (offset + len - 1) / l.bytesPerCluster + 1 =
      (offset + len - 1) / sectorSize - offset / sectorSize +
      (offset + len - 1) / l.bytesPerCluster := by omega
  constructor
  · intro h
    refine ⟨fun r h0 hr => ?_, ?_⟩
    · rw [Faulty.skip_readFails, hlink r h0]
      exact h.links r h0 (by rwa [hsum] at hr)
    · rw [Faulty.skip_readFails, hsum, hlast]
      exact h.last
  · intro h
    refine ⟨fun r h0 hr => ?_, ?_⟩
    · have := h.links r h0 (by rwa [hsum])
      rwa [Faulty.skip_readFails, hlink r h0] at this
    · have := h.last
      rwa [Faulty.skip_readFails, hsum, hlast] at this

theorem lastLost_pass (hn : n < len) (hend : offset + n = l.bytesPerCluster)
    (hsec : offset / sectorSize + 1 = l.bpb.sectorsPerCluster) :
    LastLost l offset len d.readFails ↔
      d.readFails 1 = false ∧ LastLost l 0 (len - n) (d.skip 2).readFails := by
  have hpos := hg.bytes_pos
  have hlink : ∀ r, 0 < r → r * (l.bpb.sectorsPerCluster + 1) - 1 - 0 / sectorSize + 2 =
      (r + 1) * (l.bpb.sectorsPerCluster + 1) - 1 - offset / sectorSize := by
    intro r h0
    have hmul := Nat.mul_le_mul_right (l.bpb.sectorsPerCluster + 1) h0
    rw [Nat.zero_div, Nat.succ_mul]
    omega
  have hfirst : 1 * (l.bpb.sectorsPerCluster + 1) - 1 - offset / sectorSize = 1 := by omega
  have hlast : (0 + (len - n) - 1) / sectorSize - 0 / sectorSize +
      (0 + (len - n) - 1) / l.bytesPerCluster + 2 =
      (offset + len - 1) / sectorSize - offset / sectorSize +
      (offset + len - 1) / l.bytesPerCluster := by
    obtain ⟨k, hk⟩ : ∃ k, 0 + (len - n) - 1 = k := ⟨_, rfl⟩
    have hshift : offset + len - 1 = l.bytesPerCluster + k := by omega
    have hsecs : (l.bytesPerCluster + k) / sectorSize = l.bpb.sectorsPerCluster +
        k / sectorSize := by
      rw [hg.bytes, Nat.mul_add_div (by decide)]
    rw [hk, hshift, hsecs, Nat.add_div_left _ hpos, Nat.zero_div, ← hsec]
    generalize offset / sectorSize = a, k / l.bytesPerCluster = b, k / sectorSize = x
    omega
  constructor
  · intro h
    refine ⟨?_, fun r h0 hr => ?_, ?_⟩
    · have := h.links 1 one_pos (by omega)
      rwa [hfirst] at this
    · rw [Faulty.skip_readFails, hlink r h0]
      refine h.links (r + 1) (by omega) ?_
      rw [Nat.succ_mul]
      omega
    · rw [Faulty.skip_readFails, hlast]
      exact h.last
  · rintro ⟨h1, h⟩
    refine ⟨fun r h0 hr => ?_, ?_⟩
    · rcases Nat.eq_or_lt_of_le (Nat.succ_le_of_lt h0) with heq | hlt
      · rw [← heq, hfirst]
        exact h1
      · obtain ⟨k, rfl⟩ : ∃ k, r = k + 1 := ⟨r - 1, by omega⟩
        rw [Nat.succ_mul] at hr
        have := h.links k (by omega) (by omega)
        rwa [Faulty.skip_readFails, hlink k (by omega)] at this
    · have := h.last
      rwa [Faulty.skip_readFails, hlast] at this

end Schedule

def LeavesAround (l : Layout) (old : List ℕ) (pos len r : ℕ) (fails : ℕ → Bool)
    (m m' : Mem) : Prop :=
  ∀ q < old.length * l.bytesPerCluster, (q < pos ∨ pos + r ≤ q) →
    (Zeroes l pos len fails q → chainByte l m' old q = 0) ∧
    (¬ Zeroes l pos len fails q → chainByte l m' old q = chainByte l m old q)

theorem zeroes_single (hg : l.Geometry) {pos len q : ℕ} {d : Faulty} (hlen : 0 < len)
    (hin : pos % l.bytesPerCluster + len ≤ l.bytesPerCluster)
    (hsec : pos % sectorSize + len ≤ sectorSize) (hout : q < pos ∨ pos + len ≤ q) :
    Zeroes l pos len d.readFails q ↔ q / sectorSize = pos / sectorSize ∧ d.readFails 0 = true := by
  have hmod := mod_sector hg.mounted pos
  have hone : (pos % l.bytesPerCluster + len - 1) / sectorSize =
      pos % l.bytesPerCluster / sectorSize := by
    simp only [sectorSize] at *
    omega
  have hend : (pos + len - 1) / sectorSize = pos / sectorSize := by
    simp only [sectorSize] at *
    omega
  rw [Zeroes, lastLost_single hlen hin hone, hend]
  constructor
  · rintro ⟨-, ⟨-, h⟩ | ⟨-, h⟩⟩
    · exact h
    · exact h
  · intro h
    rcases hout with hlt | hge
    · exact ⟨hlen, Or.inl ⟨hlt, h⟩⟩
    · exact ⟨hlen, Or.inr ⟨hge, h⟩⟩

theorem zeroes_first {pos len n q : ℕ} {fails : ℕ → Bool} (hn : n < len)
    (hsec : pos % sectorSize + n = sectorSize) (hout : q < pos ∨ pos + n ≤ q)
    (hlast : pos + len ≤ q → ¬ LastLost l (pos % l.bytesPerCluster) len fails) :
    Zeroes l pos len fails q ↔ q / sectorSize = pos / sectorSize ∧ fails 0 = true := by
  constructor
  · rintro ⟨-, ⟨-, h⟩ | ⟨hge, -, h⟩⟩
    · exact h
    · exact absurd h (hlast hge)
  · rintro ⟨hsame, h0⟩
    have hlt : q < pos := by
      simp only [sectorSize] at *
      omega
    exact ⟨by omega, Or.inl ⟨hlt, hsame, h0⟩⟩

theorem leavesAround_chunk {pos len n r : ℕ} {fails : ℕ → Bool} (hnr : n ≤ r)
    (hchunk : ∀ q < old.length * l.bytesPerCluster, (q < pos ∨ pos + n ≤ q) →
      chainByte l m' old q = if q / sectorSize = pos / sectorSize ∧ fails 0 = true then 0
        else chainByte l m old q)
    (hzero : ∀ q < old.length * l.bytesPerCluster, (q < pos ∨ pos + n ≤ q) →
      (Zeroes l pos len fails q ↔ q / sectorSize = pos / sectorSize ∧ fails 0 = true)) :
    LeavesAround l old pos len r fails m m' := by
  intro q hq hout
  have hout' : q < pos ∨ pos + n ≤ q := by omega
  rw [hzero q hq hout', hchunk q hq hout']
  exact ⟨fun h => if_pos h, fun h => if_neg h⟩

theorem leavesAround_cons {pos len n r : ℕ} {fails fails' : ℕ → Bool} (hn : n < len)
    (hsec : pos % sectorSize + n = sectorSize)
    (hchunk : ∀ q < old.length * l.bytesPerCluster, (q < pos ∨ pos + n ≤ q) →
      chainByte l m₁ old q = if q / sectorSize = pos / sectorSize ∧ fails 0 = true then 0
        else chainByte l m old q)
    (hlast : LastLost l (pos % l.bytesPerCluster) len fails ↔
      LastLost l ((pos + n) % l.bytesPerCluster) (len - n) fails')
    (hrest : LeavesAround l old (pos + n) (len - n) r fails' m₁ m') :
    LeavesAround l old pos len (n + r) fails m m' := by
  intro q hq hout
  obtain ⟨hzero, hkeep⟩ := hrest q hq (by omega)
  have hsum : pos + n + (len - n) = pos + len := by omega
  have hstep : Zeroes l pos len fails q ↔
      (q / sectorSize = pos / sectorSize ∧ fails 0 = true) ∨
        Zeroes l (pos + n) (len - n) fails' q := by
    simp only [Zeroes, hsum, ← hlast, sectorSize] at *
    constructor
    · rintro ⟨-, ⟨-, hsame, h0⟩ | hbehind⟩
      · exact Or.inl ⟨hsame, h0⟩
      · exact Or.inr ⟨by omega, Or.inr hbehind⟩
    · rintro (⟨hsame, h0⟩ | ⟨-, ⟨hlt, hsame, -⟩ | hbehind⟩)
      · exact ⟨by omega, Or.inl ⟨by omega, hsame, h0⟩⟩
      · omega
      · exact ⟨by omega, Or.inr hbehind⟩
  have hfirst := hchunk q hq (by omega)
  rw [hstep]
  by_cases hz : Zeroes l (pos + n) (len - n) fails' q
  · exact ⟨fun _ => hzero hz, fun h => absurd (Or.inr hz) h⟩
  · rw [hkeep hz, hfirst]
    exact ⟨fun h => if_pos (h.resolve_right hz), fun h => if_neg fun hsame => h (Or.inl hsame)⟩

theorem toCopy_sector (hg : l.Geometry) {pos : ℕ}
    (hoff : w.file.currOffset = pos % l.bytesPerCluster) :
    pos % sectorSize + w.toCopy ≤ sectorSize ∧
    (w.toCopy < w.data.length → pos % sectorSize + w.toCopy = sectorSize) := by
  have hmod : w.file.currOffset % sectorSize = pos % sectorSize := by
    rw [hoff, mod_sector hg.mounted]
  rw [WriteState.toCopy, hmod]
  simp only [sectorSize]
  omega

structure RoundLeft (l : Layout) (old : List ℕ) (pos : ℕ) (w w₁ : WriteState Faulty)
    (r : Bool × WriteState Faulty) : Prop where
  around : ∀ q < old.length * l.bytesPerCluster, (q < pos ∨ pos + w.toCopy ≤ q) →
    chainByte l w₁.s.mem old q =
      if q / sectorSize = pos / sectorSize ∧ w.s.readFails 0 = true then 0
      else chainByte l w.s.mem old q
  fails : w₁.s.readFails = (w.s.skip 1).readFails
  free : l.freeClusters w₁.s.mem = l.freeClusters w.s.mem
  writes : ∀ n, w₁.s.writeFails n = false
  advanced : Advanced l old pos w.toCopy w₁ r
  data : r.2.data = w.data.drop w.toCopy
  written : r.2.written = w.written + w.toCopy

theorem writeRound_chain (hg : l.Geometry) {pos : ℕ} (hat : At l w.s.mem w.file old pos)
    (hwrites : ∀ n, w.s.writeFails n = false) (hdata : w.data ≠ [])
    (hstay : WriteStays l (old.length - pos / l.bytesPerCluster) (pos % l.bytesPerCluster)
      w.data.length w.s.readFails (l.freeClusters w.s.mem)) :
    ∃ w₁, RoundLeft l old pos w w₁ (writeRound l.faulty w) := by
  have hoff : w.file.currOffset < l.bytesPerCluster := by
    rw [hat.off]
    exact Nat.mod_lt _ hg.bytes_pos
  obtain ⟨-, hn, hwrap, hfits, hlast, -⟩ := toCopy_cases hg hoff hdata
  have hmem : w.file.currCluster ∈ old := by
    rw [hat.curr]
    exact posAddr_mem hat.lt
  have hne : w.file.currCluster ≠ 0 := by
    have h2 := (hat.chain.range _ hmem).1
    omega
  have hensure : ensureCluster l.faulty w = (true, w) := if_pos hne
  have hwritten := writeChunk_written hwrites (l := l)
  obtain ⟨hdata₁, hoff₁⟩ := writeChunk_done hwritten.1
  obtain ⟨hch₁, hcurr₁, hfirst₁, -⟩ := writeChunk_faulty hg hat.chain hmem hoff
  have hfails₁ := writeChunk_readFails l w
  have hfree₁ : l.freeClusters (writeChunk l.faulty w).2.s.mem = l.freeClusters w.s.mem :=
    freeClusters_congr fun z hz => writeChunk_entry hg (hat.chain.range _ hmem) hoff hz
  have haround : ∀ q < old.length * l.bytesPerCluster, (q < pos ∨ pos + w.toCopy ≤ q) → _ :=
    fun q hq hout => writeChunk_around hg hat hwrites hq hout
  rcases heq : writeChunk l.faulty w with ⟨b, w₁⟩
  rw [heq] at hwritten hdata₁ hoff₁ hch₁ hcurr₁ hfirst₁ hfails₁ hfree₁ haround
  obtain ⟨rfl, hwrites₁, hwritten₁, -⟩ := hwritten
  dsimp only at hwrites₁ hwritten₁ hdata₁ hoff₁ hch₁ hcurr₁ hfirst₁ hfails₁ hfree₁ haround
  rw [Nat.mod_eq_of_lt hwrap, hat.off] at hoff₁
  rw [← hfirst₁] at hch₁
  rw [hat.off] at hfits hlast
  have hround : writeRound l.faulty w = advance l.faulty w₁ := by
    simp only [writeRound, hensure, heq]
  have hidx : pos / l.bytesPerCluster < old.length :=
    Nat.div_lt_of_lt_mul (by simpa only [Nat.mul_comm] using hat.lt)
  have hadv := advance_chain hg hch₁ hat.lt (hcurr₁.trans hat.curr) hoff₁ hfits fun hend hwhy => by
    have hleave := hstay.leave hg hn hend (hlast hend) (by omega) (hwhy.imp
      (fun h => by rwa [hfails₁, Faulty.skip_readFails] at h) fun h => by omega)
    have hskip : (w₁.s.skip 1).readFails = (w.s.skip 2).readFails := by
      funext k
      rw [Faulty.skip_readFails, hfails₁]
      rfl
    rwa [hskip, hdata₁, List.length_drop, hfree₁]
  obtain ⟨hdata₂, hwritten₂⟩ := advance_rest l.faulty w₁
  rw [hround]
  exact ⟨w₁, haround, hfails₁, hfree₁, hwrites₁, hadv, hdata₂.trans hdata₁,
    hwritten₂.trans hwritten₁⟩

namespace RoundLeft
variable (hg : l.Geometry) {pos : ℕ} {w₁ : WriteState Faulty} {step : Bool × WriteState Faulty}
  (h : RoundLeft l old pos w w₁ step) (hat : At l w.s.mem w.file old pos) (hdata : w.data ≠ [])
include hg h hat hdata

theorem done (hdone : w.toCopy = w.data.length) :
    LeavesAround l old pos w.data.length w.toCopy w.s.readFails w.s.mem step.2.s.mem := by
  have hoff : w.file.currOffset < l.bytesPerCluster := by
    rw [hat.off]
    exact Nat.mod_lt _ hg.bytes_pos
  obtain ⟨-, -, -, hfits, -, -⟩ := toCopy_cases hg hoff hdata
  obtain ⟨hsec, -⟩ := toCopy_sector hg hat.off
  have hpos := List.length_pos_iff.mpr hdata
  rw [hat.off, hdone] at hfits
  rw [hdone] at hsec
  refine leavesAround_chunk le_rfl (fun q hq hout => ?_) (fun q hq hout => ?_)
  · rw [h.advanced.same q hq]
    exact h.around q hq hout
  · rw [hdone] at hout
    exact zeroes_single hg hpos hfits hsec hout

theorem more (hmore : w.toCopy < w.data.length) {k : ℕ} {m' : Mem}
    (hstay : WriteStays l (old.length - pos / l.bytesPerCluster) (pos % l.bytesPerCluster)
      w.data.length w.s.readFails (l.freeClusters w.s.mem))
    (hon : step.1 = true → At l step.2.s.mem step.2.file old (pos + w.toCopy) →
      (∀ n, step.2.s.writeFails n = false) →
      WriteStays l (old.length - (pos + w.toCopy) / l.bytesPerCluster)
        ((pos + w.toCopy) % l.bytesPerCluster) (w.data.length - w.toCopy) step.2.s.readFails
        (l.freeClusters step.2.s.mem) →
      LeavesAround l old (pos + w.toCopy) (w.data.length - w.toCopy) k step.2.s.readFails
        step.2.s.mem m')
    (haway : step.1 = true → Away l step.2.s.mem step.2.file old → AwayStays l step.2 →
      SameData l old step.2.s.mem m')
    (hstop : step.1 = false → m' = step.2.s.mem) :
    LeavesAround l old pos w.data.length (w.toCopy + k) w.s.readFails w.s.mem m' := by
  have hoff : w.file.currOffset < l.bytesPerCluster := by
    rw [hat.off]
    exact Nat.mod_lt _ hg.bytes_pos
  obtain ⟨-, -, -, -, hlastsec, hnextsec⟩ := toCopy_cases hg hoff hdata
  rw [hat.off] at hlastsec hnextsec
  have hfull := (toCopy_sector hg hat.off).2 hmore
  have hpass := fun hend => lastLost_pass hg (d := w.s) hmore hend (hlastsec hend)
  have hadv := h.advanced
  cases hadv with
  | inside hin hat₂ =>
    have hlast := lastLost_stay hg (d := w.s) hmore hin (hnextsec hmore)
    have hstay₂ := hstay.stay hg hmore hin (hnextsec hmore)
    rw [← (pos_inside hin).1, ← (pos_inside hin).2, ← h.fails, ← h.free] at hstay₂
    rw [← (pos_inside hin).2, ← h.fails] at hlast
    exact leavesAround_cons hmore hfull h.around hlast (hon rfl hat₂ h.writes hstay₂)
  | @linked w₂ hend hread hs hat₂ =>
    rw [h.fails, Faulty.skip_readFails] at hread
    have hfails : w₂.s.readFails = (w.s.skip 2).readFails := by
      funext k
      rw [hs, Faulty.skip_readFails, h.fails]
      rfl
    have hmem : w₂.s.mem = w₁.s.mem := by rw [hs, Faulty.skip_mem]
    have hlast := hpass hend
    rw [and_iff_right hread, ← (pos_boundary hg.bytes_pos hend).2.2, ← hfails] at hlast
    obtain ⟨-, hdiv, hmod⟩ := pos_boundary hg.bytes_pos hend
    have hleft : old.length - pos / l.bytesPerCluster =
        old.length - (pos + w.toCopy) / l.bytesPerCluster + 1 := by
      have hlt := Nat.div_lt_of_lt_mul (show pos + w.toCopy < l.bytesPerCluster * old.length by
        simpa only [Nat.mul_comm] using hat₂.lt)
      omega
    rw [hleft] at hstay
    have hstay₂ := hstay.pass hg hmore.le hend (hlastsec hend) hread
    rw [← hmod, ← hfails, ← h.free, ← hmem] at hstay₂
    have hrest := hon rfl hat₂ (by rw [hs]; exact h.writes) hstay₂
    dsimp only at hrest
    rw [hmem] at hrest
    exact leavesAround_cons hmore hfull h.around hlast hrest
  | left hend hwhy hsame haway₂ =>
    have hfinal : SameData l old step.2.s.mem m' := by
      cases hflag : step.1 with
      | true => exact haway hflag (haway₂ hflag).1 (haway₂ hflag).2
      | false =>
        rw [hstop hflag]
        exact fun _ _ => rfl
    refine leavesAround_chunk (Nat.le_add_right _ k) (fun q hq hout => ?_)
      (fun q hq hout => zeroes_first hmore hfull hout fun hge hlost => ?_)
    · rw [hfinal q hq, hsame q hq]
      exact h.around q hq hout
    · -- the last sector is not one of the clusters, or the way to it was lost
      rcases hwhy with hread | hwhole
      · rw [h.fails, Faulty.skip_readFails, ((hpass hend).mp hlost).1] at hread
        exact Bool.noConfusion hread
      · omega

end RoundLeft

theorem writeLoop_around (hg : l.Geometry) {n pos r : ℕ} (hat : At l w.s.mem w.file old pos)
    (hwrites : ∀ n, w.s.writeFails n = false) (hdata : w.data ≠ []) (hn : w.data.length ≤ n)
    (hstay : WriteStays l (old.length - pos / l.bytesPerCluster) (pos % l.bytesPerCluster)
      w.data.length w.s.readFails (l.freeClusters w.s.mem))
    (hr : (writeLoop l.faulty n w).written = w.written + r) :
    LeavesAround l old pos w.data.length r w.s.readFails w.s.mem
      (writeLoop l.faulty n w).s.mem := by
  induction n generalizing w pos r with
  | zero => exact absurd (List.length_eq_zero_iff.mp (Nat.le_zero.mp hn)) hdata
  | succ n ih =>
    obtain ⟨w₁, hround⟩ := writeRound_chain hg hat hwrites hdata hstay
    rw [writeLoop_succ l.faulty n hdata] at hr ⊢
    generalize writeRound l.faulty w = step at hround hr ⊢
    have hlen : step.2.data.length = w.data.length - w.toCopy := by
      rw [hround.data, List.length_drop]
    by_cases hdone : w.toCopy = w.data.length
    · have hfinal : (if step.1 then writeLoop l.faulty n step.2 else step.2) = step.2 := by
        rw [writeLoop_nil l.faulty n (List.length_eq_zero_iff.mp (by omega)), ite_self]
      rw [hfinal, hround.written] at hr
      obtain rfl : w.toCopy = r := by omega
      rw [hfinal]
      exact hround.done hg hat hdata hdone
    · have hmore : w.toCopy < w.data.length := by
        have hle : w.toCopy ≤ w.data.length := Nat.min_le_left _ _
        omega
      have hpos := toCopy_pos hdata
      have hnil : step.2.data ≠ [] := fun h => by
        rw [h, List.length_nil] at hlen
        omega
      have hcount : w.toCopy ≤ r := by
        have hle := (writeLoop_counts l.faulty n step.2).1
        have hwritten := hround.written
        split_ifs at hr <;> omega
      have hsum : w.toCopy + (r - w.toCopy) = r := by omega
      rw [← hsum]
      refine hround.more hg hat hdata hmore hstay (fun hflag hat₂ hwrites₂ hstay₂ => ?_)
        (fun hflag haway hstay₂ => ?_) (fun hflag => ?_)
      · rw [hflag, if_pos rfl] at hr ⊢
        rw [← hlen] at hstay₂ ⊢
        refine ih hat₂ hwrites₂ hnil (by omega) hstay₂ ?_
        rw [hr, hround.written]
        omega
      · rw [hflag, if_pos rfl]
        exact writeLoop_away hg hat.chain.range haway hstay₂
      · rw [hflag, if_neg Bool.false_ne_true]

/-- A call changes nothing of the clusters the file had but the bytes it reports, exactly
when all that it zeroes around these bytes was zero before. -/
theorem write_spares_iff (l : Layout) (hg : l.Geometry) (d : Faulty) (f : File) (old : List ℕ)
    (p : ℕ) (data : List UInt8) (hused : f.used = true) (hmode : f.mode = .write)
    (hready : Ready l d.mem f old p) (hwrites : ∀ n, d.writeFails n = false)
    (hstay : WriteStays l (old.length - p / l.bytesPerCluster) (p % l.bytesPerCluster) data.length
      d.readFails (l.freeClusters d.mem)) :
    (∀ q < old.length * l.bytesPerCluster,
      (q < p ∨ (p : ℤ) + (fat32Write l.faulty f data d).1 ≤ q) →
      chainByte l (fat32Write l.faulty f data d).2.s.mem old q = chainByte l d.mem old q) ↔
    ∀ q < old.length * l.bytesPerCluster, Zeroes l p data.length d.readFails q →
      chainByte l d.mem old q = 0 := by
  have hopen : ¬ (¬ (f.used = true) ∨ f.mode ≠ .write) := by simp [hused, hmode]
  rw [fat32Write, if_neg hopen]
  cases hready with
  | empty => simp
  | «at» hat =>
    by_cases hnil : data = []
    · subst hnil
      simp [writeLoop, Zeroes]
    dsimp only
    have hcounts := writeLoop_counts l.faulty data.length ⟨f, data, 0, d, []⟩
    have haround := writeLoop_around hg (w := ⟨f, data, 0, d, []⟩) hat hwrites hnil le_rfl hstay
      (Nat.zero_add _).symm
    dsimp only at hcounts haround
    generalize writeLoop l.faulty data.length ⟨f, data, 0, d, []⟩ = w at hcounts haround ⊢
    constructor
    · intro hsame q hq hzero
      have hout : q < p ∨ p + w.written ≤ q := by
        rcases hzero.2 with ⟨hlt, -⟩ | ⟨hge, -⟩ <;> omega
      rw [← hsame q hq (by omega)]
      exact (haround q hq hout).1 hzero
    · intro hblank q hq hout
      obtain ⟨hzero, hkeep⟩ := haround q hq (by omega)
      by_cases hz : Zeroes l p data.length d.readFails q
      · rw [hzero hz, hblank q hq hz]
      · exact hkeep hz

def nearEnd : File := { openFile helloEntry charW with currOffset := 510 }

theorem write_spares_iff_hello :
    (fat32Write tinyLayout.faulty nearEnd [1, 2]
      ⟨helloDisk, fun n => n == 1, fun _ => false⟩).1 = 2 ∧
    ∀ q < 510, chainByte tinyLayout (fat32Write tinyLayout.faulty nearEnd [1, 2]
        ⟨helloDisk, fun n => n == 1, fun _ => false⟩).2.s.mem [3] q =
      chainByte tinyLayout helloDisk [3] q := by
  have hchain : Chain tinyLayout helloDisk 3 [3] := by decide +kernel
  have hready : Ready tinyLayout helloDisk nearEnd [3] 510 :=
    .at ⟨hchain, by decide, by decide, by decide⟩
  have hfind : (tinyLayout.freeClusters helloDisk).find? (fun y => !(2 + (y - 2) == 1)) =
      some 4 := by
    decide +kernel
  have hres : (fat32Write tinyLayout.faulty nearEnd [1, 2]
      ⟨helloDisk, fun n => n == 1, fun _ => false⟩).1 = 2 := by decide +kernel
  refine ⟨hres, fun q hq => ?_⟩
  refine (write_spares_iff tinyLayout tinyLayout_geometry _ nearEnd [3] 510 [1, 2] rfl rfl hready
    (fun _ => rfl) ?_).mpr ?_ q ?_ (Or.inl hq)
  · intro r hr
    obtain rfl : r = 1 := le_antisymm hr.inside hr.pos
    change ScansStay tinyLayout (fun n => n == 1) (0 + 1) 2 (tinyLayout.freeClusters helloDisk)
    rw [ScansStay, hfind]
    exact Or.inr (Or.inr trivial)
  · rintro q' hq' ⟨-, ⟨-, -, hfail⟩ | ⟨hge, -⟩⟩
    · exact absurd hfail (by decide)
    · have hwhole : [3].length * tinyLayout.bytesPerCluster = 512 := by decide
      simp only [List.length_cons, List.length_nil] at hge
      omega
  · have hwhole : [3].length * tinyLayout.bytesPerCluster = 512 := by decide
    omega

/-- One byte written over the `H` of `HELLO` when the read of the sector fails: the other
four letters are gone. -/
theorem failed_read_zeroes :
    Ready tinyLayout helloDisk (openFile helloEntry charW) [3] 0 ∧
    WriteStays tinyLayout 1 0 1 (fun n => n == 0) (tinyLayout.freeClusters helloDisk) ∧
    (fat32Write tinyLayout.faulty (openFile helloEntry charW) [33]
      ⟨helloDisk, fun n => n == 0, fun _ => false⟩).1 = 1 ∧
    chainByte tinyLayout helloDisk [3] 1 = 69 ∧
    chainByte tinyLayout (fat32Write tinyLayout.faulty (openFile helloEntry charW) [33]
      ⟨helloDisk, fun n => n == 0, fun _ => false⟩).2.s.mem [3] 1 = 0 := by
  have hchain : Chain tinyLayout helloDisk helloEntry.cluster [3] := by decide +kernel
  have hstays : WriteStays tinyLayout 1 0 1 (fun n => n == 0)
      (tinyLayout.freeClusters helloDisk) := by
    intro r hr
    have hreached := hr.reached
    have hmul := Nat.mul_le_mul_right tinyLayout.bytesPerCluster hr.pos
    exact absurd (hmul.trans hreached) (by decide)
  exact ⟨hchain.ready tinyLayout_geometry charW, hstays, by decide +kernel, by decide +kernel,
    by decide +kernel⟩

end XldKernel.Fat32
