import XldKernel.DeviceSimulation

/-!
# Disks of finite size that may fail

A disk with `size` sectors. Every access takes the next entry of the schedule
`faults`: it fails at an entry other than `none`, and a sector that was being
stored then holds the bytes of the entry. A write is two accesses, since the disk
may refuse it before it has the data or fail to store them.
-/

namespace XldKernel.BlockDevice
open ByteMemory

structure Medium where
  disk : Mem
  size : ℕ
  faults : ℕ → Option Mem

namespace Medium
variable (d : Medium)

def later : Medium := { d with faults := fun n => d.faults (n + 1) }

def takes : Bool := (d.faults 0).isNone

def readable (s : ℕ) : Bool := decide (s < d.size) && d.takes

def stored (s : ℕ) (buf : Mem) : Bool × Medium :=
  if s < d.size then
    match d.faults 0 with
    | none => (true, { d.later with disk := putSector d.disk s buf })
    | some junk => (false, { d.later with disk := putSector d.disk s junk })
  else (false, d.later)

def Reads (s i : ℕ) : Prop := s + i < d.size ∧ d.faults i = none

def Writes (s i : ℕ) : Prop :=
  s + i < d.size ∧ d.faults (2 * i) = none ∧ d.faults (2 * i + 1) = none

structure Delivers (s count k : ℕ) : Prop where
  le : k ≤ count
  reads : ∀ i < k, d.Reads s i
  stops : k < count → ¬ d.Reads s k

/-- A write of `count` sectors from `s` on stops after `k` of them and leaves `d'`:
the sector at which it stops may hold anything, if there is one. -/
structure Stores (m : Mem) (s buf count k : ℕ) (d' : Medium) : Prop where
  le : k ≤ count
  writes : ∀ i < k, d.Writes s i
  stops : k < count → ¬ d.Writes s k
  size : d'.size = d.size
  disk : ∀ x, k = count ∨ d.size ≤ s + k ∨
      x < sectorSize * (s + k) ∨ sectorSize * (s + k) + sectorSize ≤ x →
    d'.disk x = write d.disk (sectorSize * s) (read m buf (sectorSize * k)) x

@[simp] theorem later_disk : d.later.disk = d.disk := rfl

@[simp] theorem later_size : d.later.size = d.size := rfl

theorem stored_size (s : ℕ) (buf : Mem) : (d.stored s buf).2.size = d.size := by
  rw [stored]
  split_ifs
  · cases d.faults 0 <;> rfl
  · rfl

theorem stored_congr {b b' : Mem} (h : Agree b b') (s : ℕ) : d.stored s b = d.stored s b' := by
  simp only [stored, putSector_congr h]

end Medium

def mediumDisk : BlockDev Medium where
  read s d := (if d.readable s then some (sector d.disk s) else none, d.later)
  write s buf d := if d.takes then d.later.stored s buf else (false, d.later)

section Many
variable {σ : Type} (dev : BlockDev σ)

def readMany : ℕ → ℕ → ℕ → σ → Mem → Bool × σ × Mem
  | 0, _, _, x, m => (true, x, m)
  | count + 1, s, buf, x, m =>
    match dev.read s x with
    | (none, x) => (false, x, m)
    | (some b, x) =>
      readMany count (s + 1) (buf + sectorSize) x (write m buf (read b 0 sectorSize))

def writeMany (m : Mem) : ℕ → ℕ → ℕ → σ → Bool × σ
  | 0, _, _, x => (true, x)
  | count + 1, s, buf, x =>
    match dev.write s (fun i => m (buf + i)) x with
    | (false, x) => (false, x)
    | (true, x) => writeMany m count (s + 1) (buf + sectorSize) x

end Many

theorem write_sector (m buf : Mem) (a s : ℕ) :
    write m (sectorSize * s) (read buf a sectorSize) = putSector m s fun i => buf (a + i) := by
  funext x
  by_cases hx : sectorSize * s ≤ x ∧ x < sectorSize * s + sectorSize
  · have hi : x - sectorSize * s < sectorSize := by omega
    rw [write, if_pos (by rwa [read_length]), putSector, if_pos hx]
    simp [ByteMemory.read, hi]
  · rw [write_apart m (by rw [read_length]; omega), putSector_apart m _ (by omega)]

theorem reads_zero {d : Medium} {s : ℕ} : d.readable s = true ↔ d.Reads s 0 := by
  simp [Medium.readable, Medium.takes, Medium.Reads]

theorem reads_later (d : Medium) (s i : ℕ) : d.later.Reads (s + 1) i ↔ d.Reads s (i + 1) := by
  simp only [Medium.Reads, Medium.later, Nat.add_right_comm s 1 i, Nat.add_assoc s i 1]

theorem readMany_medium (count s buf : ℕ) (d : Medium) (m : Mem) :
    ∃ k d', d.Delivers s count k ∧ d'.disk = d.disk ∧ d'.size = d.size ∧
      readMany mediumDisk count s buf d m =
        (decide (k = count), d',
          write m buf (read d.disk (sectorSize * s) (sectorSize * k))) := by
  induction count generalizing s buf d m with
  | zero =>
    refine ⟨0, d, ⟨le_rfl, by omega, by omega⟩, rfl, rfl, ?_⟩
    simp [readMany, ByteMemory.read]
  | succ count ih =>
    by_cases hread : d.readable s = true
    · have hdev : mediumDisk.read s d = (some (sector d.disk s), d.later) := by
        simp [mediumDisk, hread]
      obtain ⟨k, d', hk, hdisk, hsize, hrun⟩ := ih (s + 1) (buf + sectorSize) d.later
        (write m buf (read (sector d.disk s) 0 sectorSize))
      have hlen : sectorSize * (k + 1) = sectorSize + sectorSize * k := by ring
      have hnext : sectorSize * (s + 1) = sectorSize * s + sectorSize := by ring
      refine ⟨k + 1, d', ⟨Nat.succ_le_succ hk.le, fun i hi => ?_, fun hlt h => ?_⟩,
        hdisk, hsize, ?_⟩
      · cases i with
        | zero => exact reads_zero.mp hread
        | succ i => exact (reads_later d s i).mp (hk.reads i (by omega))
      · exact hk.stops (by omega) ((reads_later d s k).mpr h)
      · simp only [readMany, hdev, hrun, Nat.add_right_cancel_iff]
        rw [read_sector, Nat.add_zero, hlen, ← write_read_add, hnext, Medium.later_disk]
    · have hdev : mediumDisk.read s d = (none, d.later) := by
        simp [mediumDisk, hread]
      refine ⟨0, d.later, ⟨by omega, by omega, fun _ h => hread (reads_zero.mpr h)⟩, rfl, rfl, ?_⟩
      simp [readMany, hdev, ByteMemory.read]

theorem write_medium (d : Medium) (s : ℕ) (buf : Mem) :
    (d.Writes s 0 ∧ mediumDisk.write s buf d =
      (true, { d.later.later with disk := putSector d.disk s buf })) ∨
    ∃ d', ¬ d.Writes s 0 ∧ mediumDisk.write s buf d = (false, d') ∧ d'.size = d.size ∧
      ∀ x, d.size ≤ s ∨ x < sectorSize * s ∨ sectorSize * s + sectorSize ≤ x →
        d'.disk x = d.disk x := by
  have hlater : d.later.faults 0 = d.faults 1 := rfl
  by_cases htakes : d.takes = true
  · have hfirst : d.faults 0 = none := by simpa [Medium.takes] using htakes
    have hdev : mediumDisk.write s buf d = d.later.stored s buf := by simp [mediumDisk, htakes]
    by_cases hs : s < d.size
    · cases hfault : d.faults 1 with
      | none =>
        refine Or.inl ⟨⟨hs, hfirst, hfault⟩, ?_⟩
        simp [hdev, Medium.stored, hs, hlater, hfault]
      | some junk =>
        refine Or.inr ⟨{ d.later.later with disk := putSector d.disk s junk },
          fun h => ?_, ?_, rfl, fun x hx => ?_⟩
        · have := h.2.2
          simp [hfault] at this
        · simp [hdev, Medium.stored, hs, hlater, hfault]
        · exact putSector_apart d.disk junk (by omega)
    · refine Or.inr ⟨d.later.later, fun h => hs h.1, ?_, rfl, fun x _ => rfl⟩
      simp [hdev, Medium.stored, hs]
  · refine Or.inr ⟨d.later, fun h => htakes ?_, ?_, rfl, fun x _ => rfl⟩
    · simpa [Medium.takes] using h.2.1
    · simp [mediumDisk, htakes]

theorem writes_later (d : Medium) (disk : Mem) (s i : ℕ) :
    Medium.Writes { d.later.later with disk := disk } (s + 1) i ↔ d.Writes s (i + 1) := by
  have htwo : 2 * i + 1 + 1 = 2 * (i + 1) := by ring
  simp only [Medium.Writes, Medium.later, Nat.add_right_comm s 1 i, Nat.add_assoc s i 1, htwo]

theorem writeMany_medium (count s buf : ℕ) (d : Medium) (m : Mem) :
    ∃ k d', d.Stores m s buf count k d' ∧
      writeMany mediumDisk m count s buf d = (decide (k = count), d') := by
  induction count generalizing s buf d with
  | zero => exact ⟨0, d, ⟨le_rfl, by omega, by omega, rfl, by simp [ByteMemory.read]⟩, rfl⟩
  | succ count ih =>
    rcases write_medium d s fun i => m (buf + i) with
      ⟨hfirst, hdev⟩ | ⟨d', hfails, hdev, hsize, hdisk⟩
    · obtain ⟨k, d', hk, hrun⟩ := ih (s + 1) (buf + sectorSize)
        { d.later.later with disk := putSector d.disk s fun i => m (buf + i) }
      have hlen : sectorSize * (k + 1) = sectorSize + sectorSize * k := by ring
      have hnext : sectorSize * (s + 1) = sectorSize * s + sectorSize := by ring
      have hplace : s + 1 + k = s + (k + 1) := by ring
      refine ⟨k + 1, d', ⟨Nat.succ_le_succ hk.le, fun i hi => ?_, fun hlt h => ?_, hk.size,
        fun x hx => ?_⟩, ?_⟩
      · cases i with
        | zero => exact hfirst
        | succ i => exact (writes_later d _ s i).mp (hk.writes i (by omega))
      · exact hk.stops (by omega) ((writes_later d _ s k).mpr h)
      · have hx' := hk.disk x (by rw [hplace]; exact hx.imp_left Nat.succ.inj)
        rw [hx', hlen, ← write_read_add, hnext, write_sector]
      · simp only [writeMany, hdev, hrun, Nat.add_right_cancel_iff]
    · refine ⟨0, d', ⟨by omega, by omega, fun _ => hfails, hsize, fun x hx => ?_⟩, ?_⟩
      · simpa [ByteMemory.read] using hdisk x (by simpa using hx)
      · simp [writeMany, hdev]

end XldKernel.BlockDevice
