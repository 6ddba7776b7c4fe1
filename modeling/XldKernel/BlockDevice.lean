import XldKernel.ByteMemory

/-!
# Block devices with sectors of 512 bytes

Source: `kernel/src/blockdev.h`. A device is its two operations on an arbitrary
state. The disk of a `ramDisk` is one byte memory in which sector `s` starts at
byte `512 * s`; `faultyDisk` fails at the accesses its schedules name,
`meteredDisk` notes which sectors are accessed and `loggedDisk` which are written.
-/

namespace XldKernel.BlockDevice
open ByteMemory

def sectorSize : ℕ := 512

/-- `read(lba, 1, buf)` and `write(lba, 1, buf)`. A failed read fills no buffer. -/
structure BlockDev (σ : Type) where
  read : ℕ → σ → Option Mem × σ
  write : ℕ → Mem → σ → Bool × σ

def sector (m : Mem) (s : ℕ) : Mem := fun i => m (sectorSize * s + i)

def putSector (m : Mem) (s : ℕ) (buf : Mem) : Mem := fun x =>
  if sectorSize * s ≤ x ∧ x < sectorSize * s + sectorSize then buf (x - sectorSize * s) else m x

def ramDisk : BlockDev Mem where
  read s m := (some (sector m s), m)
  write s buf m := (true, putSector m s buf)

structure Faulty where
  mem : Mem
  readFails : ℕ → Bool
  writeFails : ℕ → Bool

def faultyDisk : BlockDev Faulty where
  read s d :=
    (if d.readFails 0 then none else some (sector d.mem s),
      { d with readFails := fun n => d.readFails (n + 1) })
  write s buf d :=
    if d.writeFails 0 then (false, { d with writeFails := fun n => d.writeFails (n + 1) })
    else
      (true, { d with
        mem := putSector d.mem s buf
        writeFails := fun n => d.writeFails (n + 1) })

def Faulty.skip (d : Faulty) (n : ℕ) : Faulty :=
  { d with readFails := fun k => d.readFails (k + n) }

@[simp] theorem Faulty.skip_mem (d : Faulty) (n : ℕ) : (d.skip n).mem = d.mem := rfl

@[simp] theorem Faulty.skip_readFails (d : Faulty) (n k : ℕ) :
    (d.skip n).readFails k = d.readFails (k + n) := rfl

theorem Faulty.skip_skip (d : Faulty) (a b : ℕ) : (d.skip a).skip b = d.skip (a + b) := by
  simp only [Faulty.skip, Nat.add_assoc, Nat.add_comm b a]

theorem read_good {d : Faulty} (h : d.readFails 0 = false) (s : ℕ) :
    faultyDisk.read s d = (some (sector d.mem s), d.skip 1) := by
  simp only [faultyDisk, h, Bool.false_eq_true, if_false, Faulty.skip]

theorem read_bad {d : Faulty} (h : d.readFails 0 = true) (s : ℕ) :
    faultyDisk.read s d = (none, d.skip 1) := by
  simp only [faultyDisk, h, if_true, Faulty.skip]

structure Metered where
  mem : Mem
  left : ℕ
  log : List ℕ

/-- The first `left` accesses succeed and are noted, all later ones fail. What is
noted for all `left` together are the accesses of a run that need not end. -/
def meteredDisk : BlockDev Metered where
  read s d :=
    match d.left with
    | 0 => (none, d)
    | n + 1 => (some (sector d.mem s), ⟨d.mem, n, d.log ++ [s]⟩)
  write s buf d :=
    match d.left with
    | 0 => (false, d)
    | n + 1 => (true, ⟨putSector d.mem s buf, n, d.log ++ [s]⟩)

def loggedDisk : BlockDev (Mem × List ℕ) where
  read s d := (some (sector d.1 s), d)
  write s buf d := (true, putSector d.1 s buf, d.2 ++ [s])

theorem sector_apply (m : Mem) (s i j : ℕ) : sector m s (i + j) = m (sectorSize * s + i + j) := by
  simp only [sector, Nat.add_assoc]

theorem load_sector (m : Mem) (s i n : ℕ) :
    load (sector m s) i n = load m (sectorSize * s + i) n :=
  load_eq_load fun j _ => sector_apply m s i j

theorem read_sector (m : Mem) (s i n : ℕ) :
    read (sector m s) i n = read m (sectorSize * s + i) n :=
  read_eq_read fun j _ => sector_apply m s i j

theorem putSector_apart (m : Mem) {s x : ℕ} (buf : Mem)
    (hx : x < sectorSize * s ∨ sectorSize * s + sectorSize ≤ x) : putSector m s buf x = m x := by
  have hout : ¬ (sectorSize * s ≤ x ∧ x < sectorSize * s + sectorSize) := by omega
  simp only [putSector, if_neg hout]

theorem putSector_sector {m m' : Mem} {s : ℕ}
    (hout : ∀ x, x < sectorSize * s ∨ sectorSize * s + sectorSize ≤ x → m' x = m x) :
    putSector m s (sector m' s) = m' := by
  funext x
  by_cases hx : sectorSize * s ≤ x ∧ x < sectorSize * s + sectorSize
  · simp only [putSector, if_pos hx, sector, Nat.add_sub_cancel' hx.1]
  · rw [putSector_apart m _ (by omega), hout x (by omega)]

theorem sector_update (m : Mem) (s i : ℕ) (v : UInt8) :
    sector (Function.update m (sectorSize * s + i) v) s =
      Function.update (sector m s) i v := by
  funext j
  by_cases hj : j = i
  · subst hj
    simp [sector]
  · simp [sector, hj]

theorem sector_store (m : Mem) (s i n v : ℕ) :
    sector (store m (sectorSize * s + i) n v) s = store (sector m s) i n v := by
  funext j
  simp only [sector, store, Nat.add_sub_add_left, Nat.add_le_add_iff_left, Nat.add_assoc,
    Nat.add_lt_add_iff_left]

theorem sector_fill (m : Mem) (s i n : ℕ) (v : UInt8) :
    sector (fill m (sectorSize * s + i) n v) s = fill (sector m s) i n v := by
  funext j
  simp only [sector, fill, Nat.add_le_add_iff_left, Nat.add_assoc, Nat.add_lt_add_iff_left]

theorem sector_write (m : Mem) (s i : ℕ) (bs : List UInt8) :
    sector (write m (sectorSize * s + i) bs) s = write (sector m s) i bs := by
  funext j
  simp only [sector, write, Nat.add_sub_add_left, Nat.add_le_add_iff_left, Nat.add_assoc,
    Nat.add_lt_add_iff_left]

theorem putSector_store (m : Mem) {s i n v : ℕ} (hi : i + n ≤ sectorSize) :
    putSector m s (store (sector m s) i n v) = store m (sectorSize * s + i) n v := by
  rw [← sector_store]
  exact putSector_sector fun x hx => store_apart m (by omega)

theorem putSector_write (m : Mem) {s i : ℕ} {bs : List UInt8} (hi : i + bs.length ≤ sectorSize) :
    putSector m s (write (sector m s) i bs) = write m (sectorSize * s + i) bs := by
  rw [← sector_write]
  exact putSector_sector fun x hx => write_apart m (by omega)

end XldKernel.BlockDevice
