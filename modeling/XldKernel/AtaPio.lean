import XldKernel.MemoryRoutines

/-!
# Sector requests to the ATA drive

Source: `ata_wait`, `ata_pio_read` and `ata_pio_write` of `kernel/src/ata_pio.c`. The ports
are those of an arbitrary bus, so what the drive answers is not restricted. What a drive
makes of the bytes it gets is read off by an observer of the same bus: it keeps the five
address registers and notes a request at each write to the command register.
-/

namespace XldKernel.AtaPio
open ByteMemory CString

structure Bus (σ : Type) where
  inb : UInt16 → σ → UInt8 × σ
  outb : UInt16 → UInt8 → σ → σ
  inw : UInt16 → σ → UInt16 × σ
  outw : UInt16 → UInt16 → σ → σ

structure AtaDrive where
  base : UInt16
  slave : UInt8
  present : Bool

section Driver
variable {σ : Type} (bus : Bus σ)

def ataWait (base : UInt16) (mask val : UInt8) : ℕ → σ → ℤ × σ
  | 0, s => (-1, s)
  | timeout + 1, s =>
    let r := bus.inb (base + 0x07) s
    if r.1 &&& 0x01 ≠ 0 then (-1, r.2)
    else if r.1 &&& mask = val then (0, r.2)
    else ataWait base mask val timeout r.2

def issue (drive : AtaDrive) (lba : UInt32) (count : UInt16) (command : UInt8) (s : σ) : σ :=
  let base := drive.base
  let s := bus.outb (base + 0x06)
    ((0xE0 : UInt32) ||| drive.slave.toUInt32 <<< 4 ||| (lba >>> 24 &&& 0x0F)).toUInt8 s
  let s := bus.outb (base + 0x02) (count &&& 0xFF).toUInt8 s
  let s := bus.outb (base + 0x03) (lba &&& 0xFF).toUInt8 s
  let s := bus.outb (base + 0x04) (lba >>> 8 &&& 0xFF).toUInt8 s
  let s := bus.outb (base + 0x05) (lba >>> 16 &&& 0xFF).toUInt8 s
  bus.outb (base + 0x07) command s

def readWords (base : UInt16) (buf : ℕ) (s : σ) (m : Mem) : σ × Mem :=
  (List.range 256).foldl (fun r i =>
    ((bus.inw (base + 0x00) r.1).2,
      store r.2 (advance buf (2 * i)) 2 (bus.inw (base + 0x00) r.1).1.toNat)) (s, m)

def readSectors (base : UInt16) : ℕ → ℕ → σ → Mem → ℤ × σ × Mem
  | 0, _, s, m =>
    let w := ataWait bus base 0x80 0 30000 s
    if w.1 < 0 then (-1, w.2, m) else (0, w.2, m)
  | sectors + 1, buf, s, m =>
    let w := ataWait bus base 0x08 0x08 10000 s
    if w.1 < 0 then (-1, w.2, m)
    else
      let r := readWords bus base buf w.2 m
      readSectors base sectors (advance buf 512) r.1 r.2

def ataPioRead (drive : AtaDrive) (lba : UInt32) (count : UInt16) (buffer : ℕ) (s : σ) (m : Mem) :
    ℤ × σ × Mem :=
  if drive.present = false then (-1, s, m)
  else if count = 0 ∨ 256 < count then (-1, s, m)
  else readSectors bus drive.base count.toNat buffer (issue bus drive lba count 0x20 s) m

def writeWords (base : UInt16) (buf : ℕ) (m : Mem) (s : σ) : σ :=
  (List.range 256).foldl (fun s i =>
    bus.outw (base + 0x00) (UInt16.ofNat (load m (advance buf (2 * i)) 2)) s) s

def writeSectors (base : UInt16) (m : Mem) : ℕ → ℕ → σ → ℤ × σ
  | 0, _, s => (0, s)
  | sectors + 1, buf, s =>
    let w := ataWait bus base 0x08 0x08 10000 s
    if w.1 < 0 then (-1, w.2)
    else
      let w := ataWait bus base 0x80 0 10000 (writeWords bus base buf m w.2)
      if w.1 < 0 then (-1, w.2) else writeSectors base m sectors (advance buf 512) w.2

def ataPioWrite (drive : AtaDrive) (lba : UInt32) (count : UInt16) (buffer : ℕ) (s : σ) (m : Mem) :
    ℤ × σ :=
  if drive.present = false then (-1, s)
  else if count = 0 ∨ 256 < count then (-1, s)
  else writeSectors bus drive.base m count.toNat buffer (issue bus drive lba count 0x30 s)

end Driver

structure TaskFile where
  driveHead : UInt8
  sectorCnt : UInt8
  sectorNum : UInt8
  cylLow : UInt8
  cylHigh : UInt8

/-- A sector is `none` when the drive is asked in cylinders and heads. -/
structure Request where
  command : UInt8
  slave : Bool
  sector : Option ℕ
  count : ℕ
  deriving DecidableEq

def TaskFile.latch (f : TaskFile) (register : UInt16) (v : UInt8) : TaskFile :=
  if register = 0x06 then { f with driveHead := v }
  else if register = 0x02 then { f with sectorCnt := v }
  else if register = 0x03 then { f with sectorNum := v }
  else if register = 0x04 then { f with cylLow := v }
  else if register = 0x05 then { f with cylHigh := v }
  else f

def TaskFile.lba28 (f : TaskFile) : ℕ :=
  (f.driveHead &&& 0x0F).toNat * 2 ^ 24 + f.cylHigh.toNat * 2 ^ 16 + f.cylLow.toNat * 2 ^ 8 +
    f.sectorNum.toNat

def TaskFile.decode (f : TaskFile) (command : UInt8) : Request where
  command := command
  slave := f.driveHead &&& 0x10 ≠ 0
  sector := if f.driveHead &&& 0x40 ≠ 0 then some f.lba28 else none
  count := if f.sectorCnt = 0 then 256 else f.sectorCnt.toNat

structure Observed (σ : Type) where
  device : σ
  file : TaskFile
  requests : List Request

def observed {σ : Type} (base : UInt16) (bus : Bus σ) : Bus (Observed σ) where
  inb p o := ((bus.inb p o.device).1, { o with device := (bus.inb p o.device).2 })
  inw p o := ((bus.inw p o.device).1, { o with device := (bus.inw p o.device).2 })
  outw p v o := { o with device := bus.outw p v o.device }
  outb p v o :=
    { device := bus.outb p v o.device
      file := o.file.latch (p - base) v
      requests := if p - base = 0x07 then o.requests ++ [o.file.decode v] else o.requests }

section Requests
variable {σ : Type} {bus : Bus σ} {base : UInt16} {drive : AtaDrive}

theorem requests_ataWait (port : UInt16) (mask val : UInt8) (timeout : ℕ) (o : Observed σ) :
    (ataWait (observed base bus) port mask val timeout o).2.requests = o.requests := by
  induction timeout generalizing o with
  | zero => rfl
  | succ timeout ih =>
    rw [ataWait]
    split_ifs
    · rfl
    · rfl
    · rw [ih]
      rfl

theorem requests_readWords (port : UInt16) (buf : ℕ) (o : Observed σ) (m : Mem) :
    (readWords (observed base bus) port buf o m).1.requests = o.requests := by
  rw [readWords]
  refine List.foldlRecOn _ _
    (motive := fun r : Observed σ × Mem => r.1.requests = o.requests) rfl ?_
  intro r hr i _
  exact hr

theorem requests_readSectors (port : UInt16) (sectors buf : ℕ) (o : Observed σ) (m : Mem) :
    (readSectors (observed base bus) port sectors buf o m).2.1.requests = o.requests := by
  induction sectors generalizing buf o m with
  | zero =>
    rw [readSectors]
    split_ifs <;> exact requests_ataWait _ _ _ _ _
  | succ sectors ih =>
    rw [readSectors]
    dsimp only
    split_ifs
    · exact requests_ataWait _ _ _ _ _
    · rw [ih, requests_readWords, requests_ataWait]

theorem requests_writeWords (port : UInt16) (buf : ℕ) (m : Mem) (o : Observed σ) :
    (writeWords (observed base bus) port buf m o).requests = o.requests := by
  rw [writeWords]
  refine List.foldlRecOn _ _ (motive := fun r : Observed σ => r.requests = o.requests) rfl ?_
  intro r hr i _
  exact hr

theorem requests_writeSectors (port : UInt16) (m : Mem) (sectors buf : ℕ) (o : Observed σ) :
    (writeSectors (observed base bus) port m sectors buf o).2.requests = o.requests := by
  induction sectors generalizing buf o with
  | zero => rfl
  | succ sectors ih =>
    rw [writeSectors]
    dsimp only
    split_ifs
    · exact requests_ataWait _ _ _ _ _
    · rw [requests_ataWait, requests_writeWords, requests_ataWait]
    · rw [ih, requests_ataWait, requests_writeWords, requests_ataWait]

end Requests

def programmed (drive : AtaDrive) (lba : UInt32) (count : UInt16) : TaskFile where
  driveHead := ((0xE0 : UInt32) ||| drive.slave.toUInt32 <<< 4 ||| (lba >>> 24 &&& 0x0F)).toUInt8
  sectorCnt := (count &&& 0xFF).toUInt8
  sectorNum := (lba &&& 0xFF).toUInt8
  cylLow := (lba >>> 8 &&& 0xFF).toUInt8
  cylHigh := (lba >>> 16 &&& 0xFF).toUInt8

theorem requests_issue {σ : Type} (bus : Bus σ) (drive : AtaDrive) (lba : UInt32) (count : UInt16)
    (command : UInt8) (o : Observed σ) :
    (issue (observed drive.base bus) drive lba count command o).requests =
      o.requests ++ [(programmed drive lba count).decode command] := by
  have hport (k : UInt16) : drive.base + k - drive.base = k := by
    rw [UInt16.add_comm, UInt16.add_sub_cancel]
  simp [issue, observed, TaskFile.latch, programmed, hport]

def headByte (slave top : UInt8) : UInt8 := (0xE0 : UInt8) ||| slave <<< 4 ||| top

theorem headByte_bits (slave : UInt8) {top : UInt8} (htop : top.toNat < 16) :
    headByte slave top &&& 0x40 ≠ 0 ∧ (headByte slave top &&& 0x10 ≠ 0 ↔ slave &&& 1 ≠ 0) ∧
      headByte slave top &&& 0x0F = top := by
  have hhigh : ∀ slave, headByte slave 0 &&& 0x40 ≠ 0 ∧
      (headByte slave 0 &&& 0x10 ≠ 0 ↔ slave &&& 1 ≠ 0) ∧ headByte slave 0 &&& 0x0F = 0 := by
    apply forall_byte
    decide +kernel
  have hlow : ∀ top : UInt8, top.toNat < 16 →
      top &&& 0x40 = 0 ∧ top &&& 0x10 = 0 ∧ top &&& 0x0F = top := by
    apply forall_byte
    decide +kernel
  have hor (mask : UInt8) :
      headByte slave top &&& mask = (headByte slave 0 &&& mask) ||| (top &&& mask) := by
    rw [headByte, headByte, UInt8.or_zero]
    exact UInt8.eq_of_toBitVec_eq BitVec.and_or_distrib_right
  obtain ⟨h40, h10, h0F⟩ := hhigh slave
  obtain ⟨t40, t10, t0F⟩ := hlow top htop
  rw [hor, hor, hor, t40, t10, t0F, h0F, UInt8.or_zero, UInt8.or_zero, UInt8.zero_or]
  exact ⟨h40, h10, rfl⟩

theorem toNat_masked (x : UInt32) {mask : UInt32} {k : ℕ} (hmask : mask.toNat = 2 ^ k - 1)
    (hk : k ≤ 8) : (x &&& mask).toUInt8.toNat = x.toNat % 2 ^ k := by
  have hlt : x.toNat % 2 ^ k < 2 ^ 8 :=
    (Nat.mod_lt _ (Nat.two_pow_pos k)).trans_le (Nat.pow_le_pow_right Nat.two_pos hk)
  rw [UInt32.toNat_toUInt8, UInt32.toNat_and, hmask, Nat.and_two_pow_sub_one_eq_mod,
    Nat.mod_eq_of_lt hlt]

theorem toNat_top (lba : UInt32) :
    (lba >>> 24 &&& 0x0F).toUInt8.toNat = lba.toNat / 2 ^ 24 % 2 ^ 4 := by
  rw [toNat_masked (k := 4) _ rfl (by decide), UInt32.toNat_shiftRight, Nat.shiftRight_eq_div_pow]
  rfl

theorem driveHead_bits (drive : AtaDrive) (lba : UInt32) (count : UInt16) :
    (programmed drive lba count).driveHead &&& 0x40 ≠ 0 ∧
      ((programmed drive lba count).driveHead &&& 0x10 ≠ 0 ↔ drive.slave &&& 1 ≠ 0) ∧
      ((programmed drive lba count).driveHead &&& 0x0F).toNat = lba.toNat / 2 ^ 24 % 2 ^ 4 := by
  have htop : (lba >>> 24 &&& 0x0F).toUInt8.toNat < 16 := by
    rw [toNat_top]
    omega
  have hhead : (programmed drive lba count).driveHead =
      headByte drive.slave (lba >>> 24 &&& 0x0F).toUInt8 := by
    simp [programmed, headByte]
  obtain ⟨h40, h10, h0F⟩ := headByte_bits drive.slave htop
  rw [hhead, h0F, toNat_top]
  exact ⟨h40, h10, rfl⟩

theorem lba28_programmed (drive : AtaDrive) (lba : UInt32) (count : UInt16) :
    (programmed drive lba count).lba28 = lba.toNat % 2 ^ 28 := by
  rw [TaskFile.lba28, (driveHead_bits drive lba count).2.2]
  have hbyte (x : UInt32) : (x &&& 0xFF).toUInt8.toNat = x.toNat % 2 ^ 8 :=
    toNat_masked x rfl le_rfl
  simp only [programmed, hbyte, UInt32.toNat_shiftRight, Nat.shiftRight_eq_div_pow,
    UInt32.reduceToNat, Nat.reduceMod]
  omega

structure Accepts (drive : AtaDrive) (count : UInt16) : Prop where
  present : drive.present = true
  ne_zero : count ≠ 0
  le : count ≤ 256

theorem accepts_iff {drive : AtaDrive} {count : UInt16} :
    Accepts drive count ↔ drive.present ≠ false ∧ ¬ (count = 0 ∨ 256 < count) := by
  rw [not_or, UInt16.not_lt, ne_eq, Bool.not_eq_false]
  exact ⟨fun h => ⟨h.present, h.ne_zero, h.le⟩, fun ⟨hp, h0, hle⟩ => ⟨hp, h0, hle⟩⟩

theorem count_programmed {drive : AtaDrive} {count : UInt16} (h : Accepts drive count)
    (lba : UInt32) :
    (if (programmed drive lba count).sectorCnt = 0 then 256
      else (programmed drive lba count).sectorCnt.toNat) = count.toNat := by
  have hpos : count.toNat ≠ 0 := fun h0 => h.ne_zero (UInt16.toNat_inj.mp h0)
  have hle : count.toNat ≤ 256 := h.le
  have hreg : (programmed drive lba count).sectorCnt.toNat = count.toNat % 2 ^ 8 := by
    have hmask : count.toNat &&& 0xFF = count.toNat % 2 ^ 8 := Nat.and_two_pow_sub_one_eq_mod _ 8
    change (count &&& 0xFF).toUInt8.toNat = _
    rw [UInt16.toNat_toUInt8, UInt16.toNat_and]
    change (count.toNat &&& 0xFF) % 2 ^ 8 = _
    rw [hmask, Nat.mod_mod]
  simp only [← UInt8.toNat_inj, hreg, UInt8.toNat_zero]
  split_ifs <;> omega

def addressed (drive : AtaDrive) (command : UInt8) (sector count : ℕ) : Request :=
  ⟨command, drive.slave &&& 1 ≠ 0, some sector, count⟩

theorem decode_programmed {drive : AtaDrive} {count : UInt16} (h : Accepts drive count)
    (lba : UInt32) (command : UInt8) : (programmed drive lba count).decode command =
      addressed drive command (lba.toNat % 2 ^ 28) count.toNat := by
  obtain ⟨h40, h10, -⟩ := driveHead_bits drive lba count
  rw [TaskFile.decode, count_programmed h, if_pos h40, lba28_programmed, addressed]
  simp only [h10]

section Calls
variable {σ : Type} (bus : Bus σ) {drive : AtaDrive} {count : UInt16}

theorem rejected_unchanged (h : ¬ Accepts drive count) (lba : UInt32) (buffer : ℕ) (s : σ)
    (m : Mem) :
    ataPioRead bus drive lba count buffer s m = (-1, s, m) ∧
      ataPioWrite bus drive lba count buffer s m = (-1, s) := by
  rw [accepts_iff] at h
  rw [ataPioRead, ataPioWrite]
  by_cases hp : drive.present = false
  · simp only [if_pos hp, and_self]
  · have hcount : count = 0 ∨ 256 < count := by
      by_contra hc
      exact h ⟨hp, hc⟩
    simp only [if_neg hp, if_pos hcount, and_self]

def readRequests (drive : AtaDrive) (lba : UInt32) (count : UInt16) (buffer : ℕ) (s : σ)
    (f : TaskFile) (m : Mem) : List Request :=
  (ataPioRead (observed drive.base bus) drive lba count buffer ⟨s, f, []⟩ m).2.1.requests

def writeRequests (drive : AtaDrive) (lba : UInt32) (count : UInt16) (buffer : ℕ) (s : σ)
    (f : TaskFile) (m : Mem) : List Request :=
  (ataPioWrite (observed drive.base bus) drive lba count buffer ⟨s, f, []⟩ m).2.requests

theorem readRequests_eq (h : Accepts drive count) (lba : UInt32) (buffer : ℕ) (s : σ) (f : TaskFile)
    (m : Mem) : readRequests bus drive lba count buffer s f m =
      [addressed drive 0x20 (lba.toNat % 2 ^ 28) count.toNat] := by
  obtain ⟨hp, hcount⟩ := accepts_iff.mp h
  rw [readRequests, ataPioRead, if_neg hp, if_neg hcount, requests_readSectors, requests_issue,
    decode_programmed h]
  rfl

theorem writeRequests_eq (h : Accepts drive count) (lba : UInt32) (buffer : ℕ) (s : σ)
    (f : TaskFile) (m : Mem) : writeRequests bus drive lba count buffer s f m =
      [addressed drive 0x30 (lba.toNat % 2 ^ 28) count.toNat] := by
  obtain ⟨hp, hcount⟩ := accepts_iff.mp h
  rw [writeRequests, ataPioWrite, if_neg hp, if_neg hcount, requests_writeSectors, requests_issue,
    decode_programmed h]
  rfl

theorem addressed_mod_iff (command : UInt8) (n k : ℕ) :
    [addressed drive command (n % 2 ^ 28) k] = [addressed drive command n k] ↔ n < 2 ^ 28 := by
  simp only [addressed, List.cons.injEq, Request.mk.injEq, Option.some.injEq, true_and, and_true]
  omega

theorem sector_addressed_mod (command command' : UInt8) (n n' k k' : ℕ) :
    [addressed drive command (n % 2 ^ 28) k].map Request.sector =
      [addressed drive command' (n' % 2 ^ 28) k'].map Request.sector ↔ n ≡ n' [MOD 2 ^ 28] := by
  simp [addressed, Nat.ModEq]

/-- One request each, for the drive, the sector and the count of the call, exactly when the
sector number has 28 bits; two calls reach one sector exactly when their sector numbers agree
in the low 28 bits. -/
theorem sector_addressed_iff (h : Accepts drive count) (lba : UInt32) (buffer : ℕ) (s : σ)
    (f : TaskFile) (m : Mem) :
    (readRequests bus drive lba count buffer s f m =
          [addressed drive 0x20 lba.toNat count.toNat] ∧
        writeRequests bus drive lba count buffer s f m =
          [addressed drive 0x30 lba.toNat count.toNat] ↔ lba.toNat < 2 ^ 28) ∧
      ∀ (lba' : UInt32) (buffer' : ℕ) (s' : σ) (f' : TaskFile) (m' : Mem),
        ((readRequests bus drive lba count buffer s f m).map Request.sector =
            (readRequests bus drive lba' count buffer' s' f' m').map Request.sector ↔
          lba.toNat ≡ lba'.toNat [MOD 2 ^ 28]) ∧
        ((writeRequests bus drive lba count buffer s f m).map Request.sector =
            (writeRequests bus drive lba' count buffer' s' f' m').map Request.sector ↔
          lba.toNat ≡ lba'.toNat [MOD 2 ^ 28]) := by
  constructor
  · rw [readRequests_eq bus h, writeRequests_eq bus h, addressed_mod_iff,
      addressed_mod_iff, and_self]
  · intro lba' buffer' s' f' m'
    rw [readRequests_eq bus h, readRequests_eq bus h, writeRequests_eq bus h,
      writeRequests_eq bus h]
    exact ⟨sector_addressed_mod _ _ _ _ _ _, sector_addressed_mod _ _ _ _ _ _⟩

end Calls

def readyDrive : Bus Unit where
  inb _ s := (0x48, s)
  outb _ _ s := s
  inw _ s := (0, s)
  outw _ _ s := s

theorem sector_addressed_last :
    readRequests readyDrive ⟨0x1F0, 0, true⟩ 0x0FFFFFFF 256 0 () ⟨0, 0, 0, 0, 0⟩ (fun _ => 0) =
      [addressed ⟨0x1F0, 0, true⟩ 0x20 0x0FFFFFFF 256] :=
  ((sector_addressed_iff readyDrive ⟨rfl, by decide, by decide⟩ 0x0FFFFFFF 0 () ⟨0, 0, 0, 0, 0⟩
    (fun _ => 0)).1.mpr (by decide)).1

/-- The write to sector `2 ^ 28` succeeds and goes to sector 0. -/
theorem sector_wrapped :
    (ataPioWrite readyDrive ⟨0x1F0, 0, true⟩ 0x10000000 1 0 () (fun _ => 0)).1 = 0 ∧
      writeRequests readyDrive ⟨0x1F0, 0, true⟩ 0x10000000 1 0 () ⟨0, 0, 0, 0, 0⟩ (fun _ => 0) =
        writeRequests readyDrive ⟨0x1F0, 0, true⟩ 0 1 0 () ⟨0, 0, 0, 0, 0⟩ (fun _ => 0) ∧
      readRequests readyDrive ⟨0x1F0, 0, true⟩ 0x10000000 1 0 () ⟨0, 0, 0, 0, 0⟩ (fun _ => 0) =
        [addressed ⟨0x1F0, 0, true⟩ 0x20 0 1] := by
  decide +kernel

end XldKernel.AtaPio
