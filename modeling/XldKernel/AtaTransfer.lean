import XldKernel.AtaChannel

/-!
# What a transfer moves

`ata_pio_read`, `ata_pio_write` and `ata_pio_flush` of `kernel/src/ata_pio.c` against a
drive that answers in time: every wait of the driver ends before its time is
over. A call moves the sectors one after the other up to the first at which the
medium of the drive fails. A sector number reaches the drive reduced modulo `2^28`.
-/

namespace XldKernel.AtaPio
open ByteMemory BlockDevice CString

def ataPioFlush {σ : Type} (bus : Bus σ) (drive : AtaDrive) (s : σ) : ℤ × σ :=
  if drive.present = false then (-1, s)
  else
    let w := ataWait bus drive.base 0x80 0 30000 (bus.outb (drive.base + 0x07) 0xE7 s)
    if w.1 < 0 then (-1, w.2) else (0, w.2)

structure AtaDrive.At (drive : AtaDrive) (c slave : Bool) : Prop where
  base : drive.base = portBase c
  slave : decide (drive.slave &&& 1 ≠ 0) = slave

namespace Drive

/-- The drive is a disk that can take a command and answers in time. -/
structure Ready (d : Drive) : Prop where
  busy : d.busy = 0
  packet : d.packet = false
  delays : ∀ n, d.delays n < 10000

def rest (d : Drive) : Drive := { d with busy := 0 }

structure Like (d e : Drive) : Prop where
  size : e.medium.size = d.medium.size
  packet : e.packet = d.packet
  identity : e.identity = d.identity
  delays : (∀ n, d.delays n < 10000) → ∀ n, e.delays n < 10000

theorem Like.refl (d : Drive) : d.Like d := ⟨rfl, rfl, rfl, id⟩

theorem Like.trans {d e f : Drive} (h : d.Like e) (k : e.Like f) : d.Like f :=
  ⟨k.size.trans h.size, k.packet.trans h.packet, k.identity.trans h.identity,
    k.delays ∘ h.delays⟩

theorem like_work (d : Drive) (p : Phase) : d.Like (d.work p) :=
  ⟨rfl, rfl, rfl, fun h n => h (n + 1)⟩

theorem like_rest (d : Drive) : d.Like d.rest := ⟨rfl, rfl, rfl, id⟩

theorem Ready.of_like {d e : Drive} (h : d.Ready) (k : d.Like e) (hbusy : e.busy = 0) : e.Ready :=
  ⟨hbusy, k.packet.trans h.packet, k.delays h.delays⟩

end Drive

section Waiting
variable {s : Controller} {c slave : Bool} (hsel : (s c).selected = slave)
include hsel

theorem ataWait_free {d : Drive} {mask val : UInt8} {timeout : ℕ} (hbusy : d.busy < timeout)
    (hmask : 0x80 &&& mask ≠ val) :
    ataWait ataBus (portBase c) mask val timeout (Controller.put s c slave d) =
      ataWait ataBus (portBase c) mask val (timeout - d.busy)
        (Controller.put s c slave d.rest) := by
  induction timeout generalizing d with
  | zero => omega
  | succ timeout ih =>
    by_cases hzero : d.busy = 0
    · have hrest : d.rest = d := by
        rw [Drive.rest, ← hzero]
      rw [hzero, hrest, Nat.sub_zero]
    · have hstatus : d.status = 0x80 := if_pos (Nat.pos_of_ne_zero hzero)
      have hnoerr : ¬ ((0x80 : UInt8) &&& 0x01 ≠ 0) := by decide
      have htick : d.tick.rest = d.rest := rfl
      have hleft : timeout - d.tick.busy = timeout + 1 - d.busy := by
        simp only [Drive.tick]
        omega
      rw [ataWait, inb_status hsel, hstatus]
      simp only [if_neg hnoerr, if_neg hmask]
      rw [ih (by simp only [Drive.tick]; omega), htick, hleft]

theorem ataWait_done {d : Drive} (mask val : UInt8) {timeout : ℕ} (hbusy : d.busy < timeout)
    (hmask : 0x80 &&& mask ≠ val) (herr : d.rest.status &&& 0x01 = 0)
    (hval : d.rest.status &&& mask = val) :
    ataWait ataBus (portBase c) mask val timeout (Controller.put s c slave d) =
      (0, Controller.put s c slave d.rest) := by
  obtain ⟨t, ht⟩ : ∃ t, timeout - d.busy = t + 1 := ⟨timeout - d.busy - 1, by omega⟩
  have htick : d.rest.tick = d.rest := rfl
  rw [ataWait_free hsel hbusy hmask, ht, ataWait, inb_status hsel, htick]
  simp only [herr, hval, ne_eq, not_true_eq_false, if_false, if_true]

theorem ataWait_error {d : Drive} (mask val : UInt8) {timeout : ℕ} (hbusy : d.busy < timeout)
    (hmask : 0x80 &&& mask ≠ val) (hphase : d.phase = .error) :
    ataWait ataBus (portBase c) mask val timeout (Controller.put s c slave d) =
      (-1, Controller.put s c slave d.rest) := by
  obtain ⟨t, ht⟩ : ∃ t, timeout - d.busy = t + 1 := ⟨timeout - d.busy - 1, by omega⟩
  have htick : d.rest.tick = d.rest := rfl
  have hstatus : d.rest.status = 0x41 := by simp [Drive.status, Drive.rest, hphase]
  have herr : (0x41 : UInt8) &&& 0x01 ≠ 0 := by decide
  rw [ataWait_free hsel hbusy hmask, ht, ataWait, inb_status hsel, htick, hstatus]
  exact if_pos herr

end Waiting

theorem toNat_word (m : Mem) (a : ℕ) : (UInt16.ofNat (load m a 2)).toNat = load m a 2 := by
  have := load_lt m a 2
  rw [UInt16.toNat_ofNat']
  omega

theorem advance_within {buf k n : ℕ} (hbuf : buf + n ≤ 2 ^ 64) (hk : k < n) :
    CString.advance buf k = buf + k := by
  rw [CString.advance, Nat.mod_eq_of_lt (by omega)]

section Reading
variable {s : Controller} {c slave : Bool} (hsel : (s c).selected = slave) {d : Drive}
  {sector left : ℕ} (hbusy : d.busy = 0) (hphase : d.phase = .reading sector left 0)
  {buf : ℕ} (hbuf : buf + sectorSize ≤ 2 ^ 64)
include hsel hbusy hphase hbuf

theorem readWords_part (m : Mem) {k : ℕ} (hk : k ≤ 255) :
    (List.range k).foldl (fun r i =>
      ((ataBus.inw (portBase c + 0x00) r.1).2,
        store r.2 (CString.advance buf (2 * i)) 2 (ataBus.inw (portBase c + 0x00) r.1).1.toNat))
      (Controller.put s c slave d, m) =
      (Controller.put s c slave { d with phase := .reading sector left k },
        write m buf (read d.medium.disk (sectorSize * sector) (2 * k))) := by
  induction k with
  | zero =>
    rw [← hphase]
    simp [ByteMemory.read]
  | succ k ih =>
    have haddr := advance_within hbuf (show 2 * k < sectorSize by simp only [sectorSize]; omega)
    have hlt : k < 255 := by omega
    rw [List.range_succ, List.foldl_append, ih (by omega)]
    simp only [List.foldl_cons, List.foldl_nil, inw_data hsel, Drive.readData, hbusy,
      Nat.lt_irrefl, if_false, if_pos hlt, haddr, toNat_word, store_load_eq_write, write_read_add]
    rfl

def Drive.sectorRead (d : Drive) (sector left : ℕ) : Drive :=
  if 1 < left then d.fetch (sector + 1) (left - 1) else { d with phase := .idle }

theorem readWords_sector (m : Mem) :
    readWords ataBus (portBase c) buf (Controller.put s c slave d) m =
      (Controller.put s c slave (d.sectorRead sector left),
        write m buf (read d.medium.disk (sectorSize * sector) sectorSize)) := by
  have haddr := advance_within hbuf (show 2 * 255 < sectorSize by decide)
  rw [readWords, List.range_succ, List.foldl_append,
    readWords_part hsel hbusy hphase hbuf m le_rfl]
  simp only [List.foldl_cons, List.foldl_nil, inw_data hsel, Drive.readData, hbusy,
    Nat.lt_irrefl, if_false, haddr, toNat_word, store_load_eq_write, write_read_add,
    Drive.sectorRead]
  rfl

end Reading

def outcome (done : Bool) : ℤ := if done then 0 else -1

theorem fetch_wait {s : Controller} {c slave : Bool} (hsel : (s c).selected = slave) {d : Drive}
    (hdelays : ∀ n, d.delays n < 10000) (sector left : ℕ) :
    ∃ e, ataWait ataBus (portBase c) 0x08 0x08 10000
        (Controller.put s c slave (d.fetch sector left)) =
        (outcome (d.medium.readable sector), Controller.put s c slave e) ∧
      e.medium = d.medium.later ∧ d.Like e ∧ e.busy = 0 ∧
      (d.medium.readable sector = true → e.phase = .reading sector left 0) := by
  refine ⟨(d.fetch sector left).rest, ?_, rfl, ⟨rfl, rfl, rfl, fun h n => h (n + 1)⟩, rfl,
    fun hread => if_pos hread⟩
  by_cases hread : d.medium.readable sector = true
  · have hstatus : (d.fetch sector left).rest.status = 0x48 := by
      simp [Drive.status, Drive.rest, Drive.fetch, Drive.work, hread]
    rw [hread]
    exact ataWait_done hsel 0x08 0x08 (hdelays 0) (by decide) (by rw [hstatus]; decide)
      (by rw [hstatus]; decide)
  · rw [Bool.not_eq_true] at hread
    have hphase : (d.fetch sector left).phase = .error := by
      simp [Drive.fetch, Drive.work, hread]
    rw [hread]
    exact ataWait_error hsel 0x08 0x08 (hdelays 0) (by decide) hphase

theorem readSectors_drive {s : Controller} {c slave : Bool} (hsel : (s c).selected = slave)
    {d : Drive} {sector count buf : ℕ} (hdelays : ∀ n, d.delays n < 10000) (hcount : 0 < count)
    (hbuf : buf + sectorSize * count ≤ 2 ^ 64) (m : Mem) :
    ∃ e, readSectors ataBus (portBase c) count buf
        (Controller.put s c slave (d.fetch sector count)) m =
        (outcome (readMany mediumDisk count sector buf d.medium m).1, Controller.put s c slave e,
          (readMany mediumDisk count sector buf d.medium m).2.2) ∧
      e.medium = (readMany mediumDisk count sector buf d.medium m).2.1 ∧ d.Like e ∧ e.busy = 0 := by
  induction count generalizing d sector buf m with
  | zero => omega
  | succ count ih =>
    rw [Nat.mul_succ] at hbuf
    obtain ⟨e, hwait, hmedium, hlike, hfree, hphase⟩ := fetch_wait hsel hdelays sector (count + 1)
    rw [readSectors, hwait]
    cases hread : d.medium.readable sector with
    | false =>
      have hdev : mediumDisk.read sector d.medium = (none, d.medium.later) := by
        simp [mediumDisk, hread]
      refine ⟨e, ?_, ?_, hlike, hfree⟩
      · simp only [readMany, hdev]
        rfl
      · simp only [readMany, hdev, hmedium]
    | true =>
      have hdev : mediumDisk.read sector d.medium =
          (some (BlockDevice.sector d.medium.disk sector), d.medium.later) := by
        simp [mediumDisk, hread]
      have hwords := readWords_sector hsel hfree (hphase hread)
        (by omega : buf + sectorSize ≤ 2 ^ 64) m
      have hbytes : read e.medium.disk (sectorSize * sector) sectorSize =
          read (BlockDevice.sector d.medium.disk sector) 0 sectorSize := by
        rw [hmedium, read_sector, Nat.add_zero, Medium.later_disk]
      have hgoes : ¬ outcome true < 0 := by decide
      simp only [if_neg hgoes, hwords, hbytes, readMany, hdev]
      cases count with
      | zero =>
        have hidle : (e.sectorRead sector 1).rest.status = 0x40 := rfl
        have hbusy : (e.sectorRead sector 1).busy < 30000 := by
          rw [show (e.sectorRead sector 1).busy = e.busy from rfl, hfree]
          decide
        have hend := ataWait_done hsel 0x80 0 hbusy (by decide) (by rw [hidle]; decide)
          (by rw [hidle]; decide)
        refine ⟨(e.sectorRead sector 1).rest, ?_, hmedium, hlike.trans ⟨rfl, rfl, rfl, id⟩, rfl⟩
        rw [readSectors, hend]
        rfl
      | succ count =>
        have hone : sectorSize < sectorSize * (count + 1) + sectorSize := by
          simp only [sectorSize]
          omega
        have haddr : CString.advance buf 512 = buf + sectorSize := advance_within hbuf hone
        have hnext : e.sectorRead sector (count + 1 + 1) = e.fetch (sector + 1) (count + 1) := rfl
        obtain ⟨e', hrun, hmedium', hlike', hfree'⟩ := @ih e (sector + 1) (buf + sectorSize)
          (hlike.delays hdelays) (by omega) (by omega)
          (write m buf (read (BlockDevice.sector d.medium.disk sector) 0 sectorSize))
        rw [hmedium] at hrun hmedium'
        refine ⟨e', ?_, hmedium', hlike.trans hlike', hfree'⟩
        rw [haddr, hnext]
        exact hrun

theorem agree_write_read (b m : Mem) (a : ℕ) :
    Agree (write b 0 (read m a sectorSize)) fun i => m (a + i) := by
  intro i hi
  rw [write, if_pos ⟨Nat.zero_le i, by rw [read_length]; omega⟩]
  simp [ByteMemory.read, hi]

section Writing
variable {s : Controller} {c slave : Bool} (hsel : (s c).selected = slave) {d : Drive}
  {sector left : ℕ} (hbusy : d.busy = 0) (hphase : d.phase = .writing sector left 0)
  {buf : ℕ} (hbuf : buf + sectorSize ≤ 2 ^ 64)
include hsel hbusy hphase hbuf

theorem writeWords_part (m : Mem) {k : ℕ} (hk : k ≤ 255) :
    (List.range k).foldl (fun s i =>
      ataBus.outw (portBase c + 0x00) (UInt16.ofNat (load m (CString.advance buf (2 * i)) 2)) s)
      (Controller.put s c slave d) =
      Controller.put s c slave { d with
        phase := .writing sector left k
        buffer := write d.buffer 0 (read m buf (2 * k)) } := by
  induction k with
  | zero =>
    rw [← hphase]
    simp [ByteMemory.read]
  | succ k ih =>
    have haddr := advance_within hbuf (show 2 * k < sectorSize by simp only [sectorSize]; omega)
    have hlt : k < 255 := by omega
    have hword := write_read_add d.buffer m 0 buf (2 * k) 2
    rw [Nat.zero_add] at hword
    rw [List.range_succ, List.foldl_append, ih (by omega)]
    simp only [List.foldl_cons, List.foldl_nil, outw_data hsel, Drive.writeData, hbusy,
      Nat.lt_irrefl, if_false, if_pos hlt, haddr, toNat_word, store_load_eq_write, hword]
    rfl

theorem writeWords_sector (m : Mem) :
    writeWords ataBus (portBase c) buf m (Controller.put s c slave d) =
      Controller.put s c slave
        (Drive.commit { d with buffer := write d.buffer 0 (read m buf sectorSize) }
          sector left) := by
  have haddr := advance_within hbuf (show 2 * 255 < sectorSize by decide)
  have hword := write_read_add d.buffer m 0 buf (2 * 255) 2
  rw [Nat.zero_add] at hword
  rw [writeWords, List.range_succ, List.foldl_append,
    writeWords_part hsel hbusy hphase hbuf m le_rfl]
  simp only [List.foldl_cons, List.foldl_nil, outw_data hsel, Drive.writeData, hbusy,
    Nat.lt_irrefl, if_false, haddr, toNat_word, store_load_eq_write, hword]
  rfl

end Writing

theorem ask_wait {s : Controller} {c slave : Bool} (hsel : (s c).selected = slave) {d e : Drive}
    {sector left : ℕ} (he : e.rest = (d.ask sector left).rest) (hbusy : e.busy < 10000)
    {mask val : UInt8} (hmask : mask = 0x08 ∧ val = 0x08 ∨ mask = 0x80 ∧ val = 0) :
    ataWait ataBus (portBase c) mask val 10000 (Controller.put s c slave e) =
      (outcome d.medium.takes, Controller.put s c slave (d.ask sector left).rest) := by
  have hphase : e.phase = if d.medium.takes then .writing sector left 0 else .error :=
    congrArg Drive.phase he
  have hne : 0x80 &&& mask ≠ val := by
    rcases hmask with ⟨rfl, rfl⟩ | ⟨rfl, rfl⟩ <;> decide
  rw [← he]
  cases htakes : d.medium.takes with
  | true =>
    have hstatus : e.rest.status = 0x48 := by
      simp [Drive.status, Drive.rest, hphase, htakes]
    exact ataWait_done hsel mask val hbusy hne (by rw [hstatus]; decide)
      (by rw [hstatus]; rcases hmask with ⟨rfl, rfl⟩ | ⟨rfl, rfl⟩ <;> decide)
  | false => exact ataWait_error hsel mask val hbusy hne (by simp [hphase, htakes])

theorem commit_wait {s : Controller} {c slave : Bool} (hsel : (s c).selected = slave) {d : Drive}
    (hdelays : ∀ n, d.delays n < 10000) {sector left : ℕ} {done : Bool} {next : Medium}
    (hstored : d.medium.stored sector d.buffer = (done, next)) :
    ataWait ataBus (portBase c) 0x80 0 10000 (Controller.put s c slave (d.commit sector left)) =
      (outcome (done && (decide (left ≤ 1) || next.takes)),
        Controller.put s c slave (d.commit sector left).rest) := by
  rw [Drive.commit, hstored]
  cases done with
  | false => exact ataWait_error hsel 0x80 0 (hdelays 0) (by decide) rfl
  | true =>
    by_cases hleft : 1 < left
    · simp only [Bool.true_eq_false, if_false, if_pos hleft]
      rw [ask_wait hsel (d := { d with medium := next }) rfl (hdelays 0) (.inr ⟨rfl, rfl⟩)]
      simp [Nat.not_le.mpr hleft]
    · have hidle : (({ d with medium := next } : Drive).work .idle).rest.status = 0x40 := rfl
      simp only [Bool.true_eq_false, if_false, if_neg hleft]
      rw [ataWait_done hsel 0x80 0 (hdelays 0) (by decide) (by rw [hidle]; decide)
        (by rw [hidle]; decide)]
      simp [Nat.not_lt.mp hleft, outcome]

theorem like_commit (d : Drive) (sector left : ℕ) : d.Like (d.commit sector left).rest := by
  have hsize := d.medium.stored_size sector d.buffer
  rw [Drive.commit]
  split_ifs <;> exact ⟨hsize, rfl, rfl, fun h n => h (n + 1)⟩

theorem commit_medium {d : Drive} {sector : ℕ} (left : ℕ) {done : Bool} {next : Medium}
    (hstored : d.medium.stored sector d.buffer = (done, next)) :
    (d.commit sector left).medium = if done && decide (1 < left) then next.later else next := by
  rw [Drive.commit, hstored]
  cases done with
  | false => rfl
  | true => by_cases hleft : 1 < left <;> simp [hleft, Drive.ask, Drive.work]

/-- The driver waits for the drive both before and after it has sent a sector, so the
loop is entered with a drive that is perhaps no longer busy. -/
theorem writeSectors_drive {s : Controller} {c slave : Bool} (hsel : (s c).selected = slave)
    {d e : Drive} {sector count buf : ℕ} (he : e.rest = (d.ask sector count).rest)
    (hbusy : e.busy < 10000) (hdelays : ∀ n, d.delays n < 10000) (hcount : 0 < count)
    (hbuf : buf + sectorSize * count ≤ 2 ^ 64) (m : Mem) :
    ∃ e', writeSectors ataBus (portBase c) m count buf (Controller.put s c slave e) =
        (outcome (writeMany mediumDisk m count sector buf d.medium).1,
          Controller.put s c slave e') ∧
      e'.medium = (writeMany mediumDisk m count sector buf d.medium).2 ∧ d.Like e' ∧
        e'.busy = 0 := by
  induction count generalizing d e sector buf with
  | zero => omega
  | succ count ih =>
    have hgoes : ¬ outcome true < 0 := by decide
    rw [Nat.mul_succ] at hbuf
    rw [writeSectors, ask_wait hsel he hbusy (.inl ⟨rfl, rfl⟩)]
    cases htakes : d.medium.takes with
    | false =>
      have hdev : mediumDisk.write sector (fun i => m (buf + i)) d.medium =
          (false, d.medium.later) := by
        simp [mediumDisk, htakes]
      refine ⟨(d.ask sector (count + 1)).rest, ?_, ?_, ⟨rfl, rfl, rfl, fun h n => h (n + 1)⟩, rfl⟩
      · simp only [writeMany, hdev]
        rfl
      · simp only [writeMany, hdev]
        rfl
    | true =>
      have hphase : (d.ask sector (count + 1)).rest.phase = .writing sector (count + 1) 0 := by
        simp [Drive.ask, Drive.rest, Drive.work, htakes]
      have hwords := writeWords_sector hsel rfl hphase (by omega : buf + sectorSize ≤ 2 ^ 64) m
      have hbuffer := agree_write_read (d.ask sector (count + 1)).rest.buffer m buf
      have hlike : d.Like { (d.ask sector (count + 1)).rest with
          buffer := write (d.ask sector (count + 1)).rest.buffer 0 (read m buf sectorSize) } :=
        ⟨rfl, rfl, rfl, fun h n => h (n + 1)⟩
      have hmedium : (d.ask sector (count + 1)).rest.medium = d.medium.later := rfl
      rcases hr : d.medium.later.stored sector (fun i => m (buf + i)) with ⟨done, next⟩
      have hdev : mediumDisk.write sector (fun i => m (buf + i)) d.medium = (done, next) := by
        simp [mediumDisk, htakes, hr]
      generalize (d.ask sector (count + 1)).rest = e at hwords hbuffer hlike hmedium
      simp only [if_neg hgoes, hwords]
      obtain ⟨f, hf⟩ : ∃ f : Drive, f = { e with
          buffer := write e.buffer 0 (read m buf sectorSize) } := ⟨_, rfl⟩
      rw [← hf] at hlike ⊢
      have hstored : f.medium.stored sector f.buffer = (done, next) := by
        rw [hf, hmedium, Medium.stored_congr _ hbuffer, hr]
      have hkeep := hlike.trans (like_commit f sector (count + 1))
      have hleaves := commit_medium (count + 1) hstored
      rw [commit_wait hsel (hlike.delays hdelays) hstored]
      simp only [writeMany, hdev]
      cases done with
      | false => exact ⟨_, rfl, hleaves, hkeep, rfl⟩
      | true =>
        cases count with
        | zero => exact ⟨_, rfl, hleaves, hkeep, rfl⟩
        | succ count =>
          have hone : sectorSize < sectorSize * (count + 1) + sectorSize := by
            simp only [sectorSize]
            omega
          have haddr : CString.advance buf 512 = buf + sectorSize := advance_within hbuf hone
          have hlong : ¬ count + 1 + 1 ≤ 1 := by omega
          have hask : f.commit sector (count + 1 + 1) =
              Drive.ask { f with medium := next } (sector + 1) (count + 1) := by
            simp [Drive.commit, hstored]
          simp only [Bool.true_and, hlong, decide_false, Bool.false_or, haddr]
          cases hnext : next.takes with
          | false =>
            have hrefused : mediumDisk.write (sector + 1) (fun i => m (buf + sectorSize + i)) next =
                (false, next.later) := by
              simp [mediumDisk, hnext]
            refine ⟨_, ?_, ?_, hkeep, rfl⟩
            · simp only [writeMany, hrefused]
              rfl
            · simp only [writeMany, hrefused]
              exact hleaves
          | true =>
            obtain ⟨e', hrun, hmedium', hlike', hfree⟩ := @ih { f with medium := next }
              (f.commit sector (count + 1 + 1)).rest (sector + 1) (buf + sectorSize)
              (by rw [hask]; rfl) (by simp only [Drive.rest]; omega) (hlike.delays hdelays)
              (by omega) (by omega)
            have hsize : next.size = d.medium.size := by
              have := d.medium.later.stored_size sector (fun i => m (buf + i))
              rwa [hr] at this
            refine ⟨e', ?_, hmedium', ⟨hlike'.size.trans hsize, hlike'.packet.trans hlike.packet,
              hlike'.identity.trans hlike.identity, hlike'.delays ∘ hlike.delays⟩, hfree⟩
            simp only [if_neg hgoes]
            exact hrun

section Commands
variable {s : Controller} {c slave : Bool} {drive : AtaDrive} (hat : drive.At c slave)
include hat

theorem selected_programmed (lba : UInt32) (count : UInt16) :
    (s.load c (programmed drive lba count) c).selected = slave := by
  rw [Channel.selected, Controller.load_file, ← hat.slave]
  exact decide_eq_decide.mpr (driveHead_bits drive lba count).2.1

theorem issue_drive {d : Drive} (hd : (s c).drives slave = some d) (hpacket : d.packet = false)
    (lba : UInt32) (count : UInt16) (command : UInt8) :
    issue ataBus drive lba count command s =
      Controller.put (s.load c (programmed drive lba count)) c slave
        (d.start ((programmed drive lba count).decode command)) := by
  have hsel := selected_programmed hat (s := s) lba count
  have hdrive : (s.load c (programmed drive lba count) c).drives
      (s.load c (programmed drive lba count) c).selected = some d := by
    rw [hsel]
    simpa [Controller.load] using hd
  have hlast := command_start hdrive hpacket command
  rw [hsel, Controller.load_file] at hlast
  calc issue ataBus drive lba count command s
      = issue ataBus drive lba count command (s.load c (s c).file) := by
        rw [Controller.load, Function.update_eq_self]
    _ = ataBus.outb (portBase c + 0x07) command (s.load c (programmed drive lba count)) := by
        rw [issue, hat.base, outb_latch s c _ _ (by decide), outb_latch s c _ _ (by decide),
          outb_latch s c _ _ (by decide), outb_latch s c _ _ (by decide),
          outb_latch s c _ _ (by decide)]
        rfl
    _ = _ := by
        rw [outb_command, hlast]
        rfl

variable {d : Drive} (hd : (s c).drives slave = some d) (hready : d.Ready) {count : UInt16}
  (haccepts : Accepts drive count)
include hd hready haccepts

theorem issue_transfer (lba : UInt32) :
    issue ataBus drive lba count 0x20 s =
      Controller.put (s.load c (programmed drive lba count)) c slave
        (d.fetch (lba.toNat % 2 ^ 28) count.toNat) ∧
    issue ataBus drive lba count 0x30 s =
      Controller.put (s.load c (programmed drive lba count)) c slave
        (d.ask (lba.toNat % 2 ^ 28) count.toNat) := by
  constructor <;> rw [issue_drive hat hd hready.packet, decode_programmed haccepts] <;>
    simp [Drive.start, hready.busy, hready.packet, addressed]

variable {buffer : ℕ} (hbuf : buffer + sectorSize * count.toNat ≤ 2 ^ 64)

omit hat hd hready in
theorem Accepts.pos : 0 < count.toNat := by
  refine Nat.pos_of_ne_zero fun h => haccepts.ne_zero ?_
  exact UInt16.toNat_inj.mp h

include hbuf

theorem ataPioRead_drive (lba : UInt32) (m : Mem) :
    ∃ e, ataPioRead ataBus drive lba count buffer s m =
        (outcome (readMany mediumDisk count.toNat (lba.toNat % 2 ^ 28) buffer d.medium m).1,
          Controller.put (s.load c (programmed drive lba count)) c slave e,
          (readMany mediumDisk count.toNat (lba.toNat % 2 ^ 28) buffer d.medium m).2.2) ∧
      e.medium = (readMany mediumDisk count.toNat (lba.toNat % 2 ^ 28) buffer d.medium m).2.1 ∧
      d.Like e ∧ e.busy = 0 := by
  obtain ⟨hpresent, hcount⟩ := accepts_iff.mp haccepts
  rw [ataPioRead, if_neg hpresent, if_neg hcount, (issue_transfer hat hd hready haccepts lba).1,
    hat.base]
  exact readSectors_drive (selected_programmed hat lba count) hready.delays haccepts.pos hbuf m

theorem ataPioWrite_drive (lba : UInt32) (m : Mem) :
    ∃ e, ataPioWrite ataBus drive lba count buffer s m =
        (outcome (writeMany mediumDisk m count.toNat (lba.toNat % 2 ^ 28) buffer d.medium).1,
          Controller.put (s.load c (programmed drive lba count)) c slave e) ∧
      e.medium = (writeMany mediumDisk m count.toNat (lba.toNat % 2 ^ 28) buffer d.medium).2 ∧
      d.Like e ∧ e.busy = 0 := by
  obtain ⟨hpresent, hcount⟩ := accepts_iff.mp haccepts
  rw [ataPioWrite, if_neg hpresent, if_neg hcount, (issue_transfer hat hd hready haccepts lba).2,
    hat.base]
  exact writeSectors_drive (selected_programmed hat lba count) rfl (hready.delays 0) hready.delays
    haccepts.pos hbuf m

end Commands

structure Controller.Elsewhere (s t : Controller) (c slave : Bool) : Prop where
  drives : ∀ c' slave', (c', slave') ≠ (c, slave) → (t c').drives slave' = (s c').drives slave'

theorem elsewhere_put (s : Controller) (c slave : Bool) (f : TaskFile) (d : Drive) :
    s.Elsewhere (Controller.put (s.load c f) c slave d) c slave := by
  refine ⟨fun c' slave' hne => ?_⟩
  by_cases hc : c' = c
  · subst hc
    have hslave : slave' ≠ slave := fun h => hne (by rw [h])
    simp [Controller.put, Controller.load, Channel.put, hslave]
  · simp [Controller.put, Controller.load, hc]

theorem put_drive (s : Controller) (c slave : Bool) (d : Drive) :
    (Controller.put s c slave d c).drives slave = some d := by
  simp [Controller.put, Channel.put]

def lonelyDisk : Drive where
  medium := ⟨fun n => UInt8.ofNat n, 64, fun _ => none⟩
  packet := false
  identity := fun _ => 0
  phase := .idle
  buffer := fun _ => 0
  busy := 0
  delays := fun n => n % 7

def lonely : Controller := fun c =>
  ⟨⟨0, 0, 0, 0, 0⟩, fun slave => if c || slave then none else some lonelyDisk⟩

theorem lonelyDisk_ready : lonelyDisk.Ready :=
  ⟨rfl, rfl, fun n => by simp only [lonelyDisk]; omega⟩

theorem ataPioFlush_ready {s : Controller} {c slave : Bool} {drive : AtaDrive} {d : Drive}
    (hat : drive.At c slave) (hpresent : drive.present = true) (hsel : (s c).selected = slave)
    (hd : (s c).drives slave = some d) (hready : d.Ready) :
    ∃ e, ataPioFlush ataBus drive s = (0, Controller.put s c slave e) ∧ d.Like e ∧ e.Ready ∧
      e.medium = d.medium := by
  have hcommand := command_start (by rwa [hsel]) hready.packet 0xE7
  have hstart : d.start ((s c).file.decode 0xE7) = d.work .idle := by
    simp [Drive.start, hready.busy, hready.packet, TaskFile.decode]
  have hbusy : (d.work .idle).busy < 30000 := (hready.delays 0).trans (by decide)
  have hidle : (d.work .idle).rest.status = 0x40 := rfl
  have hwait := ataWait_done hsel 0x80 0 hbusy (by decide) (by rw [hidle]; decide)
    (by rw [hidle]; decide)
  rw [Controller.put] at hwait
  refine ⟨(d.work .idle).rest, ?_, (d.like_work _).trans (Drive.like_rest _),
    hready.of_like ((d.like_work _).trans (Drive.like_rest _)) rfl, rfl⟩
  rw [ataPioFlush, hpresent, hat.base, outb_command, hcommand, hsel, hstart, hwait]
  rfl

end XldKernel.AtaPio
