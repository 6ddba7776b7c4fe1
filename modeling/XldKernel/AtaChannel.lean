import XldKernel.AtaPio
import XldKernel.SectorMedium

/-!
# Two channels with ATA drives

What answers the ports that `kernel/src/ata_pio.c` uses: two channels with up to
two drives each. The address registers belong to the channel, the drive that
the drive/head register selects executes the command. A drive is busy for as
many reads of its status, or accesses to port `0x80`, as its schedule says; it
moves data in words of two bytes and sectors of 256 words. Each sector of a
transfer is one access to the drive's medium, so a drive may report an error
before any data has moved, between two sectors or after it has taken a sector. A
drive that is not there reads as 0, a channel without drives as `0xFF`.
-/

namespace XldKernel.AtaPio
open ByteMemory BlockDevice

inductive Phase where
  | idle
  | error
  | reading (sector left word : ℕ)
  | writing (sector left word : ℕ)
  | identifying (word : ℕ)

/-- `identity` is what the drive answers to `IDENTIFY`; a `packet` drive refuses it.
`buffer` is the sector that a write has brought so far. -/
structure Drive where
  medium : Medium
  packet : Bool
  identity : ℕ → UInt16
  phase : Phase
  buffer : Mem
  busy : ℕ
  delays : ℕ → ℕ

namespace Drive
variable (d : Drive)

def work (p : Phase) : Drive :=
  { d with phase := p, busy := d.delays 0, delays := fun n => d.delays (n + 1) }

def tick : Drive := { d with busy := d.busy - 1 }

def status : UInt8 :=
  if 0 < d.busy then 0x80
  else match d.phase with
    | .idle => 0x40
    | .error => 0x41
    | _ => 0x48

def fetch (sector left : ℕ) : Drive :=
  { d with medium := d.medium.later }.work
    (if d.medium.readable sector then .reading sector left 0 else .error)

def ask (sector left : ℕ) : Drive :=
  { d with medium := d.medium.later }.work
    (if d.medium.takes then .writing sector left 0 else .error)

def commit (sector left : ℕ) : Drive :=
  let r := d.medium.stored sector d.buffer
  let e := { d with medium := r.2 }
  if r.1 = false then e.work .error
  else if 1 < left then e.ask (sector + 1) (left - 1)
  else e.work .idle

def start (r : Request) : Drive :=
  if 0 < d.busy then d
  else if d.packet then d.work .error
  else if r.command = 0xEC then d.work (.identifying 0)
  else if r.command = 0xE7 then d.work .idle
  else
    match r.sector with
    | none => d.work .error
    | some n =>
      if r.command = 0x20 then d.fetch n r.count
      else if r.command = 0x30 then d.ask n r.count
      else d.work .error

def readData : UInt16 × Drive :=
  if 0 < d.busy then (0, d)
  else
    match d.phase with
    | .reading sector left word =>
      (UInt16.ofNat (load d.medium.disk (sectorSize * sector + 2 * word) 2),
        if word < 255 then { d with phase := .reading sector left (word + 1) }
        else if 1 < left then d.fetch (sector + 1) (left - 1)
        else { d with phase := .idle })
    | .identifying word =>
      (d.identity word,
        if word < 255 then { d with phase := .identifying (word + 1) }
        else { d with phase := .idle })
    | _ => (0, d)

def writeData (v : UInt16) : Drive :=
  if 0 < d.busy then d
  else
    match d.phase with
    | .writing sector left word =>
      let e := { d with buffer := store d.buffer (2 * word) 2 v.toNat }
      if word < 255 then { e with phase := .writing sector left (word + 1) }
      else e.commit sector left
    | _ => d

end Drive

structure Channel where
  file : TaskFile
  drives : Bool → Option Drive

namespace Channel
variable (ch : Channel)

def selected : Bool := ch.file.driveHead &&& 0x10 ≠ 0

def put (slave : Bool) (d : Drive) : Channel :=
  { ch with drives := Function.update ch.drives slave (some d) }

def status : UInt8 :=
  match ch.drives ch.selected with
  | some d => d.status
  | none => if (ch.drives (!ch.selected)).isSome then 0 else 0xFF

def change (f : Drive → Drive) : Channel :=
  match ch.drives ch.selected with
  | some d => ch.put ch.selected (f d)
  | none => ch

def command (v : UInt8) : Channel :=
  let next := ch.change (·.start (ch.file.decode v))
  if (ch.drives ch.selected).any (·.packet) then
    { next with file := { ch.file with cylLow := 0x14, cylHigh := 0xEB } }
  else next

def reset : Channel where
  file := ⟨0, 1, 1, 0, 0⟩
  drives slave := (ch.drives slave).map (·.work .idle)

def inb (register : UInt16) : UInt8 × Channel :=
  if register = 0x07 then (ch.status, ch.change Drive.tick)
  else if register = 0x04 then (ch.file.cylLow, ch)
  else if register = 0x05 then (ch.file.cylHigh, ch)
  else (0, ch)

def outb (register : UInt16) (v : UInt8) : Channel :=
  if register = 0x07 then ch.command v
  else if register = 0x206 then (if v &&& 0x04 ≠ 0 then ch.reset else ch)
  else { ch with file := ch.file.latch register v }

def inw : UInt16 × Channel :=
  match ch.drives ch.selected with
  | some d => (d.readData.1, ch.put ch.selected d.readData.2)
  | none => (0xFFFF, ch)

end Channel

abbrev Controller := Bool → Channel

def portBase (channel : Bool) : UInt16 := if channel then 0x170 else 0x1F0

def isRegister (r : UInt16) : Bool := r < 8 || r == 0x206

def decodePort (p : UInt16) : Option (Bool × UInt16) :=
  if isRegister (p - 0x1F0) then some (false, p - 0x1F0)
  else if isRegister (p - 0x170) then some (true, p - 0x170)
  else none

def Channel.tick (ch : Channel) : Channel :=
  { ch with drives := fun slave => (ch.drives slave).map Drive.tick }

def ataBus : Bus Controller where
  inb p s :=
    match decodePort p with
    | none => (0xFF, s)
    | some (c, r) => (((s c).inb r).1, Function.update s c ((s c).inb r).2)
  outb p v s :=
    match decodePort p with
    | none => if p = 0x80 then fun c => (s c).tick else s
    | some (c, r) => Function.update s c ((s c).outb r v)
  inw p s :=
    match decodePort p with
    | none => (0xFFFF, s)
    | some (c, r) => if r = 0 then ((s c).inw.1, Function.update s c (s c).inw.2) else (0xFFFF, s)
  outw p v s :=
    match decodePort p with
    | none => s
    | some (c, r) => if r = 0 then Function.update s c ((s c).change (·.writeData v)) else s

theorem decodePort_base (c : Bool) {r : UInt16} (hr : r ∈ [0, 2, 3, 4, 5, 6, 7, 0x206]) :
    decodePort (portBase c + r) = some (c, r) := by
  fin_cases hr <;> cases c <;> rfl

theorem decodePort_data (c : Bool) : decodePort (portBase c) = some (c, 0) := by
  cases c <;> decide

def Controller.put (s : Controller) (c slave : Bool) (d : Drive) : Controller :=
  Function.update s c ((s c).put slave d)

section Selected
variable {s : Controller} {c slave : Bool} (hsel : (s c).selected = slave) (d : Drive)
include hsel

theorem inb_status :
    ataBus.inb (portBase c + 0x07) (Controller.put s c slave d) =
      (d.status, Controller.put s c slave d.tick) := by
  subst hsel
  simp [ataBus, decodePort_base c (r := 7) (by decide), Controller.put, Channel.inb, Channel.status,
    Channel.change, Channel.put, Channel.selected]

theorem inw_data :
    ataBus.inw (portBase c + 0x00) (Controller.put s c slave d) =
      (d.readData.1, Controller.put s c slave d.readData.2) := by
  subst hsel
  simp [ataBus, decodePort_data, Controller.put, Channel.inw, Channel.put,
    Channel.selected]

theorem outw_data (v : UInt16) :
    ataBus.outw (portBase c + 0x00) v (Controller.put s c slave d) =
      Controller.put s c slave (d.writeData v) := by
  subst hsel
  simp [ataBus, decodePort_data, Controller.put, Channel.change, Channel.put,
    Channel.selected]

end Selected

def Controller.load (s : Controller) (c : Bool) (f : TaskFile) : Controller :=
  Function.update s c { s c with file := f }

@[simp] theorem Controller.load_file (s : Controller) (c : Bool) (f : TaskFile) :
    (s.load c f c).file = f := by
  simp [Controller.load]

theorem outb_latch (s : Controller) (c : Bool) (f : TaskFile) {r : UInt16} (v : UInt8)
    (hr : r ∈ [2, 3, 4, 5, 6]) :
    ataBus.outb (portBase c + r) v (s.load c f) = s.load c (f.latch r v) := by
  have hmem : r ∈ [0, 2, 3, 4, 5, 6, 7, 0x206] := by
    fin_cases hr <;> decide
  have hne : r ≠ 0x07 ∧ r ≠ 0x206 := by
    fin_cases hr <;> decide
  simp [ataBus, decodePort_base c hmem, Controller.load, Channel.outb, hne.1, hne.2]

theorem outb_command (s : Controller) (c : Bool) (v : UInt8) :
    ataBus.outb (portBase c + 0x07) v s = Function.update s c ((s c).command v) := by
  simp [ataBus, decodePort_base c (r := 7) (by decide), Channel.outb]

theorem command_start {ch : Channel} {d : Drive} (hd : ch.drives ch.selected = some d)
    (hpacket : d.packet = false) (v : UInt8) :
    ch.command v = ch.put ch.selected (d.start (ch.file.decode v)) := by
  simp [Channel.command, Channel.change, hd, hpacket]

end XldKernel.AtaPio
