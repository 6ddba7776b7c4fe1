import XldKernel.AtaTransfer

/-!
# Finding the drive

Source: `ata_reset`, `ata_detect`, `ata_identify` and `ata_pio_init` of
`kernel/src/ata_pio.c`. The four places are tried in a fixed order, each after a
reset of its channel, and the first drive that answers `IDENTIFY` is taken.
-/

namespace XldKernel.AtaPio
open ByteMemory BlockDevice

structure DriveInfo where
  drive : AtaDrive
  sectors : UInt32
  model : List UInt8

section Driver
variable {σ : Type} (bus : Bus σ)

def ioWait (s : σ) : σ := bus.outb 0x80 0 s

def ioWaits : ℕ → σ → σ
  | 0, s => s
  | n + 1, s => ioWaits n (ioWait bus s)

def ataReset (base : UInt16) (s : σ) : σ :=
  let s := bus.outb (base + 0x206) 0x04 s
  let s := ioWaits bus 500 s
  let s := bus.outb (base + 0x206) 0x00 s
  let s := ioWaits bus 20000 s
  (ataWait bus base 0x80 0 30000 s).2

def clearRegisters (base : UInt16) (s : σ) : σ :=
  let s := bus.outb (base + 0x02) 0 s
  let s := bus.outb (base + 0x03) 0 s
  let s := bus.outb (base + 0x04) 0 s
  bus.outb (base + 0x05) 0 s

def detectAnswer (base : UInt16) (s : σ) : Bool × σ :=
  let r := bus.inb (base + 0x07) s
  if r.1 = 0 then (false, r.2)
  else
    let w := ataWait bus base 0x80 0 10000 r.2
    if w.1 < 0 then (false, w.2)
    else
      let mid := bus.inb (base + 0x04) w.2
      let high := bus.inb (base + 0x05) mid.2
      if mid.1 = 0x14 ∧ high.1 = 0xEB then (false, high.2)
      else
        let r := bus.inb (base + 0x07) high.2
        if r.1 &&& 0x08 = 0 ∧ r.1 &&& 0x01 = 0 then (false, r.2)
        else if r.1 &&& 0x01 ≠ 0 then (false, r.2)
        else (true, r.2)

def headOf (slave : UInt8) : UInt8 := (0xA0 : UInt8) ||| slave <<< 4

def ataDetect (base : UInt16) (slave : UInt8) (s : σ) : Bool × σ :=
  let s := bus.outb (base + 0x06) (headOf slave) s
  let s := ioWaits bus 1000 s
  let s := clearRegisters bus base s
  let s := bus.outb (base + 0x07) 0xEC s
  detectAnswer bus base s

def readIdentity (base : UInt16) : ℕ → σ → List UInt16 × σ
  | 0, s => ([], s)
  | n + 1, s =>
    let r := bus.inw (base + 0x00) s
    let rest := readIdentity base n r.2
    (r.1 :: rest.1, rest.2)

def trimBlanks (cs : List UInt8) : List UInt8 :=
  let blanks := (cs.reverse.takeWhile (· = 32)).length
  cs.take (cs.length - blanks) ++ List.replicate blanks 0

def modelOf (buf : List UInt16) : List UInt8 :=
  trimBlanks ((List.range 20).flatMap fun i =>
    [(buf.getD (27 + i) 0 >>> 8).toUInt8, (buf.getD (27 + i) 0).toUInt8]) ++ [0]

def ataIdentify (base : UInt16) (slave : UInt8) (info : DriveInfo) (s : σ) : ℤ × DriveInfo × σ :=
  let s := bus.outb (base + 0x06) (headOf slave) s
  let w := ataWait bus base 0xC0 0x40 30000 s
  if w.1 < 0 then (-1, info, w.2)
  else
    let s := bus.outb (base + 0x07) 0xEC w.2
    let w := ataWait bus base 0x08 0x08 10000 s
    if w.1 < 0 then (-1, info, w.2)
    else
      let r := readIdentity bus base 256 w.2
      let buf := r.1
      (0,
        { drive := ⟨base, slave, true⟩
          model := modelOf buf
          sectors :=
            if buf.getD 49 0 &&& 0x0200 ≠ 0 then
              (buf.getD 60 0).toUInt32 ||| (buf.getD 61 0).toUInt32 <<< 16
            else info.sectors }, r.2)

def initLoop : List (UInt16 × UInt8) → DriveInfo → σ → DriveInfo × σ
  | [], info, s => ({ info with drive := { info.drive with present := false } }, s)
  | (base, slave) :: places, info, s =>
    let s := ataReset bus base s
    let found := ataDetect bus base slave s
    if found.1 then
      let r := ataIdentify bus base slave info found.2
      if r.1 = 0 then (r.2.1, r.2.2) else initLoop places r.2.1 r.2.2
    else initLoop places info found.2

def ataPioInit (info : DriveInfo) (s : σ) : DriveInfo × σ :=
  initLoop bus [(0x1F0, 0), (0x1F0, 1), (0x170, 0), (0x170, 1)] info s

end Driver

def Keeps (s t : Controller) : Prop :=
  ∀ c slave, Option.Rel (fun d e => d.Like e ∧ e.medium = d.medium) ((s c).drives slave)
    ((t c).drives slave)

def AtRest (s : Controller) (c : Bool) : Prop :=
  ∀ slave d, (s c).drives slave = some d → d.busy = 0 ∧ d.phase = .idle

def Prompt (s : Controller) : Prop :=
  ∀ c slave d, (s c).drives slave = some d → ∀ n, d.delays n < 10000

theorem Keeps.refl (s : Controller) : Keeps s s := by
  intro c slave
  cases (s c).drives slave with
  | none => exact .none
  | some d => exact .some ⟨.refl d, rfl⟩

theorem Keeps.trans {s t u : Controller} (h : Keeps s t) (k : Keeps t u) : Keeps s u := by
  intro c slave
  have h₁ := h c slave
  have h₂ := k c slave
  revert h₁ h₂
  cases (s c).drives slave <;> cases (t c).drives slave <;> cases (u c).drives slave <;>
    intro h₁ h₂ <;> cases h₁ <;> cases h₂
  · exact .none
  · next h₁ h₂ => exact .some ⟨h₁.1.trans h₂.1, h₂.2.trans h₁.2⟩

theorem Keeps.some {s t : Controller} (h : Keeps s t) {c slave : Bool} {d : Drive}
    (hd : (s c).drives slave = some d) :
    ∃ e, (t c).drives slave = some e ∧ d.Like e ∧ e.medium = d.medium := by
  have hrel := h c slave
  rw [hd] at hrel
  cases hte : (t c).drives slave with
  | none =>
    rw [hte] at hrel
    cases hrel
  | some e =>
    rw [hte] at hrel
    cases hrel with
    | some hrel => exact ⟨e, rfl, hrel⟩

theorem Keeps.none {s t : Controller} (h : Keeps s t) {c slave : Bool}
    (hd : (s c).drives slave = none) : (t c).drives slave = none := by
  have hrel := h c slave
  rw [hd] at hrel
  cases hte : (t c).drives slave with
  | none => rfl
  | some e =>
    rw [hte] at hrel
    cases hrel

theorem Prompt.keeps {s t : Controller} (h : Prompt s) (hst : Keeps s t) : Prompt t := by
  intro c slave e he
  cases hd : (s c).drives slave with
  | none =>
    rw [hst.none hd] at he
    cases he
  | some d =>
    obtain ⟨e', he', hlike, -⟩ := hst.some hd
    rw [he'] at he
    cases he
    exact hlike.delays (h c slave d hd)

theorem keeps_map {s t : Controller} (f : Bool → Bool → Drive → Drive)
    (hdrives : ∀ c slave, (t c).drives slave = ((s c).drives slave).map (f c slave))
    (hf : ∀ c slave d, d.Like (f c slave d) ∧ (f c slave d).medium = d.medium) : Keeps s t := by
  intro c slave
  rw [hdrives]
  cases (s c).drives slave with
  | none => exact .none
  | some d => exact .some (hf c slave d)

theorem keeps_load (s : Controller) (c : Bool) (f : TaskFile) : Keeps s (s.load c f) := by
  refine keeps_map (fun _ _ => id) (fun c' slave => ?_) fun _ _ d => ⟨.refl d, rfl⟩
  by_cases hc : c' = c
  · subst hc
    simp [Controller.load]
  · simp [Controller.load, hc]

theorem keeps_put {s : Controller} {c slave : Bool} {d e : Drive} (hd : (s c).drives slave = some d)
    (hlike : d.Like e) (hdisk : e.medium = d.medium) : Keeps s (Controller.put s c slave e) := by
  intro c' slave'
  by_cases hplace : (c', slave') = (c, slave)
  · obtain ⟨rfl, rfl⟩ := Prod.mk.inj hplace
    rw [put_drive, hd]
    exact .some ⟨hlike, hdisk⟩
  · have hsame := (elsewhere_put s c slave (s c).file e).drives c' slave' hplace
    rw [Controller.load, Function.update_eq_self] at hsame
    rw [hsame]
    exact Keeps.refl s c' slave'

theorem put_self {s : Controller} {c slave : Bool} {d : Drive} (hd : (s c).drives slave = some d) :
    Controller.put s c slave d = s := by
  rw [Controller.put, Channel.put, ← hd, Function.update_eq_self, Function.update_eq_self]

theorem AtRest.of_eq {s t : Controller} {c : Bool} (h : AtRest s c)
    (hdrives : (t c).drives = (s c).drives) : AtRest t c := by
  intro slave d hd
  rw [hdrives] at hd
  exact h slave d hd

theorem ioWaits_eq (n : ℕ) (s : Controller) :
    ioWaits ataBus n s = fun c => { s c with
      drives := fun slave => ((s c).drives slave).map fun d => { d with busy := d.busy - n } } := by
  induction n generalizing s with
  | zero =>
    funext c
    simp [ioWaits]
  | succ n ih =>
    have htick : ioWait ataBus s = fun c => (s c).tick := rfl
    rw [ioWaits, ih, htick]
    funext c
    simp only [Channel.tick, Option.map_map, Channel.mk.injEq, true_and]
    funext slave
    cases (s c).drives slave with
    | none => rfl
    | some d =>
      simp only [Option.map_some, Function.comp_apply, Drive.tick, Nat.sub_sub, Nat.add_comm 1 n]

theorem ioWaits_keeps (n : ℕ) (s : Controller) : Keeps s (ioWaits ataBus n s) := by
  rw [ioWaits_eq]
  exact keeps_map (fun _ _ d => { d with busy := d.busy - n }) (fun _ _ => rfl)
    fun _ _ d => ⟨⟨rfl, rfl, rfl, id⟩, rfl⟩

theorem ioWaits_file (n : ℕ) (s : Controller) (c : Bool) :
    (ioWaits ataBus n s c).file = (s c).file := by
  rw [ioWaits_eq]

theorem AtRest.ioWaits {s : Controller} {c : Bool} (h : AtRest s c) (n : ℕ) :
    AtRest (ioWaits ataBus n s) c := by
  intro slave e he
  rw [ioWaits_eq] at he
  obtain ⟨d, hd, rfl⟩ := Option.map_eq_some_iff.mp he
  obtain ⟨hbusy, hphase⟩ := h slave d hd
  exact ⟨by simp only [hbusy, Nat.zero_sub], hphase⟩

theorem inb_absent {s : Controller} {c : Bool} (hd : (s c).drives (s c).selected = none) :
    ataBus.inb (portBase c + 0x07) s =
      (if ((s c).drives (!(s c).selected)).isSome then 0 else 0xFF, s) := by
  simp [ataBus, decodePort_base c (r := 7) (by decide), Channel.inb, Channel.status,
    Channel.change, hd]

theorem ataWait_absent {s : Controller} {c : Bool} (hd : (s c).drives (s c).selected = none)
    (mask val : UInt8) (timeout : ℕ) : (ataWait ataBus (portBase c) mask val timeout s).2 = s := by
  induction timeout with
  | zero => rfl
  | succ timeout ih =>
    rw [ataWait, inb_absent hd]
    dsimp only
    split_ifs <;> first | rfl | exact ih

theorem ataWait_rest {s : Controller} {c : Bool} (h : AtRest s c) :
    (ataWait ataBus (portBase c) 0x80 0 30000 s).2 = s := by
  cases hd : (s c).drives (s c).selected with
  | none => exact ataWait_absent hd _ _ _
  | some d =>
    obtain ⟨hbusy, hphase⟩ := h _ d hd
    have hrest : d.rest = d := by
      rw [Drive.rest, ← hbusy]
    have hstatus : d.rest.status = 0x40 := by simp [Drive.status, Drive.rest, hphase]
    have hwait := ataWait_done (s := s) (c := c) rfl (d := d) 0x80 0
      (by rw [hbusy]; omega : d.busy < 30000) (by decide) (by rw [hstatus]; decide)
      (by rw [hstatus]; decide)
    rw [hrest, put_self hd] at hwait
    rw [hwait]

theorem ataReset_spec {s : Controller} (hprompt : Prompt s) (c : Bool) :
    Keeps s (ataReset ataBus (portBase c) s) ∧ AtRest (ataReset ataBus (portBase c) s) c := by
  have hctl (v : UInt8) (t : Controller) : ataBus.outb (portBase c + 0x206) v t =
      Function.update t c (if v &&& 0x04 ≠ 0 then (t c).reset else t c) := by
    simp [ataBus, decodePort_base c (r := 0x206) (by decide), Channel.outb]
  have hset := hctl 0x04 s
  rw [if_pos (by decide)] at hset
  have hclear (t : Controller) : ataBus.outb (portBase c + 0x206) 0x00 t = t := by
    rw [hctl, if_neg (by decide), Function.update_eq_self]
  have hkeeps : Keeps s (Function.update s c (s c).reset) := by
    refine keeps_map (fun c' _ d => if c' = c then d.work .idle else d) (fun c' slave => ?_) ?_
    · by_cases hc : c' = c
      · subst hc
        simp [Channel.reset]
      · simp [hc]
    · intro c' _ d
      split_ifs
      · exact ⟨d.like_work _, rfl⟩
      · exact ⟨.refl d, rfl⟩
  have hrest : AtRest
      (ioWaits ataBus 20000 (ioWaits ataBus 500 (Function.update s c (s c).reset))) c := by
    intro slave e he
    simp only [ioWaits_eq, Function.update_self, Channel.reset, Option.map_map,
      Option.map_eq_some_iff, Function.comp_apply] at he
    obtain ⟨d, hd, rfl⟩ := he
    have hdelay := hprompt c slave d hd 0
    refine ⟨?_, rfl⟩
    simp only [Drive.work]
    omega
  rw [ataReset, hset, hclear, ataWait_rest hrest]
  exact ⟨(hkeeps.trans (ioWaits_keeps 500 _)).trans (ioWaits_keeps 20000 _), hrest⟩

def slaveByte (slave : Bool) : UInt8 := if slave then 1 else 0

theorem headOf_selects (slave : Bool) : decide (headOf (slaveByte slave) &&& 0x10 ≠ 0) = slave := by
  cases slave <;> decide

theorem outb_head (s : Controller) (c slave : Bool) :
    ataBus.outb (portBase c + 0x06) (headOf (slaveByte slave)) s =
      s.load c { (s c).file with driveHead := headOf (slaveByte slave) } := by
  calc ataBus.outb (portBase c + 0x06) (headOf (slaveByte slave)) s
      = ataBus.outb (portBase c + 0x06) (headOf (slaveByte slave)) (s.load c (s c).file) := by
        rw [Controller.load, Function.update_eq_self]
    _ = _ := outb_latch s c _ _ (by decide)

theorem clearRegisters_eq (s : Controller) (c : Bool) :
    clearRegisters ataBus (portBase c) s = s.load c ⟨(s c).file.driveHead, 0, 0, 0, 0⟩ := by
  calc clearRegisters ataBus (portBase c) s
      = clearRegisters ataBus (portBase c) (s.load c (s c).file) := by
        rw [Controller.load, Function.update_eq_self]
    _ = _ := by
        rw [clearRegisters, outb_latch s c _ _ (by decide), outb_latch s c _ _ (by decide),
          outb_latch s c _ _ (by decide), outb_latch s c _ _ (by decide)]
        rfl

structure Addressed (s : Controller) (c slave : Bool) : Prop where
  selected : (s c).selected = slave
  cylLow : (s c).file.cylLow = 0
  cylHigh : (s c).file.cylHigh = 0
  rest : AtRest s c

theorem detect_addresses {s : Controller} {c : Bool} (hrest : AtRest s c) (slave : Bool) :
    ∃ t, Keeps s t ∧ Addressed t c slave ∧
      ataDetect ataBus (portBase c) (slaveByte slave) s =
        detectAnswer ataBus (portBase c) (ataBus.outb (portBase c + 0x07) 0xEC t) := by
  set u := s.load c { (s c).file with driveHead := headOf (slaveByte slave) }
  have hu : AtRest u c := hrest.of_eq (by simp [u, Controller.load])
  have hfile : (ioWaits ataBus 1000 u c).file.driveHead = headOf (slaveByte slave) := by
    rw [ioWaits_file]
    simp [u]
  refine ⟨(ioWaits ataBus 1000 u).load c ⟨(ioWaits ataBus 1000 u c).file.driveHead, 0, 0, 0, 0⟩,
    ((keeps_load s c _).trans (ioWaits_keeps 1000 u)).trans (keeps_load _ c _),
      ⟨?_, ?_, ?_, ?_⟩, ?_⟩
  · rw [Channel.selected, Controller.load_file, hfile]
    exact headOf_selects slave
  · rw [Controller.load_file]
  · rw [Controller.load_file]
  · exact (hu.ioWaits 1000).of_eq (by simp [Controller.load])
  · rw [ataDetect, outb_head, clearRegisters_eq]

theorem detect_absent {s : Controller} {c slave : Bool} (h : Addressed s c slave)
    (hd : (s c).drives slave = none) :
    detectAnswer ataBus (portBase c) (ataBus.outb (portBase c + 0x07) 0xEC s) = (false, s) := by
  have hd' : (s c).drives (s c).selected = none := by rw [h.selected, hd]
  have hcommand : ataBus.outb (portBase c + 0x07) 0xEC s = s := by
    rw [outb_command]
    simp [Channel.command, Channel.change, hd']
  have hwait := ataWait_absent hd' 0x80 0 10000
  rw [hcommand, detectAnswer, inb_absent hd']
  by_cases hother : ((s c).drives (!(s c).selected)).isSome = true
  · simp only [if_pos hother, if_true]
  · have hfirst : (ataWait ataBus (portBase c) 0x80 0 10000 s).1 = -1 := by
      have herr : (0xFF : UInt8) &&& 0x01 ≠ 0 := by decide
      rw [ataWait, inb_absent hd', if_neg hother]
      exact congrArg Prod.fst (if_pos herr)
    have hff : ¬ ((0xFF : UInt8) = 0) := by decide
    simp only [if_neg hother, if_neg hff, hfirst, hwait]
    rfl

theorem status_ne_zero (d : Drive) : d.status ≠ 0 := by
  rw [Drive.status]
  split_ifs
  · decide
  · cases d.phase <;> simp

theorem detect_packet {s : Controller} {c slave : Bool} (hprompt : Prompt s)
    (h : Addressed s c slave) {d : Drive} (hd : (s c).drives slave = some d)
    (hpacket : d.packet = true) :
    ∃ t, Keeps s t ∧
      detectAnswer ataBus (portBase c) (ataBus.outb (portBase c + 0x07) 0xEC s) = (false, t) := by
  obtain ⟨hbusy, -⟩ := h.rest slave d hd
  have hd' : (s c).drives (s c).selected = some d := by rw [h.selected, hd]
  set f : TaskFile := { (s c).file with cylLow := 0x14, cylHigh := 0xEB }
  have hcommand : ataBus.outb (portBase c + 0x07) 0xEC s =
      Controller.put (s.load c f) c slave (d.work .error) := by
    rw [outb_command]
    simp [Channel.command, Channel.change, hd, hpacket, Drive.start, hbusy, Controller.put,
      Controller.load, Channel.put, h.selected, f]
  have hsel : (s.load c f c).selected = slave := by
    rw [← h.selected]
    simp [Channel.selected, f]
  have hdrive : (s.load c f c).drives slave = some d := by simpa [Controller.load] using hd
  have hwait := ataWait_error hsel (d := (d.work .error).tick) 0x80 0
    (lt_of_le_of_lt (Nat.sub_le _ 1) (hprompt c slave d hd 0)) (by decide) rfl
  refine ⟨_, (keeps_load s c f).trans (keeps_put hdrive ((d.like_work .error).trans
    (Drive.like_rest _)) rfl), ?_⟩
  rw [hcommand, detectAnswer, inb_status hsel]
  simp only [if_neg (status_ne_zero _), hwait]
  rfl

theorem detect_disk {s : Controller} {c slave : Bool} (hprompt : Prompt s) (h : Addressed s c slave)
    {d : Drive} (hd : (s c).drives slave = some d) (hpacket : d.packet = false) :
    ∃ e, detectAnswer ataBus (portBase c) (ataBus.outb (portBase c + 0x07) 0xEC s) =
        (true, Controller.put s c slave e) ∧
      d.Like e ∧ e.medium = d.medium ∧ e.busy = 0 ∧ e.phase = .identifying 0 := by
  obtain ⟨hbusy, -⟩ := h.rest slave d hd
  have hd' : (s c).drives (s c).selected = some d := by rw [h.selected, hd]
  have hstart : d.start ((s c).file.decode 0xEC) = d.work (.identifying 0) := by
    simp [Drive.start, hbusy, hpacket, TaskFile.decode]
  have hcommand : ataBus.outb (portBase c + 0x07) 0xEC s =
      Controller.put s c slave (d.work (.identifying 0)) := by
    rw [outb_command, command_start hd' hpacket, h.selected, hstart]
    rfl
  set e := (d.work (.identifying 0)).rest
  have hstatus : e.status = 0x48 := rfl
  have htick : (d.work (.identifying 0)).tick.rest = e := rfl
  have hwait := ataWait_done h.selected (d := (d.work (.identifying 0)).tick) 0x80 0
    (lt_of_le_of_lt (Nat.sub_le _ 1) (hprompt c slave d hd 0)) (by decide)
    (by rw [htick, hstatus]; decide) (by rw [htick, hstatus]; decide)
  rw [htick] at hwait
  have hmid (r : UInt16) (hr : r = 0x04 ∨ r = 0x05) :
      ataBus.inb (portBase c + r) (Controller.put s c slave e) =
        (0, Controller.put s c slave e) := by
    rcases hr with rfl | rfl
    · simp [ataBus, decodePort_base c (r := 4) (by decide), Channel.inb, Controller.put,
        Channel.put, h.cylLow]
    · simp [ataBus, decodePort_base c (r := 5) (by decide), Channel.inb, Controller.put,
        Channel.put, h.cylHigh]
  have hlast : e.tick = e := rfl
  refine ⟨e, ?_, (d.like_work _).trans (Drive.like_rest _), rfl, rfl, rfl⟩
  rw [hcommand, detectAnswer, inb_status h.selected]
  simp only [if_neg (status_ne_zero _), hwait, Int.lt_irrefl, if_false, hmid 0x04 (.inl rfl),
    hmid 0x05 (.inr rfl), inb_status h.selected, hstatus, hlast]
  rfl

theorem readIdentity_words {s : Controller} {c slave : Bool} (hsel : (s c).selected = slave)
    (n w : ℕ) (hn : w + n = 256) {d : Drive} (hbusy : d.busy = 0)
    (hphase : d.phase = if w < 256 then .identifying w else .idle) :
    readIdentity ataBus (portBase c) n (Controller.put s c slave d) =
      ((List.range' w n).map d.identity, Controller.put s c slave { d with phase := .idle }) := by
  induction n generalizing w d with
  | zero =>
    rw [if_neg (by omega)] at hphase
    rw [← hphase]
    rfl
  | succ n ih =>
    rw [if_pos (by omega)] at hphase
    have hword : d.readData = (d.identity w,
        { d with phase := if w + 1 < 256 then .identifying (w + 1) else .idle }) := by
      simp only [Drive.readData, hbusy, hphase, Nat.lt_irrefl, if_false]
      by_cases hlast : w < 255
      · rw [if_pos hlast, if_pos (by omega)]
      · rw [if_neg hlast, if_neg (by omega)]
    rw [readIdentity, inw_data hsel, hword]
    simp only [ih (w + 1) (by omega) (d := { d with
      phase := if w + 1 < 256 then .identifying (w + 1) else .idle }) hbusy rfl, List.range'_succ,
      List.map_cons]

def describe (info : DriveInfo) (c slave : Bool) (identity : ℕ → UInt16) : DriveInfo where
  drive := ⟨portBase c, slaveByte slave, true⟩
  model := modelOf ((List.range 256).map identity)
  sectors :=
    if identity 49 &&& 0x0200 ≠ 0 then (identity 60).toUInt32 ||| (identity 61).toUInt32 <<< 16
    else info.sectors

theorem ataIdentify_disk (s : Controller) (c slave : Bool) {d : Drive} (hbusy : d.busy = 0)
    (hphase : d.phase = .identifying 0) (hpacket : d.packet = false)
    (hdelays : ∀ n, d.delays n < 10000) (info : DriveInfo) :
    ∃ f e, ataIdentify ataBus (portBase c) (slaveByte slave) info (Controller.put s c slave d) =
        (0, describe info c slave d.identity, Controller.put (s.load c f) c slave e) ∧
      (s.load c f c).selected = slave ∧ d.Like e ∧ e.medium = d.medium ∧ e.Ready := by
  set f : TaskFile := { (s c).file with driveHead := headOf (slaveByte slave) }
  have hselected : (s.load c f c).selected = slave := by
    rw [Channel.selected, Controller.load_file]
    exact headOf_selects slave
  have hhead : ataBus.outb (portBase c + 0x06) (headOf (slaveByte slave))
      (Controller.put s c slave d) = Controller.put (s.load c f) c slave d := by
    rw [outb_head]
    simp [Controller.put, Controller.load, Channel.put, f]
  have hrest : d.rest = d := by
    rw [Drive.rest, ← hbusy]
  have hstatus : d.status = 0x48 := by simp [Drive.status, hbusy, hphase]
  have hready := ataWait_done hselected (d := d) 0xC0 0x40 (by rw [hbusy]; omega : d.busy < 30000)
    (by decide) (by rw [hrest, hstatus]; decide) (by rw [hrest, hstatus]; decide)
  rw [hrest] at hready
  have hstart : d.start (f.decode 0xEC) = d.work (.identifying 0) := by
    simp [Drive.start, hbusy, hpacket, TaskFile.decode]
  have hfile : (Controller.put (s.load c f) c slave d c).file = f := by
    simp [Controller.put, Channel.put]
  have hselPut : (Controller.put (s.load c f) c slave d c).selected = slave := by
    rw [Channel.selected, hfile]
    exact headOf_selects slave
  have hcommand : ataBus.outb (portBase c + 0x07) 0xEC (Controller.put (s.load c f) c slave d) =
      Controller.put (s.load c f) c slave (d.work (.identifying 0)) := by
    rw [outb_command, command_start (by rw [hselPut, put_drive]) hpacket, hselPut, hfile, hstart]
    simp [Controller.put, Channel.put]
  have hdata : (d.work (.identifying 0)).rest.status = 0x48 := rfl
  have hwait :=
    ataWait_done hselected (d := d.work (.identifying 0)) 0x08 0x08 (hdelays 0) (by decide)
    (by rw [hdata]; decide) (by rw [hdata]; decide)
  have hwords :=
    readIdentity_words hselected 256 0 rfl (d := (d.work (.identifying 0)).rest) rfl rfl
  have hlike : d.Like { (d.work (.identifying 0)).rest with phase := .idle } :=
    ⟨rfl, rfl, rfl, fun h n => h (n + 1)⟩
  refine ⟨f, _, ?_, hselected, hlike, rfl, ⟨rfl, hpacket, fun n => hdelays (n + 1)⟩⟩
  rw [ataIdentify, hhead, hready]
  simp only [Int.lt_irrefl, if_false, hcommand, hwait, hwords, ← List.range_eq_range']
  have hget : ∀ i < 256, ((List.range 256).map (d.work (.identifying 0)).rest.identity).getD i 0 =
      d.identity i := by
    intro i hi
    simp [hi, Drive.rest, Drive.work]
  simp only [describe, hget 49 (by decide), hget 60 (by decide), hget 61 (by decide)]
  rfl

def places : List (Bool × Bool) := [(false, false), (false, true), (true, false), (true, true)]

def placePort (p : Bool × Bool) : UInt16 × UInt8 := (portBase p.1, slaveByte p.2)

def isDisk (s : Controller) (p : Bool × Bool) : Bool := ((s p.1).drives p.2).any (!·.packet)

theorem isDisk_keeps {s t : Controller} (h : Keeps s t) (p : Bool × Bool) :
    isDisk t p = isDisk s p := by
  cases hd : (s p.1).drives p.2 with
  | none => rw [isDisk, isDisk, h.none hd, hd]
  | some d =>
    obtain ⟨e, he, hlike, -⟩ := h.some hd
    rw [isDisk, isDisk, he, hd, Option.any_some, Option.any_some, hlike.packet]

theorem place_passed {s : Controller} (hprompt : Prompt s) {p : Bool × Bool}
    (hno : isDisk s p = false) (rest : List (UInt16 × UInt8)) (info : DriveInfo) :
    ∃ t, Keeps s t ∧ initLoop ataBus (placePort p :: rest) info s =
      initLoop ataBus rest info t := by
  obtain ⟨hreset, hrest⟩ := ataReset_spec hprompt p.1
  obtain ⟨t, hkeeps, haddr, hdetect⟩ := detect_addresses hrest p.2
  have ht := hreset.trans hkeeps
  rw [← isDisk_keeps ht p] at hno
  obtain ⟨u, hu, hanswer⟩ : ∃ u, Keeps t u ∧ detectAnswer ataBus (portBase p.1)
      (ataBus.outb (portBase p.1 + 0x07) 0xEC t) = (false, u) := by
    cases hd : (t p.1).drives p.2 with
    | none => exact ⟨t, .refl t, detect_absent haddr hd⟩
    | some d =>
      have hpacket : d.packet = true := by simpa [isDisk, hd] using hno
      exact detect_packet (hprompt.keeps ht) haddr hd hpacket
  refine ⟨u, ht.trans hu, ?_⟩
  rw [placePort, initLoop, hdetect, hanswer]
  rfl

theorem place_taken {s : Controller} (hprompt : Prompt s) {p : Bool × Bool} {d : Drive}
    (hd : (s p.1).drives p.2 = some d) (hpacket : d.packet = false) (rest : List (UInt16 × UInt8))
    (info : DriveInfo) :
    ∃ t e, initLoop ataBus (placePort p :: rest) info s = (describe info p.1 p.2 d.identity, t) ∧
      Keeps s t ∧ (t p.1).drives p.2 = some e ∧ e.Ready ∧ (t p.1).selected = p.2 := by
  obtain ⟨hreset, hrest⟩ := ataReset_spec hprompt p.1
  obtain ⟨t, hkeeps, haddr, hdetect⟩ := detect_addresses hrest p.2
  have ht := hreset.trans hkeeps
  obtain ⟨d₁, hd₁, hlike₁, hdisk₁⟩ := ht.some hd
  have hpacket₁ : d₁.packet = false := hlike₁.packet.trans hpacket
  obtain ⟨d₂, hanswer, hlike₂, hdisk₂, hbusy₂, hphase₂⟩ :=
    detect_disk (hprompt.keeps ht) haddr hd₁ hpacket₁
  obtain ⟨f, e, hidentify, hsel, hlike₃, hdisk₃, hready⟩ := ataIdentify_disk t p.1 p.2 hbusy₂
    hphase₂ (hlike₂.packet.trans hpacket₁) (hlike₂.delays (hprompt.keeps ht _ _ _ hd₁)) info
  have hdrive : (t.load p.1 f p.1).drives p.2 = some d₁ := by simpa [Controller.load] using hd₁
  refine ⟨Controller.put (t.load p.1 f) p.1 p.2 e, e, ?_, ?_, put_drive .., hready, ?_⟩
  · rw [placePort, initLoop, hdetect, hanswer]
    simp only [if_true, hidentify, hlike₂.identity, hlike₁.identity]
  · exact (ht.trans (keeps_load t p.1 f)).trans
      (keeps_put hdrive (hlike₂.trans hlike₃) (hdisk₃.trans hdisk₂))
  · simpa [Controller.put, Channel.put, Channel.selected] using hsel

theorem initLoop_places {s : Controller} (hprompt : Prompt s) (ps : List (Bool × Bool))
    (info : DriveInfo) :
    ∃ t, Keeps s t ∧
      (ps.find? (isDisk s) = none → initLoop ataBus (ps.map placePort) info s =
        ({ info with drive := { info.drive with present := false } }, t)) ∧
      ∀ p, ps.find? (isDisk s) = some p → ∃ d e, (s p.1).drives p.2 = some d ∧
        initLoop ataBus (ps.map placePort) info s = (describe info p.1 p.2 d.identity, t) ∧
        (t p.1).drives p.2 = some e ∧ e.Ready ∧ (t p.1).selected = p.2 := by
  induction ps generalizing s with
  | nil => exact ⟨s, .refl s, fun _ => rfl, fun p hp => by simp at hp⟩
  | cons p ps ih =>
    cases hdisk : isDisk s p with
    | true =>
      obtain ⟨d, hd, hpacket⟩ : ∃ d, (s p.1).drives p.2 = some d ∧ d.packet = false := by
        cases hd : (s p.1).drives p.2 with
        | none => simp [isDisk, hd] at hdisk
        | some d => exact ⟨d, rfl, by simpa [isDisk, hd] using hdisk⟩
      obtain ⟨t, e, hloop, hkeeps, he, hready, hsel⟩ :=
        place_taken hprompt hd hpacket (ps.map placePort) info
      refine ⟨t, hkeeps, fun hnone => ?_, fun q hq => ?_⟩
      · simp [hdisk] at hnone
      · obtain rfl : p = q := by simpa [hdisk] using hq
        exact ⟨d, e, hd, hloop, he, hready, hsel⟩
    | false =>
      obtain ⟨u, hu, hloop⟩ := place_passed hprompt hdisk (ps.map placePort) info
      obtain ⟨t, ht, hnone, hsome⟩ := ih (hprompt.keeps hu)
      have hsame : isDisk u = isDisk s := funext (isDisk_keeps hu)
      rw [hsame] at hnone hsome
      refine ⟨t, hu.trans ht, fun h => ?_, fun q hq => ?_⟩
      · rw [List.map_cons, hloop]
        exact hnone (by simpa [hdisk] using h)
      · obtain ⟨d', e, hd', hrun, he, hready, hsel⟩ := hsome q (by simpa [hdisk] using hq)
        cases hd : (s q.1).drives q.2 with
        | none =>
          rw [hu.none hd] at hd'
          cases hd'
        | some d =>
          obtain ⟨d'', hd'', hlike, -⟩ := hu.some hd
          rw [hd'] at hd''
          cases hd''
          rw [hlike.identity] at hrun
          exact ⟨d, e, rfl, by rw [List.map_cons, hloop, hrun], he, hready, hsel⟩

/-- `ata_pio_init` takes the first disk in the order primary master, primary slave,
secondary master, secondary slave, whatever else is attached, and describes it by
its own words; it leaves it selected and ready and loses no data of any drive.
Without a disk it notes that none is present. -/
theorem ata_pio_init_first {s : Controller} (hprompt : Prompt s) (info : DriveInfo) :
    ∃ t, Keeps s t ∧
      (places.find? (isDisk s) = none →
        ataPioInit ataBus info s =
          ({ info with drive := { info.drive with present := false } }, t)) ∧
      ∀ c slave, places.find? (isDisk s) = some (c, slave) → ∃ d e, (s c).drives slave = some d ∧
        ataPioInit ataBus info s = (describe info c slave d.identity, t) ∧
        (t c).drives slave = some e ∧ e.Ready ∧ (t c).selected = slave := by
  obtain ⟨t, hkeeps, hnone, hsome⟩ := initLoop_places hprompt places info
  exact ⟨t, hkeeps, hnone, fun c slave h => hsome (c, slave) h⟩

def mixed : Controller := fun c =>
  ⟨⟨0, 0, 0, 0, 0⟩, fun slave =>
    if c && slave then some lonelyDisk
    else if c || slave then none
    else some { lonelyDisk with packet := true }⟩

theorem mixed_prompt : Prompt mixed := by
  intro c slave d hd n
  have hlt := lonelyDisk_ready.delays n
  cases c <;> cases slave <;> simp [mixed] at hd <;> rw [← hd] <;> exact hlt

theorem ata_pio_init_first_mixed : ∃ t,
    ataPioInit ataBus ⟨⟨0, 0, false⟩, 0, []⟩ mixed =
      (describe ⟨⟨0, 0, false⟩, 0, []⟩ true true lonelyDisk.identity, t) := by
  obtain ⟨t, -, -, hsome⟩ := ata_pio_init_first mixed_prompt ⟨⟨0, 0, false⟩, 0, []⟩
  obtain ⟨d, e, hd, hinit, -⟩ := hsome true true (by decide)
  obtain rfl : lonelyDisk = d := Option.some_inj.mp hd
  exact ⟨t, hinit⟩

end XldKernel.AtaPio
