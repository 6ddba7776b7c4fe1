import XldKernel.InterruptStubs
import XldKernel.Pic

/-!
# From the keyboard to its handler

Source: `kmain` of `kernel/src/kernel.c` from `pic_remap` to `sti`, `keyboard_handler` of
`kernel/src/interrupts.asm`, `ps2_init` and `ps2_handler` of `kernel/src/ps2.c`, and
`kernel/src/pic.c`. The keyboard controller has one byte of input and one of output. The
devices act at any moment, also between two port accesses, and raise and lower their
lines as they like; the processor may acknowledge an interrupt that nobody asked for.
-/

namespace XldKernel.KeyboardPath
open Pic
open Klog (Arg)
open Ps2 hiding run

/-- What the processor does next. `ps2_init`: the command for the configuration, the read of
the answer, the command to write the configuration, the byte itself, the command to the
keyboard, the test for its answer and the read of it. Then `enable_irq`, the code that can
be interrupted, and the handler before its status read, before its data read, before the
end of interrupt and before `iretq`. `lost` is an interrupt that has no handler. -/
inductive Phase where
  | askConfig
  | readConfig
  | writeConfig (config : UInt8)
  | sendConfig (config : UInt8)
  | enableScan (config : UInt8)
  | pollAck (config : UInt8)
  | readAck (config : UInt8)
  | ready
  | main
  | entered
  | full
  | served
  | leaving
  | lost (v : UInt8)
  deriving DecidableEq

structure Kbc where
  input : Option (Bool × UInt8)
  output : Option UInt8
  config : UInt8
  writesConfig : Bool

/-- `allowed` is the interrupt flag outside of the handler. `sent`, `dropped` and `read` are
the bytes that ever stood in the output buffer, those that `ps2_init` read and those that
`ps2_handler` read. -/
structure System where
  pics : Pics
  kbc : Kbc
  phase : Phase
  allowed : Bool
  keyboard : Keyboard
  printed : Printed
  sent : List UInt8
  dropped : List UInt8
  read : List UInt8

inductive Device (s : System) : System → Prop
  | request (on : Bool) (n : Fin 16) : Device s { s with pics := s.pics.request on n }
  | key (b : UInt8) (hempty : s.kbc.output = none) :
    Device s { s with kbc := { s.kbc with output := some b }, sent := s.sent ++ [b] }
  | reply (hinput : s.kbc.input = some (true, 0x20)) (hempty : s.kbc.output = none) :
    Device s { s with
      kbc := { s.kbc with input := none, output := some s.kbc.config }
      sent := s.sent ++ [s.kbc.config] }
  | command (v : UInt8) (hinput : s.kbc.input = some (true, v)) (hv : v ≠ 0x20) :
    Device s { s with kbc := { s.kbc with input := none, writesConfig := v = 0x60 } }
  | data (v : UInt8) (hinput : s.kbc.input = some (false, v)) :
    Device s { s with kbc := { s.kbc with
      input := none
      config := if s.kbc.writesConfig then v else s.kbc.config
      writesConfig := false } }

def newConfig (config : UInt8) : UInt8 := (config ||| 0x01) &&& ~~~0x10

def startText : List UInt8 × List Arg := (ascii "[ps2] init start\n", [])

def ackText (b : UInt8) : List UInt8 × List Arg :=
  (ascii "[ps2] ack/byte: 0x%x\n", [.int (b.toBitVec.setWidth 32)])

def doneText (config : UInt8) : List UInt8 × List Arg :=
  (ascii "[ps2] init done (config=0x%x)\n", [.int (config.toBitVec.setWidth 32)])

/-- What the processor does. A test that fails in a loop changes nothing and is no step. -/
inductive Work (s : System) : System → Prop
  | askConfig (hphase : s.phase = .askConfig) (hinput : s.kbc.input = none) :
    Work s { s with kbc := { s.kbc with input := some (true, 0x20) }, phase := .readConfig }
  | readConfig (b : UInt8) (hphase : s.phase = .readConfig) (hfull : s.kbc.output = some b) :
    Work s { s with
      kbc := { s.kbc with output := none }
      phase := .writeConfig (newConfig b)
      dropped := s.dropped ++ [b] }
  | writeConfig (c : UInt8) (hphase : s.phase = .writeConfig c) (hinput : s.kbc.input = none) :
    Work s { s with kbc := { s.kbc with input := some (true, 0x60) }, phase := .sendConfig c }
  | sendConfig (c : UInt8) (hphase : s.phase = .sendConfig c) (hinput : s.kbc.input = none) :
    Work s { s with kbc := { s.kbc with input := some (false, c) }, phase := .enableScan c }
  | enableScan (c : UInt8) (hphase : s.phase = .enableScan c) (hinput : s.kbc.input = none) :
    Work s { s with kbc := { s.kbc with input := some (false, 0xF4) }, phase := .pollAck c }
  | noAck (c : UInt8) (hphase : s.phase = .pollAck c) (hempty : s.kbc.output = none) :
    Work s { s with phase := .ready, printed := s.printed ++ [doneText c] }
  | pollAck (c : UInt8) (hphase : s.phase = .pollAck c) (hfull : s.kbc.output.isSome = true) :
    Work s { s with phase := .readAck c }
  | readAck (c b : UInt8) (hphase : s.phase = .readAck c) (hfull : s.kbc.output = some b) :
    Work s { s with
      kbc := { s.kbc with output := none }
      phase := .ready
      printed := s.printed ++ [ackText b, doneText c]
      dropped := s.dropped ++ [b] }
  | enable (hphase : s.phase = .ready) :
    Work s { s with pics := enableIrq 1 s.pics, phase := .main, allowed := false }
  | allow (on : Bool) (hphase : s.phase = .main) : Work s { s with allowed := on }
  | take (lapsed : Bool) (hphase : s.phase = .main) (hallowed : s.allowed = true) :
    Work s { s with
      pics := (s.pics.inta lapsed).2
      phase := if (s.pics.inta lapsed).1 = 33 then .entered else .lost (s.pics.inta lapsed).1 }
  | poll (hphase : s.phase = .entered) :
    Work s { s with phase := if s.kbc.output.isSome then .full else .served }
  | fetch (b : UInt8) (hphase : s.phase = .full) (hfull : s.kbc.output = some b) :
    Work s { s with
      kbc := { s.kbc with output := none }
      phase := .served
      keyboard := (ps2Handler 1 b s.keyboard).1
      printed := s.printed ++ (ps2Handler 1 b s.keyboard).2
      read := s.read ++ [b] }
  | eoi (hphase : s.phase = .served) :
    Work s { s with pics := picSendEoi 1 s.pics, phase := .leaving }
  | iret (hphase : s.phase = .leaving) : Work s { s with phase := .main, allowed := true }

def Step (s s' : System) : Prop := Device s s' ∨ Work s s'

def start (p : Pics) (kbc : Kbc) : System where
  pics := picRemap p
  kbc := kbc
  phase := .askConfig
  allowed := false
  keyboard := ⟨false, false⟩
  printed := [startText]
  sent := kbc.output.toList
  dropped := []
  read := []

def Reachable (p : Pics) (kbc : Kbc) : System → Prop := Relation.ReflTransGen Step (start p kbc)

def printedFor (k : Keyboard) : List UInt8 → Printed
  | [] => []
  | b :: bs => (ps2Handler 1 b k).2 ++ printedFor (ps2Handler 1 b k).1 bs

def onLine (b : Bool) (n : Fin 16) : Bool := b && n = keyboardLine

namespace Phase

def serving : Phase → List Taken
  | .entered | .full | .served => [.line keyboardLine]
  | .lost _ => [.spurious false]
  | _ => []

def prepared : Phase → Bool
  | .askConfig | .readConfig | .writeConfig _ | .sendConfig _ | .enableScan _ | .pollAck _
  | .readAck _ => false
  | _ => true

def booted : Phase → Bool
  | .ready => false
  | phase => phase.prepared

end Phase

structure Kbc.Configured (k : Kbc) (c : UInt8) : Prop where
  config : k.config = c
  idle : k.writesConfig = false
  input : ∀ v, k.input ≠ some (true, v)

def Phase.Holds (k : Kbc) (dropped : List UInt8) : Phase → Prop
  | .askConfig | .readConfig => dropped = []
  | .writeConfig c => ∃ b, dropped = [b] ∧ c = newConfig b
  | .sendConfig c => ∃ b, dropped = [b] ∧ c = newConfig b ∧
    (k.input = some (true, 0x60) ∨ k.input = none ∧ k.writesConfig = true)
  | .enableScan c => ∃ b, dropped = [b] ∧ c = newConfig b ∧
    (k.input = some (false, c) ∧ k.writesConfig = true ∨ k.input = none ∧ k.Configured c)
  | .pollAck c | .readAck c => ∃ b, dropped = [b] ∧ c = newConfig b ∧ k.Configured c
  | _ => ∃ b bs, dropped = b :: bs ∧ bs.length ≤ 1 ∧ k.Configured (newConfig b)

def initPrinted (prepared : Bool) (dropped : List UInt8) : Printed :=
  startText :: dropped.tail.map ackText ++
    if prepared then [doneText (newConfig (dropped.headD 0))] else []

structure Inv (s : System) : Prop where
  nested : Nested (onLine s.phase.booted) ⟨s.pics, s.phase.serving.map Taken.entry⟩ s.phase.serving
  lost : ∀ v, s.phase = .lost v → v = 39
  full : s.phase = .full → s.kbc.output.isSome = true
  setup : s.phase.Holds s.kbc s.dropped
  fresh : s.phase.booted = false → s.read = []
  bytes : s.sent = s.dropped ++ s.read ++ s.kbc.output.toList
  keyboard : s.keyboard = Ps2.run (s.read.map fun b => (1, b))
  printed : s.printed = initPrinted s.phase.prepared s.dropped ++ printedFor ⟨false, false⟩ s.read

theorem requests_picSendEoi (p : Pics) : (picSendEoi 1 p).requests 1 = p.requests 1 := by
  have heoi : ∀ c : Chip, c.eoi.requested = c.requested := by
    intro c
    rw [Chip.eoi]
    split <;> rfl
  have hsend : (picSendEoi 1 p).master.requested = p.master.requested := heoi p.master
  have h1 : (1 : Fin 16).val < 8 := by decide
  rw [Pics.requests, Pics.requests, if_pos h1, if_pos h1, hsend]

theorem requests_enableIrq {p : Pics} (hm : p.master.setup = .ready) (hs : p.slave.setup = .ready) :
    (enableIrq 1 p).requests 1 = p.requests 1 := by
  have h := enableIrq_remask hm hs 1
  rw [show enableIrq 1 p = p.remaskAt _ 1 from h]
  rfl

theorem run_concat (bs : List UInt8) (b : UInt8) :
    Ps2.run ((bs ++ [b]).map fun b => (1, b)) =
      (ps2Handler 1 b (Ps2.run (bs.map fun b => (1, b)))).1 := by
  simp [Ps2.run]

theorem printedFor_concat (k : Keyboard) (bs : List UInt8) (b : UInt8) :
    printedFor k (bs ++ [b]) =
      printedFor k bs ++ (ps2Handler 1 b (bs.foldl (fun k b => (ps2Handler 1 b k).1) k)).2 := by
  induction bs generalizing k with
  | nil => simp [printedFor]
  | cons c bs ih => simp [printedFor, ih]

theorem run_eq_foldl (bs : List UInt8) :
    Ps2.run (bs.map fun b => (1, b)) = bs.foldl (fun k b => (ps2Handler 1 b k).1)
      ⟨false, false⟩ := by
  rw [Ps2.run, List.foldl_map]

theorem onLine_on : onLine true = Function.update (onLine false) 1 true := by
  funext n
  rw [Function.update_apply, onLine, onLine]
  by_cases hn : n = 1 <;> simp [hn]

theorem inv_start (p : Pics) (kbc : Kbc) : Inv (start p kbc) :=
  ⟨nested_start p, nofun, nofun, rfl, fun _ => rfl, rfl, rfl, rfl⟩

theorem Kbc.Configured.key {k : Kbc} {c : UInt8} (h : k.Configured c) (output : Option UInt8) :
    Kbc.Configured { k with output := output } c :=
  ⟨h.config, h.idle, h.input⟩

theorem Kbc.Configured.data {k : Kbc} {c : UInt8} (h : k.Configured c) (v : UInt8) :
    Kbc.Configured { k with
      input := none
      config := if k.writesConfig then v else k.config
      writesConfig := false } c := by
  refine ⟨?_, rfl, nofun⟩
  simp [h.idle, h.config]

theorem Phase.Holds.output {phase : Phase} {k : Kbc} {dropped : List UInt8}
    (h : phase.Holds k dropped) (output : Option UInt8) :
    phase.Holds { k with output := output } dropped := by
  cases phase with
  | askConfig | readConfig | writeConfig c | sendConfig c => exact h
  | enableScan c =>
    obtain ⟨b, hb, hc, hinput | ⟨hinput, hk⟩⟩ := h
    · exact ⟨b, hb, hc, .inl hinput⟩
    · exact ⟨b, hb, hc, .inr ⟨hinput, hk.key output⟩⟩
  | pollAck c | readAck c =>
    obtain ⟨b, hb, hc, hk⟩ := h
    exact ⟨b, hb, hc, hk.key output⟩
  | ready | main | entered | full | served | leaving | lost v =>
    obtain ⟨b, bs, hb, hlen, hk⟩ := h
    exact ⟨b, bs, hb, hlen, hk.key output⟩

theorem Phase.Holds.command {phase : Phase} {k : Kbc} {dropped : List UInt8} {v : UInt8}
    (h : phase.Holds k dropped) (hinput : k.input = some (true, v)) (writesConfig : Bool)
    (hv : v = 0x60 → writesConfig = true) :
    phase.Holds { k with input := none, writesConfig := writesConfig } dropped := by
  cases phase with
  | askConfig | readConfig | writeConfig c => exact h
  | sendConfig c =>
    obtain ⟨b, hb, hc, hk | ⟨hk, -⟩⟩ := h
    · rw [hinput] at hk
      exact ⟨b, hb, hc, .inr ⟨rfl, hv (congrArg Prod.snd (Option.some_inj.mp hk))⟩⟩
    · rw [hinput] at hk
      cases hk
  | enableScan c =>
    obtain ⟨b, hb, hc, ⟨hk, -⟩ | ⟨hk, -⟩⟩ := h <;> rw [hinput] at hk <;> cases hk
  | pollAck c | readAck c =>
    obtain ⟨b, hb, hc, hk⟩ := h
    exact absurd hinput (hk.input v)
  | ready | main | entered | full | served | leaving | lost v =>
    obtain ⟨b, bs, hb, hlen, hk⟩ := h
    exact absurd hinput (hk.input _)

theorem Phase.Holds.data {phase : Phase} {k : Kbc} {dropped : List UInt8} {v : UInt8}
    (h : phase.Holds k dropped) (hinput : k.input = some (false, v)) :
    phase.Holds { k with
      input := none
      config := if k.writesConfig then v else k.config
      writesConfig := false } dropped := by
  cases phase with
  | askConfig | readConfig | writeConfig c => exact h
  | sendConfig c =>
    obtain ⟨b, hb, hc, hk | ⟨hk, -⟩⟩ := h <;> rw [hinput] at hk <;> cases hk
  | enableScan c =>
    obtain ⟨b, hb, hc, ⟨hk, hwrites⟩ | ⟨hk, -⟩⟩ := h
    · -- the configuration arrives
      rw [hinput] at hk
      cases hk
      refine ⟨b, hb, hc, .inr ⟨rfl, ?_, rfl, nofun⟩⟩
      simp [hwrites]
    · rw [hinput] at hk
      cases hk
  | pollAck c | readAck c =>
    obtain ⟨b, hb, hc, hk⟩ := h
    exact ⟨b, hb, hc, hk.data v⟩
  | ready | main | entered | full | served | leaving | lost w =>
    obtain ⟨b, bs, hb, hlen, hk⟩ := h
    exact ⟨b, bs, hb, hlen, hk.data v⟩

theorem Phase.Holds.device {s s' : System} (h : s.phase.Holds s.kbc s.dropped)
    (hstep : Device s s') : s'.phase.Holds s'.kbc s'.dropped := by
  cases hstep with
  | request on n => exact h
  | key b hempty => exact h.output (some b)
  | reply hinput hempty => exact (h.command hinput s.kbc.writesConfig nofun).output _
  | command v hinput hv => exact h.command hinput _ (by simp)
  | data v hinput => exact h.data hinput

theorem Phase.Holds.length {phase : Phase} {k : Kbc} {dropped : List UInt8}
    (h : phase.Holds k dropped) : dropped.length ≤ 2 := by
  cases phase with
  | askConfig | readConfig =>
    rw [show dropped = [] from h]
    exact Nat.zero_le 2
  | writeConfig c | sendConfig c | enableScan c | pollAck c | readAck c =>
    obtain ⟨b, hb, -⟩ := h
    rw [hb]
    simp
  | ready | main | entered | full | served | leaving | lost v =>
    obtain ⟨b, bs, hb, hlen, -⟩ := h
    rw [hb]
    exact Nat.succ_le_succ hlen

theorem Phase.Holds.config {phase : Phase} {k : Kbc} {dropped : List UInt8}
    (h : phase.Holds k dropped) (hprepared : phase.prepared = true) :
    ∃ b, dropped.head? = some b ∧ k.config = newConfig b := by
  cases phase with
  | ready | main | entered | full | served | leaving | lost v =>
    obtain ⟨b, bs, hb, -, hk⟩ := h
    exact ⟨b, by rw [hb]; rfl, hk.config⟩
  | askConfig | readConfig | writeConfig c | sendConfig c | enableScan c | pollAck c | readAck c =>
    cases hprepared

theorem Inv.device {s s' : System} (h : Inv s) (hstep : Device s s') : Inv s' := by
  have hsetup := h.setup.device hstep
  cases hstep with
  | request b n =>
    exact ⟨h.nested.request b n, h.lost, h.full, hsetup, h.fresh, h.bytes, h.keyboard, h.printed⟩
  | key b hempty =>
    refine ⟨h.nested, h.lost, fun _ => rfl, hsetup, h.fresh, ?_, h.keyboard, h.printed⟩
    simp [h.bytes, hempty]
  | reply hinput hempty =>
    refine ⟨h.nested, h.lost, fun _ => rfl, hsetup, h.fresh, ?_, h.keyboard, h.printed⟩
    simp [h.bytes, hempty]
  | command v hinput hv =>
    exact ⟨h.nested, h.lost, h.full, hsetup, h.fresh, h.bytes, h.keyboard, h.printed⟩
  | data v hinput =>
    exact ⟨h.nested, h.lost, h.full, hsetup, h.fresh, h.bytes, h.keyboard, h.printed⟩

theorem Phase.serving_boot {phase : Phase} (h : phase.booted = false) : phase.serving = [] := by
  cases phase <;> first | rfl | cases h

theorem Inv.booting {s : System} {phase : Phase} (h : Inv s) (hphase : s.phase = phase)
    (hbooted : phase.booted = false) :
    phase.Holds s.kbc s.dropped ∧ s.sent = s.dropped ++ s.kbc.output.toList ∧
      s.printed = initPrinted phase.prepared s.dropped := by
  subst hphase
  have hread := h.fresh hbooted
  refine ⟨h.setup, ?_, ?_⟩
  · simpa [hread] using h.bytes
  · simpa [hread, printedFor] using h.printed

theorem Inv.boot {s : System} (h : Inv s) {phase phase' : Phase} (hphase : s.phase = phase)
    (hbooted : phase.booted = false) (hbooted' : phase'.booted = false) {k : Kbc}
    {printed : Printed} {dropped : List UInt8} (hsetup : phase'.Holds k dropped)
    (hbytes : s.sent = dropped ++ k.output.toList)
    (hprinted : printed = initPrinted phase'.prepared dropped) :
    Inv { s with kbc := k, phase := phase', printed := printed, dropped := dropped } := by
  subst hphase
  have hnested := h.nested
  rw [hbooted, Phase.serving_boot hbooted] at hnested
  have hfresh := h.fresh hbooted
  refine ⟨?_, ?_, ?_, hsetup, fun _ => hfresh, ?_, h.keyboard, ?_⟩
  · simp only [hbooted', Phase.serving_boot hbooted']
    exact hnested
  · rintro v rfl
    cases hbooted'
  · rintro rfl
    cases hbooted'
  · simpa [hfresh] using hbytes
  · simpa [hfresh, printedFor] using hprinted

/-- The interrupt that is taken outside of a handler. -/
theorem Inv.take {s : System} (h : Inv s) (hphase : s.phase = .main) (lapsed : Bool) :
    (s.pics.inta lapsed).1 = 33 ∧
        Nested (onLine true) ⟨(s.pics.inta lapsed).2, [(33, true)]⟩ [.line keyboardLine] ∨
      (s.pics.inta lapsed).1 = 39 ∧ s.pics.requests 1 = false ∧
        Nested (onLine true) ⟨(s.pics.inta lapsed).2, [(39, false)]⟩ [.spurious false] := by
  have hnested := h.nested
  rw [hphase] at hnested
  change Nested (onLine true) ⟨s.pics, []⟩ [] at hnested
  obtain ⟨t, hanswers, hvector, -, htaken⟩ := hnested.acknowledge lapsed
  cases t with
  | line n =>
    obtain rfl : n = keyboardLine := by simpa [onLine] using hanswers.1.enabled
    exact .inl ⟨hvector, htaken⟩
  | spurious second =>
    cases second with
    | true =>
      -- the second chip's line is never enabled
      obtain ⟨-, ⟨n, hge, hdue⟩, -⟩ := hanswers
      obtain rfl : n = keyboardLine := by simpa [onLine] using hdue.enabled
      exact absurd hge (by decide)
    | false =>
      refine .inr ⟨hvector, ?_, htaken⟩
      by_contra hasks
      refine hanswers keyboardLine ⟨by decide, Bool.of_not_eq_false hasks, rfl, ?_,
        by simp [places]⟩
      exact fun hge => absurd hge (by decide)

theorem Inv.work {s s' : System} (h : Inv s) (hstep : Work s s') : Inv s' := by
  have hnested := h.nested
  have hsetup := h.setup
  have hprinted := h.printed
  cases hstep with
  | askConfig hphase hinput =>
    obtain ⟨hsetup, hbytes, hprinted⟩ := h.booting hphase rfl
    exact h.boot hphase rfl rfl hsetup hbytes hprinted
  | readConfig b hphase hfull =>
    obtain ⟨hnone, hbytes, hprinted⟩ := h.booting hphase rfl
    change s.dropped = [] at hnone
    rw [hnone] at hprinted
    refine h.boot hphase rfl rfl ?_ ?_ ?_
    · exact ⟨b, by rw [hnone]; rfl, rfl⟩
    · simp [hbytes, hfull]
    · rw [hnone]
      exact hprinted
  | writeConfig c hphase hinput =>
    obtain ⟨⟨b, hb, hc⟩, hbytes, hprinted⟩ := h.booting hphase rfl
    exact h.boot hphase rfl rfl ⟨b, hb, hc, .inl rfl⟩ hbytes hprinted
  | sendConfig c hphase hinput =>
    obtain ⟨⟨b, hb, hc, hk | ⟨-, hwrites⟩⟩, hbytes, hprinted⟩ := h.booting hphase rfl
    · rw [hinput] at hk
      cases hk
    · exact h.boot hphase rfl rfl ⟨b, hb, hc, .inl ⟨rfl, hwrites⟩⟩ hbytes hprinted
  | enableScan c hphase hinput =>
    obtain ⟨⟨b, hb, hc, ⟨hk, -⟩ | ⟨-, hk⟩⟩, hbytes, hprinted⟩ := h.booting hphase rfl
    · rw [hinput] at hk
      cases hk
    · exact h.boot hphase rfl rfl ⟨b, hb, hc, hk.config, hk.idle, nofun⟩ hbytes hprinted
  | noAck c hphase hempty =>
    obtain ⟨⟨b, hb, rfl, hk⟩, hbytes, hprinted⟩ := h.booting hphase rfl
    refine h.boot hphase rfl rfl ⟨b, [], hb, by simp, hk⟩ hbytes ?_
    simp only [hprinted, hb]
    rfl
  | pollAck c hphase hfull =>
    obtain ⟨hsetup, hbytes, hprinted⟩ := h.booting hphase rfl
    exact h.boot hphase rfl rfl hsetup hbytes hprinted
  | readAck c b hphase hfull =>
    obtain ⟨⟨b₀, hb, rfl, hk⟩, hbytes, hprinted⟩ := h.booting hphase rfl
    refine h.boot hphase rfl rfl ⟨b₀, [b], by rw [hb]; rfl, by simp, hk.key none⟩ ?_ ?_
    · simp [hbytes, hfull]
    · simp only [hprinted, hb]
      rfl
  | enable hphase =>
    rw [hphase] at hnested hsetup hprinted
    have henabled := hnested.enable 1
    rw [Phase.booted, ← onLine_on] at henabled
    exact ⟨henabled, nofun, nofun, hsetup, nofun, h.bytes, h.keyboard, hprinted⟩
  | allow b hphase =>
    exact ⟨hnested, h.lost, h.full, hsetup, h.fresh, h.bytes, h.keyboard, hprinted⟩
  | take lapsed hphase hallowed =>
    rw [hphase] at hsetup hprinted
    rcases h.take hphase lapsed with ⟨hvector, hnested⟩ | ⟨hvector, -, hnested⟩
    · rw [if_pos hvector]
      exact ⟨hnested, nofun, nofun, hsetup, nofun, h.bytes, h.keyboard, hprinted⟩
    · rw [hvector, if_neg (by decide)]
      exact ⟨hnested, fun v hv => (Phase.lost.inj hv).symm, nofun, hsetup, nofun, h.bytes,
        h.keyboard, hprinted⟩
  | poll hphase =>
    rw [hphase] at hnested hsetup hprinted
    split_ifs with hfull
    · exact ⟨hnested, nofun, fun _ => hfull, hsetup, nofun, h.bytes, h.keyboard, hprinted⟩
    · exact ⟨hnested, nofun, nofun, hsetup, nofun, h.bytes, h.keyboard, hprinted⟩
  | fetch b hphase hfull =>
    rw [hphase] at hnested hsetup hprinted
    refine ⟨hnested, nofun, nofun, Phase.Holds.output hsetup none, nofun, ?_, ?_, ?_⟩
    · simp [h.bytes, hfull]
    · simp only [run_concat, h.keyboard]
    · simp only [printedFor_concat, ← run_eq_foldl, ← h.keyboard, hprinted, List.append_assoc]
      rfl
  | eoi hphase =>
    rw [hphase] at hnested hsetup hprinted
    exact ⟨hnested.finish, nofun, nofun, hsetup, nofun, h.bytes, h.keyboard, hprinted⟩
  | iret hphase =>
    rw [hphase] at hnested hsetup hprinted
    exact ⟨hnested, nofun, nofun, hsetup, nofun, h.bytes, h.keyboard, hprinted⟩

theorem Reachable.inv {p : Pics} {kbc : Kbc} {s : System} (h : Reachable p kbc s) : Inv s := by
  induction h with
  | refl => exact inv_start p kbc
  | tail _ hstep ih =>
    rcases hstep with hdevice | hwork
    · exact ih.device hdevice
    · exact ih.work hwork

def ps2Call (s : System) : System :=
  match s.kbc.output with
  | none => { s with phase := .served }
  | some b =>
    { s with
      kbc := { s.kbc with output := none }
      phase := .served
      keyboard := (ps2Handler 1 b s.keyboard).1
      printed := s.printed ++ (ps2Handler 1 b s.keyboard).2
      read := s.read ++ [b] }

def eoiCall (irq : BitVec 8) (s : System) : System :=
  { s with pics := picSendEoi (UInt8.ofBitVec irq) s.pics, phase := .leaving }

theorem Work.poll_empty {s : System} (hphase : s.phase = .entered) (hb : s.kbc.output = none) :
    Work s { s with phase := .served } := by
  have hpoll := Work.poll hphase
  rwa [if_neg (by simp [hb])] at hpoll

theorem Work.poll_full {s : System} (hphase : s.phase = .entered)
    (hb : s.kbc.output.isSome = true) : Work s { s with phase := .full } := by
  have hpoll := Work.poll hphase
  rwa [if_pos hb] at hpoll

theorem calls_work {s : System} (hphase : s.phase = .entered) :
    Relation.ReflTransGen Work s (eoiCall 1 (ps2Call s)) := by
  cases hb : s.kbc.output with
  | none =>
    have hcall : ps2Call s = { s with phase := .served } := by rw [ps2Call, hb]
    rw [hcall]
    exact (Relation.ReflTransGen.single (.poll_empty hphase hb)).tail (.eoi rfl)
  | some b =>
    have hpoll := Work.poll_full hphase (by rw [hb]; rfl)
    have hfetch : Work { s with phase := .full } (ps2Call s) := by
      rw [ps2Call, hb]
      exact .fetch b rfl hb
    have hserved : (ps2Call s).phase = .served := by rw [ps2Call, hb]
    exact ((Relation.ReflTransGen.single hpoll).tail hfetch).tail (.eoi hserved)

/-- The machine code takes the same steps: when the stub has come to its end, the processor
is back where it was interrupted, and the world has gone on by steps of the handler. -/
theorem interrupt_work {l : Interrupts.Layout} {t : X86.Tables} (fs : Interrupts.Functions System)
    (hps2 : ∀ sp w, fs.ps2Handler sp w = ps2Call w)
    (heoi : ∀ sp irq w, fs.picSendEoi sp irq w = eoiCall irq w)
    (len : X86.Instr Interrupts.CFunction → BitVec 64) {m : X86.Machine System}
    (hphase : m.world.phase = .entered) (hin : Interrupts.Installed l t m.mem)
    (hroom : 176 + fs.depth ≤ m.rsp.toNat / 16 * 16)
    (hdata : ∀ a ∈ fs.data,
      a < m.rsp.toNat / 16 * 16 - (176 + fs.depth) ∨ m.rsp.toNat / 16 * 16 ≤ a) :
    ∃ mem' w, Interrupts.interrupt l fs len t true 33 none m =
        some (.ok { m with mem := mem', world := w }) ∧
      Relation.ReflTransGen Work m.world w ∧ w.phase = .leaving := by
  have hgate : X86.readGate m.mem (l.idt + 16 * (33 : BitVec 8).toNat) =
      Interrupts.gateOf (l.handler .keyboard) := hin.keyboard
  obtain ⟨mem', hrun, -⟩ := Interrupts.keyboardHandler_run fs len t
    (Interrupts.gateOf (l.handler .keyboard)) rfl hroom hdata
  rw [hps2, heoi] at hrun
  refine ⟨mem', eoiCall 1 (ps2Call m.world), ?_, calls_work hphase, rfl⟩
  rw [Interrupts.interrupt_handler hin hgate, Interrupts.Handler.code, hrun]

def Handles (b : UInt8) (s s' : System) : Prop :=
  Relation.ReflTransGen Work s s' ∧ s'.phase = .main ∧ s'.read = s.read ++ [b] ∧
    s'.kbc.output = none

theorem Handles.head {b : UInt8} {s s₁ s₂ : System} (hstep : Work s s₁) (hread : s₁.read = s.read)
    (h : Handles b s₁ s₂) : Handles b s s₂ :=
  ⟨.head hstep h.1, h.2.1, hread ▸ h.2.2.1, h.2.2.2⟩

theorem handles_full {b : UInt8} {s : System} (hphase : s.phase = .full)
    (hb : s.kbc.output = some b) : ∃ s', Handles b s s' := by
  have hrun := ((Relation.ReflTransGen.single (Work.fetch b hphase hb)).tail (.eoi rfl)).tail
    (.iret rfl)
  exact ⟨_, hrun, rfl, rfl, rfl⟩

theorem handles_entered {b : UInt8} {s : System} (hphase : s.phase = .entered)
    (hb : s.kbc.output = some b) : ∃ s', Handles b s s' := by
  have hpoll := Work.poll_full hphase (by rw [hb]; rfl)
  obtain ⟨s', h⟩ := handles_full (s := { s with phase := .full }) rfl hb
  exact ⟨s', h.head hpoll rfl⟩

theorem handles_main {b : UInt8} {s : System} (h : Inv s) (hphase : s.phase = .main)
    (hasks : s.pics.requests 1 = true) (hb : s.kbc.output = some b) : ∃ s', Handles b s s' := by
  have hallow := Work.allow true hphase
  have htake : Work { s with allowed := true } _ := .take false hphase rfl
  rcases h.take hphase false with ⟨hvector, -⟩ | ⟨-, hnone, -⟩
  · rw [if_pos hvector] at htake
    obtain ⟨s', hs'⟩ := handles_entered (s := { s with
      pics := (s.pics.inta false).2, phase := .entered, allowed := true }) rfl hb
    exact ⟨s', (hs'.head htake rfl).head hallow rfl⟩
  · rw [hasks] at hnone
    cases hnone

theorem handles_leaving {b : UInt8} {s : System} (h : Inv s) (hphase : s.phase = .leaving)
    (hasks : s.pics.requests 1 = true) (hb : s.kbc.output = some b) : ∃ s', Handles b s s' := by
  have hiret := Work.iret hphase
  obtain ⟨s', hs'⟩ := handles_main (h.work hiret) rfl hasks hb
  exact ⟨s', hs'.head hiret rfl⟩

theorem handles_served {b : UInt8} {s : System} (h : Inv s) (hphase : s.phase = .served)
    (hasks : s.pics.requests 1 = true) (hb : s.kbc.output = some b) : ∃ s', Handles b s s' := by
  have heoi := Work.eoi hphase
  obtain ⟨s', hs'⟩ := handles_leaving (h.work heoi) rfl (by rwa [requests_picSendEoi]) hb
  exact ⟨s', hs'.head heoi rfl⟩

theorem handles_ready {b : UInt8} {s : System} (h : Inv s) (hphase : s.phase = .ready)
    (hasks : s.pics.requests 1 = true) (hb : s.kbc.output = some b) : ∃ s', Handles b s s' := by
  have henable := Work.enable hphase
  obtain ⟨s', hs'⟩ := handles_main (h.work henable) rfl
    (by rwa [requests_enableIrq h.nested.setup.1 h.nested.setup.2]) hb
  exact ⟨s', hs'.head henable rfl⟩

/-- Whatever the devices do and whenever interrupts are acknowledged, in every state that
is reached: an interrupt other than the keyboard's is vector 39, which the controller gives
without a request, and it is not taken while the keyboard's line asks. The bytes that stood
in the output buffer are those that `ps2_init` read, at most two, then those that
`ps2_handler` read, each once and in their order, and the one that is still there; the
state of the keyboard and the output are those of the bytes read. After `ps2_init` the
configuration is the first byte it read with the interrupt of the port on and bit 4 off.
A byte that waits while the keyboard's line asks, or while its handler has not read yet,
can still reach the handler. -/
theorem keyboard_bytes_handled (p : Pics) (kbc : Kbc) {s : System} (h : Reachable p kbc s) :
    (∀ v, s.phase = .lost v → v = 39) ∧
    (s.phase = .main → s.pics.requests 1 = true → ∀ lapsed, (s.pics.inta lapsed).1 = 33) ∧
    s.sent = s.dropped ++ s.read ++ s.kbc.output.toList ∧ s.dropped.length ≤ 2 ∧
    s.keyboard = Ps2.run (s.read.map fun b => (1, b)) ∧
    s.printed =
      initPrinted s.phase.prepared s.dropped ++ printedFor ⟨false, false⟩ s.read ∧
    (s.phase.prepared = true → ∃ b, s.dropped.head? = some b ∧ s.kbc.config = newConfig b) ∧
    ∀ b, s.kbc.output = some b →
      (s.phase.prepared = true ∧ s.pics.requests 1 = true ∧ (∀ v, s.phase ≠ .lost v)) ∨
        s.phase = .entered ∨ s.phase = .full → ∃ s', Handles b s s' := by
  have hinv := h.inv
  refine ⟨hinv.lost, ?_, hinv.bytes, hinv.setup.length, hinv.keyboard, hinv.printed,
    hinv.setup.config, fun b hb hwaits => ?_⟩
  · intro hphase hasks lapsed
    rcases hinv.take hphase lapsed with ⟨hvector, -⟩ | ⟨-, hnone, -⟩
    · exact hvector
    · rw [hasks] at hnone
      cases hnone
  · rcases hwaits with ⟨hprepared, hasks, hlost⟩ | hphase | hphase
    · cases hphase : s.phase with
      | ready => exact handles_ready hinv hphase hasks hb
      | main => exact handles_main hinv hphase hasks hb
      | entered => exact handles_entered hphase hb
      | full => exact handles_full hphase hb
      | served => exact handles_served hinv hphase hasks hb
      | leaving => exact handles_leaving hinv hphase hasks hb
      | lost v => exact absurd hphase (hlost v)
      | askConfig | readConfig | writeConfig c | sendConfig c | enableScan c | pollAck c
      | readAck c =>
        rw [hphase] at hprepared
        cases hprepared
    · exact handles_entered hphase hb
    · exact handles_full hphase hb

/-- The controller answers with its configuration, the keyboard does not answer in time, and
the key that is pressed next is handled. -/
theorem keyboard_bytes_handled_key : ∃ s s', Reachable
    ⟨⟨fun _ => true, fun _ => true, 0, 8, .ready⟩, ⟨fun _ => false, fun _ => true, 0, 112, .icw4⟩⟩
      ⟨none, none, 0x74, false⟩ s ∧
    s.dropped = [0x74] ∧ s.kbc.config = 0x65 ∧ Handles 0x1E s s' ∧ s'.read = [0x1E] := by
  have hconfig : Step (start
      ⟨⟨fun _ => true, fun _ => true, 0, 8, .ready⟩, ⟨fun _ => false, fun _ => true, 0, 112, .icw4⟩⟩
      ⟨none, none, 0x74, false⟩) _ := .inr (.askConfig rfl rfl)
  have hread := ((Relation.ReflTransGen.single hconfig).tail (.inl (.reply rfl rfl))).tail
    (.inr (.readConfig 0x74 rfl rfl))
  have hwrite := (hread.tail (.inr (.writeConfig _ rfl rfl))).tail
    (.inl (.command 0x60 rfl (by decide)))
  have hsend := (hwrite.tail (.inr (.sendConfig _ rfl rfl))).tail (.inl (.data _ rfl))
  have hscan := (hsend.tail (.inr (.enableScan _ rfl rfl))).tail (.inr (.noAck _ rfl rfl))
  have hkey := (hscan.tail (.inl (.key 0x1E rfl))).tail (.inl (.request true 1))
  obtain ⟨-, -, -, -, -, -, -, hhandles⟩ := keyboard_bytes_handled _ _ hkey
  obtain ⟨s', hs'⟩ := hhandles 0x1E rfl (.inl ⟨rfl, rfl, nofun⟩)
  exact ⟨_, s', hkey, rfl, rfl, hs', hs'.2.2.1⟩

end XldKernel.KeyboardPath
