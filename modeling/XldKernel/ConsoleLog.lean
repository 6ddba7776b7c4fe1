import XldKernel.Console
import XldKernel.Klog

/-!
# The kernel log on the screen and on the serial line

Source: `kernel/src/serial.c`, `kputchar` and `klog_init` of `kernel/src/klog.c`, and the first
phase of `kmain`. The UART takes some polls of its status register to send each character
and loses one that is written while it is busy. While its divisor latch is open the data port
is that of the divisor. Nothing in the kernel calls `serial_init`, so that the latch is as the
firmware and the boot loader left it.
-/

namespace XldKernel.Console
open ByteMemory

/-- `busy` counts the polls until the transmitter is empty, `delays` those that each
character will take. -/
structure Uart where
  lcr : UInt8
  ier : UInt8
  fcr : UInt8
  mcr : UInt8
  divisorLow : UInt8
  divisorHigh : UInt8
  busy : ℕ
  delays : ℕ → ℕ
  sent : List UInt8

namespace Uart

def latchOpen (u : Uart) : Bool := u.lcr &&& 0x80 ≠ 0

def transmit (v : UInt8) (u : Uart) : Uart :=
  if u.busy = 0 then { u with busy := u.delays u.sent.length, sent := u.sent ++ [v] } else u

def outb (port : UInt16) (v : UInt8) (u : Uart) : Uart :=
  if port = 0x3F8 then if u.latchOpen then { u with divisorLow := v } else u.transmit v
  else if port = 0x3F8 + 1 then
    if u.latchOpen then { u with divisorHigh := v } else { u with ier := v }
  else if port = 0x3F8 + 2 then { u with fcr := v }
  else if port = 0x3F8 + 3 then { u with lcr := v }
  else if port = 0x3F8 + 4 then { u with mcr := v }
  else u

def status (u : Uart) : UInt8 × Uart :=
  (if u.busy = 0 then 0x60 else 0, { u with busy := u.busy - 1 })

end Uart

def serialInit (u : Uart) : Uart :=
  let u := u.outb (0x3F8 + 1) 0x00
  let u := u.outb (0x3F8 + 3) 0x80
  let u := u.outb 0x3F8 0x03
  let u := u.outb (0x3F8 + 1) 0x00
  let u := u.outb (0x3F8 + 3) 0x03
  let u := u.outb (0x3F8 + 2) 0xC7
  u.outb (0x3F8 + 4) 0x0B

/-- `while (!serial_is_transmit_empty())`, for at most `fuel` rounds. -/
def waitEmpty : ℕ → Uart → Option Uart
  | 0, _ => none
  | fuel + 1, u => if u.status.1 &&& 0x20 ≠ 0 then some u.status.2 else waitEmpty fuel u.status.2

def serialWriteChar (fuel : ℕ) (c : UInt8) (u : Uart) : Option Uart :=
  (waitEmpty fuel u).map (Uart.outb 0x3F8 c)

structure State where
  screen : Screen
  uart : Uart

variable (fb : Framebuffer) (font : Font)

def kputchar (fuel : ℕ) (c : UInt8) (s : State) : Option State :=
  let screen := graphicsPutchar fb font c 0xFFFFFF 0x000000 s.screen
  (serialWriteChar fuel c s.uart).map fun uart => ⟨screen, uart⟩

def kputs (fuel : ℕ) : List UInt8 → State → Option State
  | [], s => some s
  | c :: str, s => (kputchar fb font fuel c s).bind (kputs fuel str)

inductive LogCall where
  | printk (fmt : List UInt8) (args : List Klog.Arg)
  | klog (level : ℤ) (fmt : List UInt8) (args : List Klog.Arg)

/-- The characters that a call puts out, where C defines them. -/
def LogCall.text : LogCall → Option (List UInt8)
  | .printk fmt args => (Klog.printk fmt args).map Prod.fst
  | .klog level fmt args => (Klog.klog level fmt args).map Prod.fst

def log (fuel : ℕ) : List LogCall → State → Option State
  | [], s => some s
  | call :: calls, s =>
    call.text.bind fun text => (kputs fb font fuel text s).bind (log fuel calls)

def klogInit (s : Screen) : Screen := graphicsSetCursor 0 0 s

def bootScreen (s : Screen) : Screen :=
  let s := { s with cursorX := 0, cursorY := 0 }
  let s := klogInit s
  { s with mem := fbClear fb 0x000000 s.mem }

theorem serialInit_closed (u : Uart) : (serialInit u).latchOpen = false ∧
    (serialInit u).sent = u.sent ∧ (serialInit u).divisorLow = 3 ∧
    (serialInit u).divisorHigh = 0 := by
  have hclosed : (3 : UInt8) &&& 0x80 = 0 := by decide
  by_cases hlatch : u.lcr &&& 0x80 = 0
  · simp [serialInit, Uart.outb, Uart.latchOpen, hlatch, hclosed]
  · simp [serialInit, Uart.outb, Uart.latchOpen, hlatch, hclosed]

theorem waitEmpty_eq {fuel : ℕ} {u : Uart} (h : u.busy < fuel) :
    waitEmpty fuel u = some { u with busy := 0 } := by
  induction fuel generalizing u with
  | zero => omega
  | succ fuel ih =>
    by_cases hbusy : u.busy = 0
    · have hpoll : u.status = (0x60, { u with busy := 0 }) := by simp [Uart.status, hbusy]
      rw [waitEmpty, hpoll]
      exact if_pos (show (0x60 : UInt8) &&& 0x20 ≠ 0 by decide)
    · have hpoll : u.status = (0, { u with busy := u.busy - 1 }) := by simp [Uart.status, hbusy]
      rw [waitEmpty, hpoll]
      exact (if_neg (show ¬ (0 : UInt8) &&& 0x20 ≠ 0 by decide)).trans (ih (by dsimp only; omega))

def Uart.put (c : UInt8) (u : Uart) : Uart :=
  if u.latchOpen then { u with busy := 0, divisorLow := c }
  else { u with busy := u.delays u.sent.length, sent := u.sent ++ [c] }

theorem serialWriteChar_eq {fuel : ℕ} {u : Uart} (h : u.busy < fuel) (c : UInt8) :
    serialWriteChar fuel c u = some (u.put c) := by
  have hlatch : ({ u with busy := 0 } : Uart).latchOpen = u.latchOpen := rfl
  rw [serialWriteChar, waitEmpty_eq h]
  simp [Uart.outb, hlatch, Uart.transmit, Uart.put]

theorem Uart.put_latchOpen (u : Uart) (c : UInt8) : (u.put c).latchOpen = u.latchOpen := by
  rw [Uart.put]
  split_ifs <;> rfl

def Uart.write (text : List UInt8) (u : Uart) : Uart := text.foldl (fun u c => u.put c) u

theorem Uart.write_closed (text : List UInt8) {u : Uart} (h : u.latchOpen = false) :
    (u.write text).sent = u.sent ++ text ∧ (u.write text).divisorLow = u.divisorLow := by
  induction text generalizing u with
  | nil => simp [Uart.write]
  | cons c text ih =>
    have hput : u.put c = { u with busy := u.delays u.sent.length, sent := u.sent ++ [c] } := by
      rw [Uart.put, if_neg (by simp [h])]
    obtain ⟨hsent, hdivisor⟩ := ih (u := u.put c) (by rw [Uart.put_latchOpen, h])
    rw [hput] at hsent hdivisor
    rw [Uart.write, List.foldl_cons, hput]
    exact ⟨hsent.trans (by simp), hdivisor⟩

theorem Uart.write_open (text : List UInt8) {u : Uart} (h : u.latchOpen = true) :
    (u.write text).sent = u.sent ∧ (u.write text).divisorLow = text.getLastD u.divisorLow := by
  induction text generalizing u with
  | nil => simp [Uart.write]
  | cons c text ih =>
    have hput : u.put c = { u with busy := 0, divisorLow := c } := by rw [Uart.put, if_pos h]
    obtain ⟨hsent, hdivisor⟩ := ih (u := u.put c) (by rw [Uart.put_latchOpen, h])
    rw [hput] at hsent hdivisor
    rw [Uart.write, List.foldl_cons, hput, List.getLastD_cons]
    exact ⟨hsent, hdivisor⟩

variable {fb font}

def State.put (fb : Framebuffer) (font : Font) (s : State) (c : UInt8) : State :=
  ⟨graphicsPutchar fb font c 0xFFFFFF 0x000000 s.screen, s.uart.put c⟩

theorem kputchar_eq {fuel : ℕ} {s : State} (h : s.uart.busy < fuel) (c : UInt8) :
    kputchar fb font fuel c s = some (s.put fb font c) := by
  rw [kputchar, serialWriteChar_eq h]
  rfl

variable (fb font) in
theorem kputs_eq (text : List UInt8) (s : State) :
    ∃ n, ∀ fuel ≥ n, kputs fb font fuel text s = some (text.foldl (State.put fb font) s) := by
  induction text generalizing s with
  | nil => exact ⟨0, fun _ _ => rfl⟩
  | cons c text ih =>
    obtain ⟨n, hn⟩ := ih (s.put fb font c)
    refine ⟨max n (s.uart.busy + 1), fun fuel hfuel => ?_⟩
    rw [kputs, kputchar_eq (by omega)]
    exact hn fuel (by omega)

variable (fb font) in
theorem log_eq {calls : List LogCall} {texts : List (List UInt8)}
    (htexts : calls.mapM LogCall.text = some texts) (s : State) :
    ∃ n, ∀ fuel ≥ n,
      log fb font fuel calls s = some (texts.flatten.foldl (State.put fb font) s) := by
  induction calls generalizing texts s with
  | nil =>
    obtain rfl : texts = [] := by simpa using htexts.symm
    exact ⟨0, fun _ _ => rfl⟩
  | cons call calls ih =>
    rw [List.mapM_cons] at htexts
    obtain ⟨text, htext, htail⟩ := Option.bind_eq_some_iff.mp htexts
    obtain ⟨rest, hrest, hcons⟩ := Option.bind_eq_some_iff.mp htail
    obtain rfl := Option.some.inj hcons
    obtain ⟨n, hn⟩ := kputs_eq fb font text s
    obtain ⟨k, hk⟩ := ih hrest (text.foldl (State.put fb font) s)
    refine ⟨max n k, fun fuel hfuel => ?_⟩
    rw [log, htext, Option.bind_some, hn fuel (by omega), Option.bind_some, hk fuel (by omega),
      List.flatten_cons, List.foldl_append]

def Terminal.write (fb : Framebuffer) (text : List UInt8) (t : Terminal) : Terminal :=
  text.foldl (fun t c => t.put fb.cols fb.rows ⟨c, 0xFFFFFF, 0x000000⟩) t

theorem shows_text (hfits : fb.Fits) {back : UInt32} (text : List UInt8) {t : Terminal}
    {s : State} (h : Shows fb font back t s.screen) :
    Shows fb font back (t.write fb text) (text.foldl (State.put fb font) s).screen := by
  induction text generalizing t s with
  | nil => exact h
  | cons c text ih => exact ih (s := s.put fb font c) (h.putchar hfits c 0xFFFFFF 0x000000)

theorem uart_text (text : List UInt8) (s : State) :
    (text.foldl (State.put fb font) s).uart = s.uart.write text := by
  induction text generalizing s with
  | nil => rfl
  | cons c text ih => exact ih _

theorem outside_text (hfits : fb.Fits) (text : List UInt8) (s : State) {a : ℕ}
    (ha : ¬ fb.Visible a) : (text.foldl (State.put fb font) s).screen.mem a = s.screen.mem a := by
  induction text generalizing s with
  | nil => rfl
  | cons c text ih =>
    exact (ih _).trans (graphicsPutchar_outside hfits c 0xFFFFFF 0x000000 s.screen ha)

/-- After the set-up of the screen, any calls of `printk` and `klog` whose output C defines
come to an end. The picture is then that of a terminal on which all their characters were
written, and no byte beside the picture has changed. The serial line has sent the same
characters in the same order if the divisor latch was closed; if it was open, nothing was
sent and the last character stands in the divisor. -/
theorem log_shown (hfits : fb.Fits) (font : Font) (s : State) (calls : List LogCall)
    {texts : List (List UInt8)} (htexts : calls.mapM LogCall.text = some texts) :
    ∃ n, ∀ fuel ≥ n, ∃ s', log fb font fuel calls ⟨bootScreen fb s.screen, s.uart⟩ = some s' ∧
      Shows fb font 0x000000 (Terminal.empty.write fb texts.flatten) s'.screen ∧
      (s.uart.latchOpen = false → s'.uart.sent = s.uart.sent ++ texts.flatten ∧
        s'.uart.divisorLow = s.uart.divisorLow) ∧
      (s.uart.latchOpen = true → s'.uart.sent = s.uart.sent ∧
        s'.uart.divisorLow = texts.flatten.getLastD s.uart.divisorLow) ∧
      ∀ a, ¬ fb.Visible a → s'.screen.mem a = s.screen.mem a := by
  obtain ⟨n, hn⟩ := log_eq fb font htexts ⟨bootScreen fb s.screen, s.uart⟩
  refine ⟨n, fun fuel hfuel => ⟨_, hn fuel hfuel, ?_, ?_, ?_, ?_⟩⟩
  · exact shows_text hfits texts.flatten (shows_cleared hfits font 0x000000 s.screen.mem)
  · rw [uart_text]
    exact Uart.write_closed texts.flatten
  · rw [uart_text]
    exact Uart.write_open texts.flatten
  · intro a ha
    rw [outside_text hfits _ _ ha]
    change fbClear fb 0x000000 s.screen.mem a = _
    rw [fbClear_eq_blit, blit_outside hfits _ _ _ _ _ _ ha]

def smallFrame : Framebuffer := fbInit 0x1000 16 32 64

theorem smallFrame_fits : smallFrame.Fits := ⟨by decide, by decide, by decide, by decide⟩

def coldUart : Uart := ⟨0x80, 0, 0, 0, 1, 2, 5, fun n => n, []⟩

theorem log_shown_small : ∃ fuel s₁ s₂,
    log smallFrame (fun _ _ => 0xAA) fuel [.klog 0 [72, 105] [], .printk [33] []]
      ⟨bootScreen smallFrame ⟨7, 9, fun _ => 0xCC⟩, coldUart⟩ = some s₁ ∧
    log smallFrame (fun _ _ => 0xAA) fuel [.klog 0 [72, 105] [], .printk [33] []]
      ⟨bootScreen smallFrame ⟨7, 9, fun _ => 0xCC⟩, serialInit coldUart⟩ = some s₂ ∧
    s₁.uart.sent = [] ∧ s₁.uart.divisorLow = 33 ∧ s₁.screen.mem 0x1840 = 0xCC ∧
    s₂.uart.sent = [91, 73, 78, 70, 79, 93, 32, 72, 105, 10, 33] ∧ s₂.uart.divisorLow = 3 := by
  have htexts : [LogCall.klog 0 [72, 105] [], .printk [33] []].mapM LogCall.text =
      some [[91, 73, 78, 70, 79, 93, 32, 72, 105, 10], [33]] := rfl
  obtain ⟨n, hn⟩ := log_shown smallFrame_fits (fun _ _ => 0xAA)
    ⟨⟨7, 9, fun _ => 0xCC⟩, coldUart⟩ _ htexts
  obtain ⟨k, hk⟩ := log_shown smallFrame_fits (fun _ _ => 0xAA)
    ⟨⟨7, 9, fun _ => 0xCC⟩, serialInit coldUart⟩ _ htexts
  obtain ⟨s₁, hlog₁, -, -, hopen, houtside⟩ := hn (max n k) (le_max_left n k)
  obtain ⟨s₂, hlog₂, -, hclosed, -, -⟩ := hk (max n k) (le_max_right n k)
  obtain ⟨hlatch, hsent, hdivisor, -⟩ := serialInit_closed coldUart
  refine ⟨_, s₁, s₂, hlog₁, hlog₂, (hopen rfl).1, (hopen rfl).2, houtside _ ?_, ?_, ?_⟩
  · rintro ⟨x, y, hx, hy, hle, hlt⟩
    simp [smallFrame, fbInit, Framebuffer.pixelAddr] at hx hy hle hlt
    omega
  · rw [(hclosed hlatch).1, hsent]
    rfl
  · rw [(hclosed hlatch).2, hdivisor]

end XldKernel.Console
