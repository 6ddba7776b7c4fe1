import XldKernel.ByteMemory

/-!
# The interrupt controllers

Source: `kernel/src/pic.c`. The driver is run against a model of the two 8259 chips: their
set-up words, their masks, the lines that ask for service and those in service. Line 2 of
the first chip is where the second one is attached. The processor may acknowledge an
interrupt at any time; a chip that has none to give answers with its line 7, which is not
in service then. A handler that runs may be interrupted by a more urgent line, and ends
with `pic_send_eoi` of its own line.
-/

namespace XldKernel.Pic
open ByteMemory

inductive Setup where
  | ready
  | icw2 (cascade icw4 : Bool)
  | icw3 (icw4 : Bool)
  | icw4
  deriving DecidableEq

structure Chip where
  requested : Fin 8 → Bool
  inService : Fin 8 → Bool
  mask : UInt8
  offset : UInt8
  setup : Setup

namespace Chip

def eoi (c : Chip) : Chip :=
  match Fin.find? c.inService with
  | some i => { c with inService := Function.update c.inService i false }
  | none => c

def command (v : UInt8) (c : Chip) : Chip :=
  if v &&& 0x10 ≠ 0 then
    { c with
      requested := fun _ => false
      inService := fun _ => false
      mask := 0
      setup := .icw2 (v &&& 0x02 = 0) (v &&& 0x01 ≠ 0) }
  else if v &&& 0x08 ≠ 0 then c
  else if v &&& 0xE0 = 0x20 then c.eoi
  else if v &&& 0xE0 = 0x60 then
    { c with inService := Function.update c.inService (Fin.ofNat 8 v.toNat) false }
  else c

def data (v : UInt8) (c : Chip) : Chip :=
  match c.setup with
  | .ready => { c with mask := v }
  | .icw2 cascade icw4 =>
    { c with
      offset := v &&& 0xF8
      setup := if cascade then .icw3 icw4 else if icw4 then .icw4 else .ready }
  | .icw3 icw4 => { c with setup := if icw4 then .icw4 else .ready }
  | .icw4 => { c with setup := .ready }

def wants (c : Chip) (i : Fin 8) : Bool := c.requested i && !getBit c.mask i

def next (c : Chip) : Option (Fin 8) :=
  if c.setup = .ready then
    (Fin.find? fun i => c.inService i || c.wants i).bind fun i =>
      if c.inService i then none else some i
  else none

def serve (i : Fin 8) (c : Chip) : Chip :=
  { c with
    inService := Function.update c.inService i true
    requested := Function.update c.requested i false }

end Chip

structure Pics where
  master : Chip
  slave : Chip

def low (n : Fin 16) : Fin 8 := Fin.ofNat 8 n

abbrev keyboardLine : Fin 16 := 1

namespace Pics

def outb (port : UInt16) (v : UInt8) (p : Pics) : Pics :=
  if port = 0x20 then { p with master := p.master.command v }
  else if port = 0x21 then { p with master := p.master.data v }
  else if port = 0xA0 then { p with slave := p.slave.command v }
  else if port = 0xA1 then { p with slave := p.slave.data v }
  else p

def inb (port : UInt16) (p : Pics) : UInt8 :=
  if port = 0x21 then p.master.mask else if port = 0xA1 then p.slave.mask else 0xFF

def cascaded (p : Pics) : Chip :=
  { p.master with requested := Function.update p.master.requested 2 p.slave.next.isSome }

/-- What the processor gets when it acknowledges an interrupt. Without a request it is line 7,
and no line is in service. With `lapsed` the request of the second chip has gone when this
chip is asked for its vector. -/
def inta (lapsed : Bool) (p : Pics) : UInt8 × Pics :=
  match p.cascaded.next with
  | none => (p.master.offset + 7, p)
  | some i =>
    if i = 2 then
      match (if lapsed then none else p.slave.next) with
      | none => (p.slave.offset + 7, { p with master := p.master.serve 2 })
      | some j =>
        (p.slave.offset + UInt8.ofNat j, { master := p.master.serve 2, slave := p.slave.serve j })
    else (p.master.offset + UInt8.ofNat i, { p with master := p.master.serve i })

def request (on : Bool) (n : Fin 16) (p : Pics) : Pics :=
  if n = 2 then p
  else if n.val < 8 then
    { p with master := { p.master with
      requested := Function.update p.master.requested (low n) on } }
  else
    { p with slave := { p.slave with
      requested := Function.update p.slave.requested (low n) on } }

end Pics

def ioWait (p : Pics) : Pics := p.outb 0x80 0

def picRemap (p : Pics) : Pics :=
  let p := ioWait (p.outb 0x20 0x11)
  let p := ioWait (p.outb 0xA0 0x11)
  let p := ioWait (p.outb 0x21 0x20)
  let p := ioWait (p.outb 0xA1 0x28)
  let p := ioWait (p.outb 0x21 0x04)
  let p := ioWait (p.outb 0xA1 0x02)
  let p := ioWait (p.outb 0x21 0x01)
  let p := ioWait (p.outb 0xA1 0x01)
  let p := p.outb 0x21 0xFF
  p.outb 0xA1 0xFF

def picDisable (p : Pics) : Pics := (p.outb 0xA1 0xFF).outb 0x21 0xFF

def picSendEoi (irq : UInt8) (p : Pics) : Pics :=
  let p := if 8 ≤ irq then p.outb 0xA0 0x20 else p
  p.outb 0x20 0x20

def maskPort (irq : UInt8) : UInt16 × UInt8 := if irq < 8 then (0x21, irq) else (0xA1, irq - 8)

def enableIrq (irq : UInt8) (p : Pics) : Pics :=
  let (port, irq) := maskPort irq
  p.outb port (p.inb port &&& (~~~((1 : UInt32) <<< irq.toUInt32)).toUInt8)

def disableIrq (irq : UInt8) (p : Pics) : Pics :=
  let (port, irq) := maskPort irq
  p.outb port (p.inb port ||| ((1 : UInt32) <<< irq.toUInt32).toUInt8)

/-- `handlers` are the vectors of the handlers under way, the innermost one first, each with
whether a line is in service for it. -/
structure State where
  pics : Pics
  handlers : List (UInt8 × Bool)

inductive Event where
  | enable (n : Fin 16)
  | disable (n : Fin 16)
  | disableAll
  | request (on : Bool) (n : Fin 16)
  | acknowledge (lapsed : Bool)
  | finish
  deriving DecidableEq

/-- A handler for which no line is in service sends no end of interrupt. -/
def step (s : State) : Event → State
  | .enable n => { s with pics := enableIrq (UInt8.ofNat n) s.pics }
  | .disable n => { s with pics := disableIrq (UInt8.ofNat n) s.pics }
  | .disableAll => { s with pics := picDisable s.pics }
  | .request on n => { s with pics := s.pics.request on n }
  | .acknowledge lapsed =>
    let r := s.pics.inta lapsed
    ⟨r.2, (r.1, s.pics.cascaded.next.isSome) :: s.handlers⟩
  | .finish =>
    match s.handlers with
    | [] => s
    | (v, served) :: hs => ⟨if served then picSendEoi (v - 0x20) s.pics else s.pics, hs⟩

def run (events : List Event) (p : Pics) : State := events.foldl step ⟨picRemap p, []⟩

def Event.enabled (on : Fin 16 → Bool) : Event → Fin 16 → Bool
  | .enable n => Function.update on n true
  | .disable n => Function.update on n false
  | .disableAll => fun _ => false
  | _ => on

def enabled (events : List Event) : Fin 16 → Bool := events.foldl Event.enabled fun _ => false

def line (n : Fin 16) : Fin 8 := if n.val < 8 then low n else 2

def vector (n : Fin 16) : UInt8 := 0x20 + UInt8.ofNat n

def Pics.requests (p : Pics) (n : Fin 16) : Bool :=
  if n.val < 8 then p.master.requested (low n) else p.slave.requested (low n)

def Pics.serves (p : Pics) (n : Fin 16) : Bool :=
  if n.val < 8 then p.master.inService (low n) else p.slave.inService (low n)

structure Due (on : Fin 16 → Bool) (p : Pics) (busy : List (Fin 8)) (n : Fin 16) : Prop where
  device : n ≠ 2
  requests : p.requests n = true
  enabled : on n = true
  cascade : 8 ≤ n.val → on 2 = true
  urgent : ∀ i ∈ busy, line n < i

/-- What a handler was started for: a line, or an interrupt that the first or the second
chip could not account for. -/
inductive Taken where
  | line (n : Fin 16)
  | spurious (second : Bool)

namespace Taken

def vector : Taken → UInt8
  | .line n => Pic.vector n
  | .spurious second => if second then 0x2F else 0x27

def place : Taken → Option (Fin 8)
  | .line n => some (Pic.line n)
  | .spurious second => if second then some 2 else none

def entry (t : Taken) : UInt8 × Bool := (t.vector, t.place.isSome)

end Taken

def places (stack : List Taken) : List (Fin 8) := stack.filterMap Taken.place

def Answers (on : Fin 16 → Bool) (p : Pics) (busy : List (Fin 8)) (lapsed : Bool) : Taken → Prop
  | .line n => Due on p busy n ∧
    ∀ k, Due on p busy k → line n < line k ∨ line n = line k ∧ n ≤ k
  | .spurious false => ∀ k, ¬ Due on p busy k
  | .spurious true =>
    lapsed = true ∧ (∃ k, 8 ≤ k.val ∧ Due on p busy k) ∧ ∀ k, Due on p busy k → 2 ≤ line k

namespace Chip
variable {c : Chip} {i : Fin 8}

theorem next_eq_some (hready : c.setup = .ready) :
    c.next = some i ↔ c.wants i = true ∧ c.inService i = false ∧
      ∀ j < i, c.inService j = false ∧ c.wants j = false := by
  rw [next, if_pos hready, Option.bind_eq_some_iff]
  constructor
  · rintro ⟨k, hfind, hk⟩
    obtain ⟨hp, hbelow⟩ := Fin.find?_eq_some_iff.mp hfind
    by_cases hs : c.inService k = true
    · simp [hs] at hk
    · simp only [hs] at hk hp
      obtain rfl : k = i := by simpa using hk
      refine ⟨by simpa using hp, by simpa using hs, fun j hj => ?_⟩
      simpa using hbelow j hj
  · rintro ⟨hw, hs, hbelow⟩
    refine ⟨i, Fin.find?_eq_some_iff.mpr ⟨by simp [hw], fun j hj => ?_⟩, by simp [hs]⟩
    simp [hbelow j hj]

theorem next_isSome (hready : c.setup = .ready) (hw : c.wants i = true)
    (hs : ∀ j ≤ i, c.inService j = false) : ∃ k, c.next = some k := by
  obtain ⟨k, hfind⟩ : ∃ k, Fin.find? (fun i => c.inService i || c.wants i) = some k := by
    rw [← Option.isSome_iff_exists, Fin.isSome_find?_iff]
    exact ⟨i, by simp [hw]⟩
  have hk : k ≤ i := by
    by_contra hlt
    have := (Fin.find?_eq_some_iff.mp hfind).2 i (by omega)
    simp [hw] at this
  refine ⟨k, ?_⟩
  rw [next, if_pos hready, hfind, Option.bind_some, hs k hk]
  rfl

theorem eoi_inService (hi : c.inService i = true) (hbelow : ∀ j < i, c.inService j = false) :
    c.eoi = { c with inService := Function.update c.inService i false } := by
  have hfind : Fin.find? c.inService = some i := Fin.find?_eq_some_iff.mpr ⟨hi, hbelow⟩
  rw [eoi, hfind]

theorem eoi_single (h : ∀ j k, c.inService j = true → c.inService k = true → j = k) :
    c.eoi = { c with inService := fun _ => false } := by
  cases hfind : Fin.find? c.inService with
  | none =>
    have hnone : c.inService = fun _ => false := funext (by simpa using hfind)
    rw [eoi, hfind, ← hnone]
  | some i =>
    have hi := (Fin.find?_eq_some_iff.mp hfind).1
    have hone : Function.update c.inService i false = fun _ => false := by
      funext j
      by_cases hj : j = i
      · rw [hj, Function.update_self]
      · rw [Function.update_of_ne hj]
        exact Bool.eq_false_iff.mpr fun hserved => hj (h j i hserved hi)
    rw [eoi, hfind, ← hone]

end Chip

theorem low_val (n : Fin 16) : (low n).val = n.val % 8 := rfl

theorem line_of_lt {n : Fin 16} (h : n.val < 8) : line n = low n := if_pos h

theorem line_le (n : Fin 16) : (line n).val ≤ n.val := by
  revert n
  decide

theorem low_ne_two : ∀ {n : Fin 16}, n.val < 8 → n ≠ 2 → low n ≠ 2 := by
  decide

theorem ge_of_line_two : ∀ {n : Fin 16}, n ≠ 2 → line n = 2 → 8 ≤ n.val := by
  decide

theorem line_of_ge {n : Fin 16} (h : 8 ≤ n.val) : line n = 2 := if_neg (by omega)

def Pics.masked (p : Pics) (n : Fin 16) : Bool :=
  if n.val < 8 then getBit p.master.mask (low n) else getBit p.slave.mask (low n)

structure Nested (on : Fin 16 → Bool) (s : State) (stack : List Taken) : Prop where
  handlers : s.handlers = stack.map Taken.entry
  device : .line 2 ∉ stack
  sorted : (places stack).Pairwise (· < ·)
  setup : s.pics.master.setup = .ready ∧ s.pics.slave.setup = .ready
  offset : s.pics.master.offset = 0x20 ∧ s.pics.slave.offset = 0x28
  masked : ∀ n, s.pics.masked n = !on n
  master : ∀ i, s.pics.master.inService i = true ↔ i ∈ places stack
  slave : ∀ j, s.pics.slave.inService j = true ↔ ∃ n, .line n ∈ stack ∧ 8 ≤ n.val ∧ low n = j

theorem picRemap_eq (p : Pics) : picRemap p =
    ⟨⟨fun _ => false, fun _ => false, 0xFF, 0x20, .ready⟩,
      ⟨fun _ => false, fun _ => false, 0xFF, 0x28, .ready⟩⟩ :=
  rfl

theorem nested_start (p : Pics) : Nested (fun _ => false) ⟨picRemap p, []⟩ [] := by
  rw [picRemap_eq]
  refine ⟨rfl, by simp, List.Pairwise.nil, ⟨rfl, rfl⟩, ⟨rfl, rfl⟩, ?_, by simp [places], by simp⟩
  intro n
  simp [Pics.masked, getBit_full (low n).isLt]

theorem outb_master {p : Pics} (h : p.master.setup = .ready) (v : UInt8) :
    p.outb 0x21 v = { p with master := { p.master with mask := v } } := by
  simp [Pics.outb, Chip.data, h]

theorem outb_slave {p : Pics} (h : p.slave.setup = .ready) (v : UInt8) :
    p.outb 0xA1 v = { p with slave := { p.slave with mask := v } } := by
  simp [Pics.outb, Chip.data, h]

theorem maskPort_line : ∀ n : Fin 16, maskPort (UInt8.ofNat n) =
    if n.val < 8 then (0x21, UInt8.ofNat (low n)) else (0xA1, UInt8.ofNat (low n)) := by
  decide

theorem clear_mask (x : UInt8) (i : Fin 8) :
    x &&& (~~~((1 : UInt32) <<< (UInt8.ofNat i).toUInt32)).toUInt8 = clearBit x i := by
  have hall : ∀ i : Fin 8, (~~~((1 : UInt32) <<< (UInt8.ofNat i).toUInt32)).toUInt8 =
      ~~~((1 : UInt8) <<< UInt8.ofNat i) := by decide
  rw [hall, clearBit]

theorem set_mask (x : UInt8) (i : Fin 8) :
    x ||| ((1 : UInt32) <<< (UInt8.ofNat i).toUInt32).toUInt8 = setBit x i := by
  have hall : ∀ i : Fin 8, ((1 : UInt32) <<< (UInt8.ofNat i).toUInt32).toUInt8 =
      (1 : UInt8) <<< UInt8.ofNat i := by
    decide
  rw [hall, setBit]

def Pics.remask (p : Pics) (master slave : UInt8) : Pics :=
  ⟨{ p.master with mask := master }, { p.slave with mask := slave }⟩

def Pics.remaskAt (f : UInt8 → ℕ → UInt8) (n : Fin 16) (p : Pics) : Pics :=
  if n.val < 8 then p.remask (f p.master.mask (low n)) p.slave.mask
  else p.remask p.master.mask (f p.slave.mask (low n))

section Masks
variable {p : Pics} (hm : p.master.setup = .ready) (hs : p.slave.setup = .ready)
include hm hs

theorem enableIrq_remask (n : Fin 16) : enableIrq (UInt8.ofNat n) p = p.remaskAt clearBit n := by
  rw [enableIrq, maskPort_line, Pics.remaskAt]
  split_ifs with hn
  · simp only [clear_mask, outb_master hm]
    rfl
  · simp only [clear_mask, outb_slave hs]
    rfl

theorem disableIrq_remask (n : Fin 16) : disableIrq (UInt8.ofNat n) p = p.remaskAt setBit n := by
  rw [disableIrq, maskPort_line, Pics.remaskAt]
  split_ifs with hn
  · simp only [set_mask, outb_master hm]
    rfl
  · simp only [set_mask, outb_slave hs]
    rfl

theorem picDisable_remask : picDisable p = p.remask 0xFF 0xFF := by
  have hmaster : (p.outb 0xA1 0xFF).master.setup = .ready := by rw [outb_slave hs, hm]
  rw [picDisable, outb_master hmaster, outb_slave hs]
  rfl

end Masks

namespace Nested
variable {on on' : Fin 16 → Bool} {s : State} {stack : List Taken}

theorem remask (h : Nested on s stack) {master slave : UInt8}
    (hm : ∀ n, (s.pics.remask master slave).masked n = !on' n) :
    Nested on' { s with pics := s.pics.remask master slave } stack :=
  ⟨h.handlers, h.device, h.sorted, h.setup, h.offset, hm, h.master, h.slave⟩

theorem low_eq_iff {n k : Fin 16} (h : k.val < 8 ↔ n.val < 8) : low k = low n ↔ k = n := by
  rw [Fin.ext_iff, Fin.ext_iff, low_val, low_val]
  omega

theorem remaskAt {f : UInt8 → ℕ → UInt8} {b : Bool}
    (hf : ∀ (x : UInt8) (k j : Fin 8), getBit (f x k) j = if j = k then !b else getBit x j)
    (h : Nested on s stack) (n : Fin 16) :
    Nested (Function.update on n b) { s with pics := s.pics.remaskAt f n } stack := by
  have hmasked := h.masked
  simp only [Pics.masked] at hmasked
  rw [Pics.remaskAt]
  split_ifs with hn
  · apply h.remask
    intro k
    rw [Function.update_apply, apply_ite not, ← hmasked k, Pics.masked]
    by_cases hk : k.val < 8
    · simp only [Pics.remask, hk, if_true, hf, low_eq_iff (show k.val < 8 ↔ n.val < 8 by omega)]
    · have hne : k ≠ n := fun heq => hk (heq ▸ hn)
      simp only [Pics.remask, hk, if_false, if_neg hne]
  · apply h.remask
    intro k
    rw [Function.update_apply, apply_ite not, ← hmasked k, Pics.masked]
    by_cases hk : k.val < 8
    · have hne : k ≠ n := fun heq => hn (heq ▸ hk)
      simp only [Pics.remask, hk, if_true, if_neg hne]
    · simp only [Pics.remask, hk, if_false, hf, low_eq_iff (show k.val < 8 ↔ n.val < 8 by omega)]

theorem clearBit_bit (x : UInt8) (k j : Fin 8) :
    getBit (clearBit x k) j = if j = k then !true else getBit x j := by
  rw [getBit_clearBit x k.isLt j.isLt]
  split_ifs with h
  · simp [h]
  · simp [Fin.val_inj, h]

theorem setBit_bit (x : UInt8) (k j : Fin 8) :
    getBit (setBit x k) j = if j = k then !false else getBit x j := by
  rw [getBit_setBit x k.isLt j.isLt]
  split_ifs with h
  · simp [h]
  · simp [Fin.val_inj, h]

theorem enable (h : Nested on s stack) (n : Fin 16) :
    Nested (Function.update on n true) { s with pics := enableIrq (UInt8.ofNat n) s.pics }
      stack := by
  rw [enableIrq_remask h.setup.1 h.setup.2]
  exact remaskAt clearBit_bit h n

theorem disable (h : Nested on s stack) (n : Fin 16) :
    Nested (Function.update on n false) { s with pics := disableIrq (UInt8.ofNat n) s.pics }
      stack := by
  rw [disableIrq_remask h.setup.1 h.setup.2]
  exact remaskAt setBit_bit h n

theorem disableAll (h : Nested on s stack) :
    Nested (fun _ => false) { s with pics := picDisable s.pics } stack := by
  rw [picDisable_remask h.setup.1 h.setup.2]
  apply h.remask
  intro n
  simp [Pics.masked, Pics.remask, getBit_full (low n).isLt]

theorem request (h : Nested on s stack) (b : Bool) (n : Fin 16) :
    Nested on { s with pics := s.pics.request b n } stack := by
  rw [Pics.request]
  split_ifs
  · exact h
  · exact ⟨h.handlers, h.device, h.sorted, h.setup, h.offset, h.masked, h.master, h.slave⟩
  · exact ⟨h.handlers, h.device, h.sorted, h.setup, h.offset, h.masked, h.master, h.slave⟩

end Nested

def upper (j : Fin 8) : Fin 16 := ⟨8 + j, by omega⟩

theorem low_upper (j : Fin 8) : low (upper j) = j := by
  rw [Fin.ext_iff, low_val]
  change (8 + j.val) % 8 = j.val
  omega

theorem low_castLE (i : Fin 8) : low (i.castLE (by omega)) = i := by
  rw [Fin.ext_iff, low_val]
  change i.val % 8 = i.val
  omega

theorem slave_vector : ∀ j : Fin 8, (0x28 : UInt8) + UInt8.ofNat j = vector (upper j) := by decide

namespace Nested
variable {on : Fin 16 → Bool} {s : State} {stack : List Taken} {n : Fin 16}

theorem urgent (h : Nested on s stack) {i : Fin 8}
    (hi : ∀ j ≤ i, s.pics.master.inService j = false) (k : Fin 8) (hk : k ∈ places stack) :
    i < k := by
  by_contra hle
  have hserved := (h.master k).mpr hk
  rw [hi _ (by omega)] at hserved
  exact Bool.false_ne_true hserved

theorem slave_place (h : Nested on s stack) {j : Fin 8} (hj : s.pics.slave.inService j = true) :
    2 ∈ places stack := by
  obtain ⟨k, hk, hge, -⟩ := (h.slave j).mp hj
  exact List.mem_filterMap.mpr ⟨.line k, hk, by rw [Taken.place, line_of_ge hge]⟩

theorem due_wants (h : Nested on s stack) (hdue : Due on s.pics (places stack) n) :
    s.pics.cascaded.wants (line n) = true := by
  have hmask := h.masked n
  have hreq := hdue.requests
  rw [hdue.enabled, Bool.not_true] at hmask
  by_cases hn : n.val < 8
  · have h2 : low n ≠ 2 := low_ne_two hn hdue.device
    rw [Pics.requests, if_pos hn] at hreq
    rw [Pics.masked, if_pos hn] at hmask
    rw [line_of_lt hn, Chip.wants, Pics.cascaded]
    simp [h2, hreq, hmask]
  · have hmask2 := h.masked 2
    rw [hdue.cascade (by omega), Pics.masked, if_pos (by decide)] at hmask2
    rw [Pics.requests, if_neg hn] at hreq
    rw [Pics.masked, if_neg hn] at hmask
    have hslave : ∀ j, s.pics.slave.inService j = false := by
      intro j
      by_contra hserved
      have hlt := hdue.urgent 2 (h.slave_place (Bool.of_not_eq_false hserved))
      rw [line_of_ge (by omega)] at hlt
      exact lt_irrefl _ hlt
    obtain ⟨j, hnext⟩ := Chip.next_isSome (c := s.pics.slave) (i := low n) h.setup.2
      (by simp [Chip.wants, hreq, hmask]) fun j _ => hslave j
    rw [line_of_ge (by omega), Chip.wants, Pics.cascaded]
    simpa [hnext, show low 2 = 2 from rfl] using hmask2

theorem slave_first (h : Nested on s stack) {j : Fin 8} (hj : s.pics.slave.next = some j)
    (hdue : Due on s.pics (places stack) n) (hge : 8 ≤ n.val) : upper j ≤ n := by
  obtain ⟨-, -, hbelow⟩ := (Chip.next_eq_some h.setup.2).mp hj
  by_contra hlt
  have hlow : low n < j := by
    rw [Fin.lt_def, low_val]
    have hval : ¬ 8 + j.val ≤ n.val := hlt
    omega
  have hn : ¬ n.val < 8 := by omega
  have hmask := h.masked n
  have hreq := hdue.requests
  have hnone := (hbelow (low n) hlow).2
  rw [hdue.enabled, Bool.not_true, Pics.masked, if_neg hn] at hmask
  rw [Pics.requests, if_neg hn] at hreq
  simp [Chip.wants, hreq, hmask] at hnone

section Next
variable (h : Nested on s stack) {i : Fin 8} (hnext : s.pics.cascaded.next = some i)
include h hnext

theorem next_free (j : Fin 8) (hj : j ≤ i) : s.pics.master.inService j = false := by
  obtain ⟨-, hfree, hbelow⟩ := (Chip.next_eq_some (show s.pics.cascaded.setup = .ready from
    h.setup.1)).mp hnext
  rcases eq_or_lt_of_le hj with rfl | hlt
  · exact hfree
  · exact (hbelow j hlt).1

theorem next_first (k : Fin 16) (hk : Due on s.pics (places stack) k) : i ≤ line k := by
  obtain ⟨-, -, hbelow⟩ := (Chip.next_eq_some (show s.pics.cascaded.setup = .ready from
    h.setup.1)).mp hnext
  by_contra hlt
  have hnone := (hbelow (line k) (by omega)).2
  rw [h.due_wants hk] at hnone
  exact Bool.false_ne_true hnone.symm

theorem next_wants : s.pics.cascaded.requested i = true ∧ getBit s.pics.master.mask i = false := by
  obtain ⟨hwants, -, -⟩ := (Chip.next_eq_some (show s.pics.cascaded.setup = .ready from
    h.setup.1)).mp hnext
  simpa [Chip.wants, Pics.cascaded] using hwants

theorem next_due (h2 : i ≠ 2) : Due on s.pics (places stack) (i.castLE (by omega)) := by
  obtain ⟨hreq, hmask⟩ := h.next_wants hnext
  have hlt : (i.castLE (by omega) : Fin 16).val < 8 := i.isLt
  have hon := h.masked (i.castLE (by omega))
  rw [Pics.masked, if_pos hlt, low_castLE, hmask] at hon
  simp only [Pics.cascaded, Function.update_of_ne h2] at hreq
  refine ⟨fun heq => h2 (Fin.ext (show i.val = 2 from congrArg Fin.val heq)), ?_,
    by simpa using hon.symm, fun hge => by omega, ?_⟩
  · rw [Pics.requests, if_pos hlt, low_castLE, hreq]
  · rw [line_of_lt hlt, low_castLE]
    exact h.urgent (h.next_free hnext)

theorem next_slave (h2 : i = 2) :
    ∃ j, s.pics.slave.next = some j ∧ Due on s.pics (places stack) (upper j) := by
  obtain ⟨hreq, hmask⟩ := h.next_wants hnext
  simp only [h2, Pics.cascaded, Function.update_self] at hreq
  obtain ⟨j, hj⟩ := Option.isSome_iff_exists.mp hreq
  obtain ⟨hwants, -, -⟩ := (Chip.next_eq_some h.setup.2).mp hj
  simp only [Chip.wants, Bool.and_eq_true, Bool.not_eq_true'] at hwants
  have hge : ¬ (upper j).val < 8 := by
    change ¬ 8 + j.val < 8
    omega
  have hon := h.masked (upper j)
  have hon2 := h.masked 2
  rw [Pics.masked, if_neg hge, low_upper, hwants.2] at hon
  rw [Pics.masked, if_pos (by decide), show low 2 = i from h2.symm, hmask] at hon2
  refine ⟨j, hj, ?_, ?_, by simpa using hon.symm, fun _ => by simpa using hon2.symm, ?_⟩
  · intro heq
    rw [heq] at hge
    exact hge (by decide)
  · rw [Pics.requests, if_neg hge, low_upper, hwants.1]
  · rw [line_of_ge (by omega), ← h2]
    exact h.urgent (h.next_free hnext)

end Next

theorem next_isSome (h : Nested on s stack) (hdue : Due on s.pics (places stack) n) :
    ∃ i, s.pics.cascaded.next = some i := by
  refine Chip.next_isSome (i := line n) h.setup.1 (h.due_wants hdue) fun j hj => ?_
  by_contra hserved
  have := hdue.urgent j ((h.master j).mp (Bool.of_not_eq_false hserved))
  omega

theorem push (h : Nested on s stack) {t : Taken} {p : Pics} (ht : t ≠ .line 2)
    (hplace : ∀ i, t.place = some i → ∀ k ∈ places stack, i < k)
    (hkeep : p.master.setup = s.pics.master.setup ∧ p.slave.setup = s.pics.slave.setup ∧
      p.master.offset = s.pics.master.offset ∧ p.slave.offset = s.pics.slave.offset ∧
      p.master.mask = s.pics.master.mask ∧ p.slave.mask = s.pics.slave.mask)
    (hmaster : ∀ i, p.master.inService i = true ↔
      t.place = some i ∨ s.pics.master.inService i = true)
    (hslave : ∀ j, p.slave.inService j = true ↔
      (∃ n, t = .line n ∧ 8 ≤ n.val ∧ low n = j) ∨ s.pics.slave.inService j = true) :
    Nested on ⟨p, t.entry :: s.handlers⟩ (t :: stack) := by
  obtain ⟨hm, hs, hom, hos, hmm, hms⟩ := hkeep
  have hplaces : places (t :: stack) = t.place.toList ++ places stack := by
    rw [places, List.filterMap_cons]
    cases t.place <;> rfl
  refine ⟨by rw [List.map_cons, h.handlers], ?_, ?_, ⟨hm.trans h.setup.1, hs.trans h.setup.2⟩,
    ⟨hom.trans h.offset.1, hos.trans h.offset.2⟩, fun n => ?_, fun i => ?_, fun j => ?_⟩
  · rw [List.mem_cons, not_or]
    exact ⟨ht.symm, h.device⟩
  · rw [hplaces]
    cases hp : t.place with
    | none => exact h.sorted
    | some i => exact List.pairwise_cons.mpr ⟨hplace i hp, h.sorted⟩
  · rw [← h.masked n, Pics.masked, Pics.masked, hmm, hms]
  · rw [hmaster, h.master, hplaces, List.mem_append, Option.mem_toList]
  · rw [hslave, h.slave]
    constructor
    · rintro (⟨n, rfl, hn⟩ | ⟨n, hmem, hn⟩)
      · exact ⟨n, List.mem_cons_self, hn⟩
      · exact ⟨n, List.mem_cons_of_mem _ hmem, hn⟩
    · rintro ⟨n, hmem, hn⟩
      rcases List.mem_cons.mp hmem with rfl | hmem
      · exact .inl ⟨n, rfl, hn⟩
      · exact .inr ⟨n, hmem, hn⟩

theorem serve_inService (c : Chip) (i k : Fin 8) :
    (c.serve i).inService k = true ↔ i = k ∨ c.inService k = true := by
  simp only [Chip.serve, Function.update_apply]
  split_ifs with hk
  · simp [hk]
  · simp [Ne.symm hk]

/-- Every acknowledge starts a handler that it can account for. -/
theorem acknowledge (h : Nested on s stack) (lapsed : Bool) :
    ∃ t, Answers on s.pics (places stack) lapsed t ∧ (s.pics.inta lapsed).1 = t.vector ∧
      s.pics.cascaded.next.isSome = t.place.isSome ∧
      Nested on ⟨(s.pics.inta lapsed).2, t.entry :: s.handlers⟩ (t :: stack) := by
  cases hnext : s.pics.cascaded.next with
  | none =>
    refine ⟨.spurious false, fun k hk => ?_, ?_, rfl, ?_⟩
    · obtain ⟨i, hi⟩ := h.next_isSome hk
      rw [hnext] at hi
      cases hi
    · rw [Pics.inta, hnext, h.offset.1]
      rfl
    · rw [Pics.inta, hnext]
      exact h.push (by simp) (by simp [Taken.place]) ⟨rfl, rfl, rfl, rfl, rfl, rfl⟩
        (by simp [Taken.place]) (by simp)
  | some i =>
    have hfirst := h.next_first hnext
    have hurgent := h.urgent (h.next_free hnext)
    by_cases h2 : i = 2
    · obtain ⟨j, hj, hdue⟩ := h.next_slave hnext h2
      have hge : 8 ≤ (upper j).val := Nat.le_add_right 8 j
      subst h2
      cases lapsed with
      | true =>
        refine ⟨.spurious true, ⟨rfl, ⟨upper j, hge, hdue⟩, hfirst⟩, ?_, rfl, ?_⟩
        · simp only [Pics.inta, hnext, if_true, h.offset.2]
          rfl
        · simp only [Pics.inta, hnext, if_true]
          exact h.push (by simp) (by simpa [Taken.place] using hurgent)
            ⟨rfl, rfl, rfl, rfl, rfl, rfl⟩ (by simp [Taken.place, serve_inService]) (by simp)
      | false =>
        have hplace : (Taken.line (upper j)).place = some 2 := by rw [Taken.place, line_of_ge hge]
        refine ⟨.line (upper j), ⟨hdue, fun k hk => ?_⟩, ?_, rfl, ?_⟩
        · rw [line_of_ge hge]
          refine (hfirst k hk).lt_or_eq.imp_right fun heq => ⟨heq, h.slave_first hj hk ?_⟩
          exact ge_of_line_two hk.device heq.symm
        · simp only [Pics.inta, hnext, if_true, Bool.false_eq_true, if_false, hj, h.offset.2]
          exact slave_vector j
        · simp only [Pics.inta, hnext, if_true, Bool.false_eq_true, if_false, hj]
          refine h.push (by simpa using hdue.device) ?_ ⟨rfl, rfl, rfl, rfl, rfl, rfl⟩ ?_ ?_
          · simpa [hplace] using hurgent
          · simp [hplace, serve_inService]
          · simp [serve_inService, hge, low_upper]
    · have hdue := h.next_due hnext h2
      have hlt : (i.castLE (by omega) : Fin 16).val < 8 := i.isLt
      have hplace : (Taken.line (i.castLE (by omega))).place = some i := by
        rw [Taken.place, line_of_lt hlt, low_castLE]
      refine ⟨.line (i.castLE (by omega)), ⟨hdue, fun k hk => ?_⟩, ?_, rfl, ?_⟩
      · rw [line_of_lt hlt, low_castLE]
        refine (hfirst k hk).lt_or_eq.imp_right fun heq => ⟨heq, ?_⟩
        rw [heq]
        exact line_le k
      · simp only [Pics.inta, hnext, if_neg h2, h.offset.1]
        rfl
      · simp only [Pics.inta, hnext, if_neg h2]
        refine h.push (by simpa using hdue.device) ?_ ⟨rfl, rfl, rfl, rfl, rfl, rfl⟩ ?_ ?_
        · simpa [hplace] using hurgent
        · simp [hplace, serve_inService]
        · simp

theorem picSendEoi_taken {t : Taken} {i : Fin 8} (ht : t.place = some i) (hi : t ≠ .line 2)
    (p : Pics) : picSendEoi (t.vector - 0x20) p =
      ⟨p.master.eoi, if i = 2 then p.slave.eoi else p.slave⟩ := by
  have hvector : ∀ n : Fin 16, n ≠ 2 → vector n - 0x20 = UInt8.ofNat n ∧
      (8 ≤ UInt8.ofNat n ↔ line n = 2) := by
    decide
  cases t with
  | line n =>
    obtain rfl : line n = i := Option.some_inj.mp ht
    obtain ⟨hsub, hge⟩ := hvector n fun heq => hi (congrArg Taken.line heq)
    rw [Taken.vector, hsub, picSendEoi]
    by_cases hn : line n = 2
    · rw [if_pos (hge.mpr hn), if_pos hn]
      rfl
    · rw [if_neg (mt hge.mp hn), if_neg hn]
      rfl
  | spurious second =>
    cases second with
    | false => cases ht
    | true =>
      obtain rfl : 2 = i := Option.some_inj.mp ht
      rfl

/-- The end of a handler frees the place of this handler and no other. -/
theorem finish {t : Taken} (h : Nested on s (t :: stack)) :
    Nested on ⟨if t.place.isSome then picSendEoi (t.vector - 0x20) s.pics else s.pics,
      stack.map Taken.entry⟩ stack := by
  have hdevice : .line 2 ∉ stack := fun hmem => h.device (List.mem_cons_of_mem _ hmem)
  have hne : t ≠ .line 2 := fun heq => h.device (heq ▸ List.mem_cons_self)
  have hplaces : places (t :: stack) = t.place.toList ++ places stack := by
    rw [places, List.filterMap_cons]
    cases t.place <;> rfl
  have hsorted := h.sorted
  have hmaster := h.master
  simp only [hplaces] at hsorted hmaster
  cases hp : t.place with
  | none =>
    have hslave (j : Fin 8) : (∃ n, Taken.line n ∈ t :: stack ∧ 8 ≤ n.val ∧ low n = j) ↔
        ∃ n, Taken.line n ∈ stack ∧ 8 ≤ n.val ∧ low n = j := by
      refine exists_congr fun n => and_congr_left fun _ => ?_
      rw [List.mem_cons, or_iff_right]
      rintro rfl
      cases hp
    rw [hp] at hsorted hmaster
    exact ⟨rfl, hdevice, hsorted, h.setup, h.offset, h.masked, hmaster,
      fun j => (h.slave j).trans (hslave j)⟩
  | some i =>
    rw [hp] at hsorted hmaster
    obtain ⟨hfirst, hrest⟩ := List.pairwise_cons.mp hsorted
    have heoi : s.pics.master.eoi =
        { s.pics.master with inService := Function.update s.pics.master.inService i false } := by
      refine Chip.eoi_inService ((hmaster i).mpr (by simp)) fun j hj => ?_
      by_contra hserved
      rcases List.mem_cons.mp ((hmaster j).mp (Bool.of_not_eq_false hserved)) with rfl | hmem
      · exact lt_irrefl _ hj
      · exact lt_asymm hj (hfirst j hmem)
    have hfree : ∀ k, Function.update s.pics.master.inService i false k = true ↔
        k ∈ places stack := by
      intro k
      by_cases hk : k = i
      · subst hk
        simpa using fun hmem => lt_irrefl _ (hfirst k hmem)
      · rw [Function.update_of_ne hk, hmaster k]
        simp [hk]
    rw [Option.isSome_some, if_pos rfl, picSendEoi_taken hp hne, heoi]
    by_cases h2 : i = 2
    · -- no other handler of a line of the second chip is under way
      have hnone (n : Fin 16) (hmem : Taken.line n ∈ stack) : ¬ 8 ≤ n.val := by
        intro hge
        have hlt := hfirst (line n) (List.mem_filterMap.mpr ⟨.line n, hmem, rfl⟩)
        rw [line_of_ge hge, h2] at hlt
        exact lt_irrefl _ hlt
      have hline {j : Fin 8} (hj : s.pics.slave.inService j = true) :
          ∃ n, t = .line n ∧ low n = j := by
        obtain ⟨n, hmem, hge, hlow⟩ := (h.slave j).mp hj
        rcases List.mem_cons.mp hmem with heq | hmem
        · exact ⟨n, heq.symm, hlow⟩
        · exact absurd hge (hnone n hmem)
      have hslave : s.pics.slave.eoi = { s.pics.slave with inService := fun _ => false } := by
        refine Chip.eoi_single fun j k hj hk => ?_
        obtain ⟨n, rfl, rfl⟩ := hline hj
        obtain ⟨n', heq, rfl⟩ := hline hk
        rw [Taken.line.inj heq]
      rw [if_pos h2, hslave]
      refine ⟨rfl, hdevice, hrest, h.setup, h.offset, h.masked, hfree, fun j => ?_⟩
      simpa using fun n hmem hge _ => absurd hge (hnone n hmem)
    · have hslave (j : Fin 8) : (∃ n, Taken.line n ∈ t :: stack ∧ 8 ≤ n.val ∧ low n = j) ↔
          ∃ n, Taken.line n ∈ stack ∧ 8 ≤ n.val ∧ low n = j := by
        refine exists_congr fun n => and_congr_left fun hn => ?_
        rw [List.mem_cons, or_iff_right]
        rintro rfl
        rw [Taken.place, line_of_ge hn.1] at hp
        exact h2 (Option.some_inj.mp hp).symm
      rw [if_neg h2]
      exact ⟨rfl, hdevice, hrest, h.setup, h.offset, h.masked, hfree,
        fun j => (h.slave j).trans (hslave j)⟩

theorem step (h : Nested on s stack) (e : Event) :
    ∃ stack', Nested (e.enabled on) (Pic.step s e) stack' := by
  cases e with
  | enable n => exact ⟨stack, h.enable n⟩
  | disable n => exact ⟨stack, h.disable n⟩
  | disableAll => exact ⟨stack, h.disableAll⟩
  | request b n => exact ⟨stack, h.request b n⟩
  | acknowledge lapsed =>
    obtain ⟨t, -, hvector, hserved, hnested⟩ := h.acknowledge lapsed
    refine ⟨t :: stack, ?_⟩
    rw [Taken.entry, ← hvector, ← hserved] at hnested
    exact hnested
  | finish =>
    cases stack with
    | nil =>
      refine ⟨[], ?_⟩
      rw [Pic.step, h.handlers]
      exact h
    | cons t stack =>
      refine ⟨stack, ?_⟩
      rw [Pic.step, h.handlers]
      exact h.finish

theorem run (events : List Event) (h : Nested on s stack) :
    ∃ stack', Nested (events.foldl Event.enabled on) (events.foldl Pic.step s) stack' := by
  induction events generalizing on s stack with
  | nil => exact ⟨stack, h⟩
  | cons e events ih =>
    obtain ⟨stack', hstep⟩ := h.step e
    exact ih hstep

theorem serves_iff (h : Nested on s stack) (hn : n ≠ 2) :
    s.pics.serves n = true ↔ .line n ∈ stack := by
  rw [Pics.serves]
  split_ifs with hlt
  · rw [h.master, places, List.mem_filterMap]
    constructor
    · rintro ⟨t, ht, hplace⟩
      have hlow : low n ≠ 2 := low_ne_two hlt hn
      cases t with
      | spurious second =>
        cases second with
        | false => cases hplace
        | true => exact absurd (Option.some_inj.mp hplace).symm hlow
      | line k =>
        have heq : line k = low n := Option.some_inj.mp hplace
        by_cases hk : k.val < 8
        · rw [line_of_lt hk, low_eq_iff (by omega)] at heq
          exact heq ▸ ht
        · rw [line_of_ge (by omega)] at heq
          exact absurd heq.symm hlow
    · intro hmem
      exact ⟨.line n, hmem, by rw [Taken.place, line_of_lt hlt]⟩
  · rw [h.slave]
    constructor
    · rintro ⟨k, hk, hge, heq⟩
      rw [low_eq_iff (by omega)] at heq
      exact heq ▸ hk
    · intro hmem
      exact ⟨n, hmem, by omega, rfl⟩

end Nested

/-- Whatever lines are raised and lowered, enabled and disabled, and whenever interrupts are
acknowledged: the lines in service are those of the handlers under way, and each of these
handlers but the spurious ones of the first chip is more urgent than those it interrupted.
An acknowledge is answered with the most urgent line that is due, with line 7 of the
first chip if none is due, and with line 7 of the second one only if the request of that
chip has lapsed. -/
theorem pic_handlers_nest (p : Pics) (events : List Event) :
    ∃ stack : List Taken, (run events p).handlers = stack.map Taken.entry ∧
      (places stack).Pairwise (· < ·) ∧
      (∀ n, n ≠ 2 → ((run events p).pics.serves n = true ↔ .line n ∈ stack)) ∧
      ∀ lapsed, ∃ t, ((run events p).pics.inta lapsed).1 = t.vector ∧
        Answers (enabled events) (run events p).pics (places stack) lapsed t := by
  obtain ⟨stack, h⟩ := (nested_start p).run events
  refine ⟨stack, h.handlers, h.sorted, fun n hn => h.serves_iff hn, fun lapsed => ?_⟩
  obtain ⟨t, hanswers, hvector, -⟩ := h.acknowledge lapsed
  exact ⟨t, hvector, hanswers⟩

example : (run [.enable 3, .enable 2, .enable 12, .request true 3, .acknowledge false,
    .request true 12, .acknowledge false, .request true 3, .acknowledge false]
      ⟨⟨fun _ => true, fun _ => true, 0, 8, .ready⟩,
        ⟨fun _ => true, fun _ => true, 0, 112, .icw4⟩⟩).handlers =
    [(0x27, false), (0x2C, true), (0x23, true)] := by
  decide +kernel

end XldKernel.Pic
