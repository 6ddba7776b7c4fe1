import XldKernel.ByteMemory

/-!
# A fragment of x86-64: the stack, calls and the delivery of interrupts

The instructions are those of interrupt stubs. A function that is called is a map of the
whole machine that includes its own return, or stops the machine for good. The delivery of
an interrupt follows the descriptor tables as they lie in memory, in 64-bit mode and without
a change of the privilege level.
-/

namespace XldKernel.X86
open ByteMemory

inductive Reg where
  | rax | rbx | rcx | rdx | rsi | rdi | rbp
  | r8 | r9 | r10 | r11 | r12 | r13 | r14 | r15
  deriving DecidableEq

structure Machine (κ : Type) where
  regs : Reg → BitVec 64
  rsp : BitVec 64
  rip : BitVec 64
  cs : BitVec 16
  ss : BitVec 16
  flags : BitVec 64
  mem : Mem
  world : κ

inductive Instr (φ : Type) where
  | push (r : Reg)
  | pushImm (v : BitVec 64)
  | pop (r : Reg)
  | subRsp (n : BitVec 64)
  | addRsp (n : BitVec 64)
  | movImm (r : Reg) (v : BitVec 32)
  | movStack (r : Reg) (off : ℕ)
  | call (f : φ)
  | cli
  | hlt
  | iretq

namespace Machine
variable {κ : Type}

def push (v : BitVec 64) (m : Machine κ) : Machine κ :=
  { m with rsp := m.rsp - 8, mem := store m.mem (m.rsp - 8).toNat 8 v.toNat }

def word (m : Machine κ) (off : ℕ) : BitVec 64 := BitVec.ofNat 64 (load m.mem (m.rsp.toNat + off) 8)

def set (m : Machine κ) (r : Reg) (v : BitVec 64) : Machine κ :=
  { m with regs := Function.update m.regs r v }

def pop (r : Reg) (m : Machine κ) : Machine κ := { m.set r (m.word 0) with rsp := m.rsp + 8 }

def iretq (m : Machine κ) : Machine κ :=
  { m with
    rip := m.word 0
    cs := (m.word 8).setWidth 16
    flags := m.word 16
    rsp := m.word 24
    ss := (m.word 32).setWidth 16 }

end Machine

section Execution
variable {κ φ : Type} (len : Instr φ → BitVec 64) (callee : φ → Machine κ → Except κ (Machine κ))

/-- `len` are the lengths of the instructions. A move to the lower half of a register clears
the upper half. -/
def exec (i : Instr φ) (m : Machine κ) : Except κ (Machine κ) :=
  let m := { m with rip := m.rip + len i }
  match i with
  | .push r => .ok (m.push (m.regs r))
  | .pushImm v => .ok (m.push v)
  | .pop r => .ok (m.pop r)
  | .subRsp n => .ok { m with rsp := m.rsp - n }
  | .addRsp n => .ok { m with rsp := m.rsp + n }
  | .movImm r v => .ok (m.set r (v.setWidth 64))
  | .movStack r off => .ok (m.set r (m.word off))
  | .call f => callee f (m.push m.rip)
  | .cli => .ok { m with flags := m.flags &&& ~~~0x200 }
  | .hlt => .error m.world
  | .iretq => .ok m.iretq

def run : List (Instr φ) → Machine κ → Except κ (Machine κ)
  | [], m => .ok m
  | i :: code, m => (exec len callee i m).bind (run code)

end Execution

structure TableRegister where
  base : ℕ
  limit : ℕ

structure Tables where
  idt : TableRegister
  gdt : TableRegister
  ist : ℕ → BitVec 64

structure Gate where
  offset : BitVec 64
  selector : BitVec 16
  ist : ℕ
  kind : ℕ
  present : Bool

def readGate (mem : Mem) (a : ℕ) : Gate :=
  { offset := BitVec.ofNat 64 (load mem a 2 + 2 ^ 16 * load mem (a + 6) 2 + 2 ^ 32 * load
    mem (a + 8) 4)
    selector := BitVec.ofNat 16 (load mem (a + 2) 2)
    ist := load mem (a + 4) 1 % 8
    kind := load mem (a + 5) 1 % 32
    present := load mem (a + 5) 1 / 128 = 1 }

structure Fault where
  vector : BitVec 8
  code : ℕ

/-- Why the processor does not take the code segment of a gate: it has to be a present 64-bit
segment of ring 0 in the global table. -/
def codeFault (t : Tables) (ext : Bool) (mem : Mem) (selector : BitVec 16) : Option Fault :=
  let index := 8 * (selector.toNat / 8)
  let access := load mem (t.gdt.base + index + 5) 1
  let upper := load mem (t.gdt.base + index + 6) 1
  if selector.toNat / 4 = 0 then some ⟨13, ext.toNat⟩
  else if selector.toNat / 4 % 2 = 1 ∨
    t.gdt.limit < index + 7 then some ⟨13, selector.toNat / 4 * 4 + ext.toNat⟩
  else if access / 8 % 4 ≠ 3 ∨ access / 32 % 4 ≠ 0 ∨
    upper / 32 % 4 ≠ 1 then some ⟨13, index + ext.toNat⟩
  else if access / 128 = 0 then some ⟨11, index + ext.toNat⟩
  else none

/-- The stack frame of an interrupt and the jump through the gate. An interrupt gate clears
`IF`, and every gate clears `TF`, `NT`, `RF` and `VM`. -/
def through {κ : Type} (t : Tables) (g : Gate) (code : Option (BitVec 64)) (m : Machine κ) :
    Machine κ :=
  let stack := if g.ist = 0 then m.rsp else t.ist g.ist
  let m' := { m with rsp := stack &&& ~~~15 }
  let m' := m'.push (m.ss.setWidth 64)
  let m' := m'.push m.rsp
  let m' := m'.push m.flags
  let m' := m'.push (m.cs.setWidth 64)
  let m' := m'.push m.rip
  let m' := code.elim m' m'.push
  { m' with
    rip := g.offset
    cs := g.selector &&& ~~~3
    flags := m.flags &&& ~~~(if g.kind = 0xE then 0x34300 else 0x34100) }

/-- One attempt to enter the handler of a vector. A gate is neither an interrupt gate nor a
trap gate before it is absent. -/
def enter {κ : Type} (t : Tables) (ext : Bool) (v : BitVec 8) (code : Option (BitVec 64))
    (m : Machine κ) :
    Except Fault (Machine κ) :=
  let g := readGate m.mem (t.idt.base + 16 * v.toNat)
  let gateCode := 8 * v.toNat + 2 + ext.toNat
  if t.idt.limit < 16 * v.toNat + 15 then .error ⟨13, gateCode⟩
  else if g.kind ≠ 0xE ∧ g.kind ≠ 0xF then .error ⟨13, gateCode⟩
  else if g.present = false then .error ⟨11, gateCode⟩
  else
    match codeFault t ext m.mem g.selector with
    | some f => .error f
    | none => .ok (through t g code m)

/-- A fault on the way is delivered in place of the interrupt. `none` is a fault on the way
of that one. -/
def deliver {κ : Type} (t : Tables) (ext : Bool) (v : BitVec 8) (code : Option (BitVec 64))
    (m : Machine κ) :
    Option (Machine κ) :=
  match enter t ext v code m with
  | .ok m' => some m'
  | .error f => (enter t true f.vector (some (BitVec.ofNat 64 f.code)) m).toOption

def Stacked (mem : Mem) : ℕ → List (BitVec 64) → Prop
  | _, [] => True
  | a, w :: ws => load mem a 8 = w.toNat ∧ Stacked mem (a + 8) ws

/-- The words between the stack pointer and `base`, the last one pushed first. Memory is as
in `mem₀` outside of the stretch from `lo` to `base` and of the places `data`. -/
structure Frame {κ : Type} (data : Set ℕ) (lo base : ℕ) (mem₀ : Mem) (m : Machine κ)
    (ws : List (BitVec 64)) : Prop where
  rsp : m.rsp.toNat + 8 * ws.length = base
  words : Stacked m.mem m.rsp.toNat ws
  outside : ∀ a, a ∉ data → a < lo ∨ base ≤ a → m.mem a = mem₀ a

def calleeSaved : List Reg := [.rbx, .rbp, .r12, .r13, .r14, .r15]

structure Entry where
  rsp : BitVec 64
  rdi : BitVec 64
  rsi : BitVec 64

def Machine.entry {κ : Type} (m : Machine κ) : Entry := ⟨m.rsp, m.regs .rdi, m.regs .rsi⟩

/-- One call of a function that keeps to the calling convention and returns. It writes to
`depth` bytes of stack below its return address, to that address and to the places `data`. -/
structure Returns {κ : Type} (data : Set ℕ) (depth : ℕ) (effect : Entry → κ → κ)
    (m m' : Machine κ) : Prop where
  rsp : m'.rsp = m.rsp + 8
  rip : m'.rip = m.word 0
  saved : ∀ r ∈ calleeSaved, m'.regs r = m.regs r
  mem : ∀ a, a ∉ data → a + depth < m.rsp.toNat ∨ m.rsp.toNat + 8 ≤ a → m'.mem a = m.mem a
  world : m'.world = effect m.entry m.world

/-- From every state the function returns so. The calling convention leaves out entries with a
stack that is not aligned; here they are asked for as well, since there are stubs that enter
their functions in this way. -/
def Conforms {κ : Type} (data : Set ℕ) (depth : ℕ) (effect : Entry → κ → κ)
    (f : Machine κ → Except κ (Machine κ)) : Prop :=
  ∀ m, ∃ m', f m = .ok m' ∧ Returns data depth effect m m'

section Words
variable {mem mem' : Mem} {a : ℕ} {ws : List (BitVec 64)}

theorem Stacked.congr (hs : Stacked mem a ws)
    (h : ∀ b, a ≤ b → b < a + 8 * ws.length → mem' b = mem b) :
    Stacked mem' a ws := by
  induction ws generalizing a with
  | nil => trivial
  | cons w ws ih =>
    simp only [List.length_cons] at h
    have hw : load mem' a 8 = load mem a 8 := load_congr fun i hi => h _ (by omega) (by omega)
    exact ⟨hw.trans hs.1, ih hs.2 fun b hab hb => h b (by omega) (by omega)⟩

theorem Stacked.of_append {us : List (BitVec 64)} (hs : Stacked mem a (us ++ ws)) :
    Stacked mem (a + 8 * us.length) ws := by
  induction us generalizing a with
  | nil => exact hs
  | cons u us ih =>
    have hrest := ih hs.2
    rwa [show a + 8 * (u :: us).length =
      a + 8 + 8 * us.length by simp only [List.length_cons]; omega]

theorem ofNat_load {w : BitVec 64} (h : load mem a 8 = w.toNat) :
    BitVec.ofNat 64 (load mem a 8) = w := by
  rw [h, BitVec.ofNat_toNat, BitVec.setWidth_eq]

end Words

namespace Frame
variable {κ : Type} {data : Set ℕ} {lo base : ℕ} {mem₀ : Mem} {m : Machine κ}
  {ws : List (BitVec 64)}
  {w : BitVec 64}

theorem of_eq (h : Frame data lo base mem₀ m ws) (m' : Machine κ) (hrsp : m'.rsp = m.rsp)
    (hmem : m'.mem = m.mem) : Frame data lo base mem₀ m' ws := by
  obtain ⟨h1, h2, h3⟩ := h
  constructor
  · rw [hrsp, h1]
  · rwa [hrsp, hmem]
  · rwa [hmem]

theorem push (h : Frame data lo base mem₀ m ws) (hroom : lo + 8 * (ws.length + 1) ≤ base)
    (v : BitVec 64) :
    Frame data lo base mem₀ (m.push v) (v :: ws) := by
  have hrsp := h.rsp
  have hsub : (m.rsp - 8).toNat = m.rsp.toNat - 8 := by bv_omega
  constructor
  · simp only [Machine.push, hsub, List.length_cons]
    omega
  · simp only [Machine.push, Stacked, hsub, Nat.sub_add_cancel (show 8 ≤ m.rsp.toNat by omega)]
    constructor
    · rw [load_store_self]
      exact Nat.mod_eq_of_lt v.isLt
    · apply h.words.congr
      intro b hb _
      exact store_apart _ (by omega)
  · intro a ha hout
    simp only [Machine.push, hsub]
    rw [store_apart _ (by omega), h.outside a ha hout]

theorem word_zero (h : Frame data lo base mem₀ m (w :: ws)) : m.word 0 = w :=
  ofNat_load h.words.1

theorem word_of_append (us : List (BitVec 64)) (h : Frame data lo base mem₀ m (us ++ w :: ws)) :
    m.word (8 * us.length) = w :=
  ofNat_load h.words.of_append.1

theorem drop (h : Frame data lo base mem₀ m (w :: ws)) (hbase : base < 2 ^ 64) :
    Frame data lo base mem₀ { m with rsp := m.rsp + 8 } ws := by
  have hrsp := h.rsp
  simp only [List.length_cons] at hrsp
  have hadd : (m.rsp + 8).toNat = m.rsp.toNat + 8 := by bv_omega
  constructor
  · simp only [hadd]
    omega
  · simp only [hadd]
    exact h.words.2
  · exact h.outside

theorem alloc (h : Frame data lo base mem₀ m ws) (hroom : lo + 8 * (ws.length + 1) ≤ base) :
    ∃ w, Frame data lo base mem₀ { m with rsp := m.rsp - 8 } (w :: ws) := by
  have hrsp := h.rsp
  have hsub : (m.rsp - 8).toNat = m.rsp.toNat - 8 := by bv_omega
  refine ⟨BitVec.ofNat 64 (load m.mem (m.rsp.toNat - 8) 8), ?_, ?_, h.outside⟩
  · simp only [hsub, List.length_cons]
    omega
  · simp only [Stacked, hsub, Nat.sub_add_cancel (show 8 ≤ m.rsp.toNat by omega)]
    refine ⟨?_, h.words⟩
    rw [BitVec.toNat_ofNat]
    exact (Nat.mod_eq_of_lt (load_lt _ _ 8)).symm

theorem pop (h : Frame data lo base mem₀ m (w :: ws)) (hbase : base < 2 ^ 64) (r : Reg) :
    Frame data lo base mem₀ (m.pop r) ws ∧ (m.pop r).regs = Function.update m.regs r w := by
  refine ⟨(h.drop hbase).of_eq _ rfl rfl, ?_⟩
  simp only [Machine.pop, Machine.set, h.word_zero]

/-- A call leaves the stack as it was before the return address was pushed. -/
theorem returned {m' : Machine κ} {depth : ℕ} {effect : Entry → κ → κ} {ret : BitVec 64}
    (h : Frame data lo base mem₀ m (ret :: ws)) (hbase : base < 2 ^ 64)
    (hroom : lo + 8 * (ws.length + 1) + depth ≤ base) (hdata : ∀ a ∈ data, a < lo ∨ base ≤ a)
    (hf : Returns data depth effect m m') : Frame data lo base mem₀ m' ws := by
  have hrsp := h.rsp
  simp only [List.length_cons] at hrsp
  have hadd : (m.rsp + 8).toNat = m.rsp.toNat + 8 := by bv_omega
  constructor
  · rw [hf.rsp, hadd]
    omega
  · rw [hf.rsp, hadd]
    apply h.words.2.congr
    intro b hb hlt
    refine hf.mem b (fun hin => ?_) (by omega)
    have := hdata b hin
    omega
  · intro a ha hout
    rw [hf.mem a ha (by omega), h.outside a ha hout]

end Frame

section Runs
variable {κ φ : Type} (len : Instr φ → BitVec 64) (callee : φ → Machine κ → Except κ (Machine κ))
  {data : Set ℕ} {lo base : ℕ} {mem₀ : Mem} {m : Machine κ} {ws : List (BitVec 64)}

theorem run_append (c d : List (Instr φ)) (m : Machine κ) :
    run len callee (c ++ d) m = (run len callee c m).bind (run len callee d) := by
  induction c generalizing m with
  | nil => rfl
  | cons i c ih =>
    simp only [List.cons_append, run]
    cases exec len callee i m with
    | error w => rfl
    | ok m' => exact ih m'

variable {len callee} in
theorem run_then {c d : List (Instr φ)} {m' : Machine κ} (h : run len callee c m = .ok m') :
    run len callee (c ++ d) m = run len callee d m' := by
  rw [run_append, h]
  rfl

theorem run_movImm (r : Reg) (v : BitVec 32) (c : List (Instr φ)) (m : Machine κ) :
    run len callee (.movImm r v :: c) m =
      run len callee c (Machine.set { m with rip := m.rip + len (.movImm r v) } r
        (v.setWidth 64)) :=
  rfl

theorem run_pushImm (v : BitVec 64) (c : List (Instr φ)) (m : Machine κ) :
    run len callee (.pushImm v :: c) m =
      run len callee c (Machine.push v { m with rip := m.rip + len (.pushImm v) }) :=
  rfl

theorem run_movStack (r : Reg) (off : ℕ) (c : List (Instr φ)) (m : Machine κ) :
    run len callee (.movStack r off :: c) m =
      run len callee c (Machine.set { m with rip := m.rip + len (.movStack r off) } r
        (m.word off)) :=
  rfl

theorem run_stop {f : φ} {w : κ} {m : Machine κ}
    (h : callee f (Machine.push (m.rip + len (.call f)) { m with rip := m.rip + len (.call f) }) =
      .error w) (c : List (Instr φ)) : run len callee (.call f :: c) m = .error w := by
  simp only [run, exec, h, Except.bind]

theorem run_iretq (c : List (Instr φ)) (m : Machine κ) :
    run len callee (.iretq :: c) m =
      run len callee c (Machine.iretq { m with rip := m.rip + len .iretq }) :=
  rfl

theorem run_pushes (h : Frame data lo base mem₀ m ws) (rs : List Reg)
    (hroom : lo + 8 * (ws.length + rs.length) ≤ base) :
    ∃ m', run len callee (rs.map .push) m = .ok m' ∧ m'.regs = m.regs ∧ m'.world = m.world ∧
      Frame data lo base mem₀ m' ((rs.map m.regs).reverse ++ ws) := by
  induction rs generalizing m ws with
  | nil => exact ⟨m, rfl, rfl, rfl, h⟩
  | cons r rs ih =>
    simp only [List.length_cons] at hroom
    have hpush := (h.push (by omega) (m.regs r)).of_eq
      (Machine.push (m.regs r) { m with rip := m.rip + len (.push r) }) rfl rfl
    obtain ⟨m', hrun, hregs, hworld, hframe⟩ := ih hpush (by simp only [List.length_cons]; omega)
    refine ⟨m', hrun, hregs, hworld, ?_⟩
    simpa [Machine.push] using hframe

theorem run_pops {saved : Reg → BitVec 64} (hbase : base < 2 ^ 64) (rs : List Reg)
    (h : Frame data lo base mem₀ m (rs.map saved ++ ws)) :
    ∃ m', run len callee (rs.map .pop) m = .ok m' ∧ (∀ r ∈ rs, m'.regs r = saved r) ∧
      (∀ r ∉ rs, m'.regs r = m.regs r) ∧ m'.world = m.world ∧ Frame data lo base mem₀ m' ws := by
  induction rs generalizing m with
  | nil => exact ⟨m, rfl, by simp, by simp, rfl, h⟩
  | cons r rs ih =>
    have hadv := h.of_eq { m with rip := m.rip + len (.pop r) } rfl rfl
    obtain ⟨hpop, hregs⟩ := hadv.pop hbase r
    obtain ⟨m', hrun, hin, hout, hworld, hframe⟩ := ih hpop
    refine ⟨m', hrun, ?_, ?_, hworld, hframe⟩
    · intro q hq
      by_cases hqs : q ∈ rs
      · exact hin q hqs
      · have hqr : q = r := by simpa [hqs] using hq
        rw [hout q hqs, hregs, hqr, Function.update_self]
    · intro q hq
      simp only [List.mem_cons, not_or] at hq
      rw [hout q hq.2, hregs, Function.update_of_ne hq.1]

variable {callee} in
theorem run_call {f : φ} {depth : ℕ} {effect : Entry → κ → κ}
    (hf : Conforms data depth effect (callee f)) (h : Frame data lo base mem₀ m ws)
    (hbase : base < 2 ^ 64) (hroom : lo + 8 * (ws.length + 2) + depth ≤ base)
    (hdata : ∀ a ∈ data, a < lo ∨ base ≤ a) :
    ∃ m', run len callee [.subRsp 8, .call f, .addRsp 8] m = .ok m' ∧
      (∀ r ∈ calleeSaved, m'.regs r = m.regs r) ∧
      m'.world = effect ⟨m.rsp - 16, m.regs .rdi, m.regs .rsi⟩ m.world ∧
      Frame data lo base mem₀ m' ws := by
  obtain ⟨w, hw⟩ := h.alloc (by omega)
  have hadv := hw.of_eq { m with
    rsp := m.rsp - 8, rip := m.rip + len (.subRsp 8) + len (.call f) } rfl rfl
  have hentry := hadv.push (by simp only [List.length_cons]; omega)
    (m.rip + len (.subRsp 8) + len (.call f))
  obtain ⟨m₁, hcall, hret⟩ := hf (Machine.push (m.rip + len (.subRsp 8) + len (.call f)) { m with
    rsp := m.rsp - 8, rip := m.rip + len (.subRsp 8) + len (.call f) })
  have hback := hentry.returned hbase (by simp only [List.length_cons]; omega) hdata hret
  refine ⟨{ m₁ with rip := m₁.rip + len (.addRsp 8), rsp := m₁.rsp + 8 }, ?_, hret.saved, ?_,
    (hback.drop hbase).of_eq _ rfl rfl⟩
  · simp only [run, exec, Except.bind, hcall]
  · have hrsp : m.rsp - 8 - 8 = m.rsp - 16 := by bv_omega
    have hworld := hret.world
    simp only [Machine.entry, Machine.push, hrsp] at hworld
    exact hworld

end Runs

section Delivery
variable {κ : Type} {data : Set ℕ} {lo base : ℕ} {mem₀ : Mem} {m : Machine κ}
  {t : Tables} {g : Gate}

def Machine.interrupted (m : Machine κ) : List (BitVec 64) :=
  [m.rip, m.cs.setWidth 64, m.flags, m.rsp, m.ss.setWidth 64]

theorem and_not_add_and (v k : BitVec 64) : (v &&& ~~~k) + (v &&& k) = v := by
  rw [BitVec.add_eq_or_of_and_eq_zero]
  · ext i hi
    simp only [BitVec.getElem_or, BitVec.getElem_and, BitVec.getElem_not]
    cases v[i] <;> cases k[i] <;> rfl
  · ext i hi
    simp only [BitVec.getElem_and, BitVec.getElem_not, BitVec.getElem_zero]
    cases v[i] <;> cases k[i] <;> rfl

theorem toNat_aligned (v : BitVec 64) : (v &&& ~~~15).toNat = v.toNat / 16 * 16 := by
  have hlow : (v &&& 15).toNat = v.toNat % 16 := by
    rw [BitVec.toNat_and]
    exact Nat.and_two_pow_sub_one_eq_mod v.toNat 4
  have hle : (v &&& ~~~15).toNat ≤ v.toNat := by
    rw [BitVec.toNat_and]
    exact Nat.and_le_left
  have hsum := congrArg BitVec.toNat (and_not_add_and v 15)
  rw [BitVec.toNat_add, hlow] at hsum
  have hv := v.isLt
  omega

theorem through_frame (hist : g.ist = 0) (code : Option (BitVec 64))
    (hroom : lo + 8 * (code.toList.length + 5) ≤ m.rsp.toNat / 16 * 16) :
    Frame data lo (m.rsp.toNat / 16 * 16) m.mem (through t g code m)
      (code.toList ++ m.interrupted) := by
  have hstart : Frame data lo (m.rsp.toNat / 16 * 16) m.mem { m with rsp := m.rsp &&& ~~~15 } [] :=
    ⟨toNat_aligned m.rsp, trivial, fun _ _ _ => rfl⟩
  have hfive :=
    ((((hstart.push (by simp; omega) (m.ss.setWidth 64)).push (by simp; omega) m.rsp).push
    (by simp; omega) m.flags).push (by simp; omega) (m.cs.setWidth 64)).push (by simp; omega) m.rip
  cases code with
  | none =>
    apply hfive.of_eq _
    · simp only [through, if_pos hist, Option.elim_none]
    · simp only [through, if_pos hist, Option.elim_none]
  | some c =>
    simp only [Option.toList_some, List.length_singleton] at hroom
    apply (hfive.push (by simp; omega) c).of_eq _
    · simp only [through, if_pos hist, Option.elim_some]
    · simp only [through, if_pos hist, Option.elim_some]

theorem through_regs (t : Tables) (g : Gate) (code : Option (BitVec 64)) (m : Machine κ) :
    (through t g code m).regs = m.regs ∧ (through t g code m).world = m.world ∧
      (through t g code m).rip = g.offset := by
  cases code <;> exact ⟨rfl, rfl, rfl⟩

theorem iretq_frame {m' : Machine κ} (h : Frame data lo base mem₀ m' m.interrupted) :
    m'.iretq = { m with regs := m'.regs, mem := m'.mem, world := m'.world } := by
  obtain ⟨-, hcs, hflags, hrsp, hss, -⟩ := h.words
  have hword : ∀ {off : ℕ} {w : BitVec 64}, load m'.mem (m'.rsp.toNat + off) 8 = w.toNat →
      m'.word off = w :=
    fun hw => ofNat_load hw
  simp only [Nat.add_assoc] at hcs hflags hrsp hss
  simp only [Machine.iretq, h.word_zero, hword hcs, hword hflags, hword hrsp, hword hss]
  simp

theorem enter_gate {ext : Bool} {v : BitVec 8} (code : Option (BitVec 64))
    (hlimit : 16 * v.toNat + 15 ≤ t.idt.limit)
    (hgate : readGate m.mem (t.idt.base + 16 * v.toNat) = g) (hkind : g.kind = 0xE)
    (hpresent : g.present = true) (hcode : codeFault t ext m.mem g.selector = none) :
    enter t ext v code m = .ok (through t g code m) := by
  simp only [enter, hgate]
  rw [if_neg (by omega), if_neg (by simp [hkind]), if_neg (by simp [hpresent]), hcode]

theorem enter_empty {ext : Bool} {v : BitVec 8} (code : Option (BitVec 64))
    (hgate : (readGate m.mem (t.idt.base + 16 * v.toNat)).kind = 0) :
    enter t ext v code m = .error ⟨13, 8 * v.toNat + 2 + ext.toNat⟩ := by
  simp only [enter, hgate]
  by_cases hlimit : t.idt.limit < 16 * v.toNat + 15
  · rw [if_pos hlimit]
  · rw [if_neg hlimit, if_pos (by decide)]

end Delivery

end XldKernel.X86
