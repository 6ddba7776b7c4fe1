import XldKernel.DescriptorTables
import XldKernel.KlogFormat
import XldKernel.Ps2

/-!
# Interrupt stubs

Source: `kernel/src/interrupts.asm`, `kernel/src/exceptions.asm` and `kernel/src/exceptions.c`.
The C functions behind the stubs are arbitrary machine code that keeps to the calling
convention. A jump to the common part of the exception stubs is the rest of their code.
-/

namespace XldKernel.Interrupts
open ByteMemory X86 Klog
open Ps2 hiding run

inductive CFunction where
  | ps2Handler | picSendEoi | exceptionHandler
  deriving DecidableEq

abbrev Code := List (Instr CFunction)

def keyboardHandler : Code :=
  [.push .rbp, .push .r15, .push .r14, .push .r13, .push .r12, .push .r11, .push .r10, .push .r9,
    .push .r8, .push .rdi, .push .rsi, .push .rdx, .push .rcx, .push .rbx, .push .rax,
    .subRsp 8, .call .ps2Handler, .addRsp 8,
    .movImm .rdi 1, .subRsp 8, .call .picSendEoi, .addRsp 8,
    .pop .rax, .pop .rbx, .pop .rcx, .pop .rdx, .pop .rsi, .pop .rdi, .pop .r8, .pop .r9, .pop .r10,
    .pop .r11, .pop .r12, .pop .r13, .pop .r14, .pop .r15, .pop .rbp, .iretq]

def commonExceptionHandler : Code :=
  [.push .rax, .push .rcx, .push .rdx, .push .rbx, .push .rbp, .push .rsi, .push .rdi,
    .movStack .rdi 56, .movStack .rsi 64, .call .exceptionHandler, .cli, .hlt]

def exceptionNoErrcode (v : Fin 32) : Code :=
  .pushImm 0 :: .pushImm (BitVec.ofNat 64 v) :: commonExceptionHandler

def exceptionErrcode (v : Fin 32) : Code := .pushImm (BitVec.ofNat 64 v) :: commonExceptionHandler

def stubErrcode : List ℕ := [8, 10, 11, 12, 13, 14]

def Handler.code : Handler → Code
  | .exception v => if v.val ∈ stubErrcode then exceptionErrcode v else exceptionNoErrcode v
  | .keyboard => keyboardHandler

def exceptionHandler (vector errorCode : BitVec 64) : Printed :=
  [(ascii "\n!!! CPU EXCEPTION %d !!!\n", [.int (vector.setWidth 32)]),
    (ascii "Error code: 0x%x\n", [.int (errorCode.setWidth 32)]),
    (ascii "Kernel halted.\n", [])]

/-- The vectors for which the processor pushes an error code. -/
def cpuErrcode : List ℕ := [8, 10, 11, 12, 13, 14, 17, 21, 29, 30]

/-- The functions that the stubs call. The first argument of each effect is the stack pointer
on entry, and the others are the arguments of the function. -/
structure Functions (κ : Type) where
  callee : CFunction → Machine κ → Except κ (Machine κ)
  data : Set ℕ
  depth : ℕ
  ps2Handler : BitVec 64 → κ → κ
  picSendEoi : BitVec 64 → BitVec 8 → κ → κ
  exceptionHandler : BitVec 64 → BitVec 64 → BitVec 64 → κ → κ
  ps2Handler_conforms : Conforms data depth (fun e => ps2Handler e.rsp) (callee .ps2Handler)
  picSendEoi_conforms : Conforms data depth (fun e => picSendEoi e.rsp (e.rdi.setWidth 8))
    (callee .picSendEoi)
  exceptionHandler_stops : ∀ m, callee .exceptionHandler m =
    .error (exceptionHandler m.rsp (m.regs .rdi) (m.regs .rsi) m.world)

def handlers : List Handler := .keyboard :: (List.finRange 32).map .exception

def Layout.handlerAt (l : Layout) (rip : BitVec 64) : Option Handler :=
  handlers.find? fun h => l.handler h = rip

def interrupt {κ : Type} (l : Layout) (fs : Functions κ) (len : Instr CFunction → BitVec 64)
    (t : Tables) (ext : Bool) (v : BitVec 8) (code : Option (BitVec 64)) (m : Machine κ) :
    Option (Except κ (Machine κ)) :=
  (deliver t ext v code m).bind fun m' =>
    (l.handlerAt m'.rip).map fun h => run len fs.callee h.code m'

theorem mem_handlers (h : Handler) : h ∈ handlers := by
  cases h with
  | exception v => simp [handlers]
  | keyboard => simp [handlers]

theorem Layout.handlerAt_handler (l : Layout) (h : Handler) :
    l.handlerAt (l.handler h) = some h := by
  rw [Layout.handlerAt]
  cases hfind : handlers.find? fun h' => l.handler h' = l.handler h with
  | none =>
    have hnone := List.find?_eq_none.mp hfind h (mem_handlers h)
    simp at hnone
  | some h' =>
    have hsome := List.find?_some hfind
    simp only [decide_eq_true_eq] at hsome
    rw [l.handler_injective hsome]

section Stubs
variable {κ : Type} {l : Layout} {fs : Functions κ} {len : Instr CFunction → BitVec 64} {t : Tables}
  {m : Machine κ}

theorem enter_handler (hin : Installed l t m.mem) {ext : Bool} {v : BitVec 8} {h : Handler}
    (hgate : readGate m.mem (l.idt + 16 * v.toNat) = gateOf (l.handler h))
    (code : Option (BitVec 64)) :
    enter t ext v code m = .ok (through t (gateOf (l.handler h)) code m) := by
  have hv := v.isLt
  refine enter_gate code ?_ ?_ rfl rfl (hin.code ext)
  · rw [hin.idt]
    dsimp only
    omega
  · rw [hin.idt, hgate]

theorem interrupt_handler (hin : Installed l t m.mem) {ext : Bool} {v : BitVec 8} {h : Handler}
    (hgate : readGate m.mem (l.idt + 16 * v.toNat) = gateOf (l.handler h))
    (code : Option (BitVec 64)) :
    interrupt l fs len t ext v code m =
      some (run len fs.callee h.code (through t (gateOf (l.handler h)) code m)) := by
  rw [interrupt, deliver, enter_handler hin hgate]
  simp only [Option.bind_some, (through_regs t (gateOf (l.handler h)) code m).2.2]
  rw [show (gateOf (l.handler h)).offset = l.handler h from rfl, l.handlerAt_handler]
  rfl

theorem interrupt_empty (hin : Installed l t m.mem) {v : BitVec 8} (h32 : 32 ≤ v.toNat)
    (h33 : v.toNat ≠ 33) (code : Option (BitVec 64)) (ext : Bool) :
    interrupt l fs len t ext v code m = interrupt l fs len t true 13
      (some (BitVec.ofNat 64 (8 * v.toNat + 2 + ext.toNat))) m := by
  have hempty : enter t ext v code m = .error ⟨13, 8 * v.toNat + 2 + ext.toNat⟩ := by
    apply enter_empty
    rw [hin.idt]
    exact hin.empty _ h32 v.isLt h33
  have hgate : readGate m.mem (l.idt + 16 * (13 : BitVec 8).toNat) =
      gateOf (l.handler (.exception 13)) :=
    hin.exception 13
  rw [interrupt, interrupt, deliver, deliver, hempty, enter_handler hin hgate]
  simp only [enter_handler hin hgate]
  rfl

def savedOrder : List Reg :=
  [.rbp, .r15, .r14, .r13, .r12, .r11, .r10, .r9, .r8, .rdi, .rsi, .rdx, .rcx, .rbx, .rax]

theorem mem_savedOrder (r : Reg) : r ∈ savedOrder := by
  cases r <;> decide

def callCode (f : CFunction) : Code := [.subRsp 8, .call f, .addRsp 8]

def saveCode : Code := savedOrder.map .push

def restoreCode : Code := savedOrder.reverse.map .pop

theorem keyboardHandler_eq : keyboardHandler = saveCode ++ (callCode .ps2Handler ++
    (.movImm .rdi 1 :: (callCode .picSendEoi ++ (restoreCode ++ [.iretq])))) :=
  rfl

theorem rsp_of_frame {data : Set ℕ} {lo base : ℕ} {mem₀ : Mem} {ws : List (BitVec 64)}
    (h : Frame data lo base mem₀ m ws) (k : ℕ) (hk : 8 * ws.length + k ≤ base) :
    m.rsp - BitVec.ofNat 64 k = BitVec.ofNat 64 (base - 8 * ws.length - k) := by
  have hrsp := h.rsp
  have hlt := m.rsp.isLt
  apply BitVec.eq_of_toNat_eq
  rw [BitVec.toNat_sub, BitVec.toNat_ofNat, BitVec.toNat_ofNat]
  omega

def keyboardEntry (m : Machine κ) : BitVec 64 := BitVec.ofNat 64 (m.rsp.toNat / 16 * 16 - 176)

variable (fs len t) in
theorem keyboardHandler_run (g : Gate) (hist : g.ist = 0)
    (hroom : 176 + fs.depth ≤ m.rsp.toNat / 16 * 16)
    (hdata : ∀ a ∈ fs.data, a < m.rsp.toNat / 16 * 16 - (176 + fs.depth) ∨
      m.rsp.toNat / 16 * 16 ≤ a) :
    ∃ mem', run len fs.callee keyboardHandler (through t g none m) = .ok { m with
        mem := mem'
        world := fs.picSendEoi (keyboardEntry m) 1 (fs.ps2Handler (keyboardEntry m) m.world) } ∧
      ∀ a, a ∉ fs.data → a < m.rsp.toNat / 16 * 16 - (176 + fs.depth) ∨ m.rsp.toNat / 16 * 16 ≤ a →
        mem' a = m.mem a := by
  have hlt := m.rsp.isLt
  obtain ⟨hregs, hworld, -⟩ := through_regs t g none m
  set base := m.rsp.toNat / 16 * 16 with hbase
  have hframe : Frame fs.data (base - (176 + fs.depth)) base m.mem (through t g none m)
      m.interrupted :=
    through_frame hist none (by simp; omega)
  have hlen : m.interrupted.length = 5 := rfl
  have hsaved : savedOrder.length = 15 := rfl
  -- the registers, the two calls and the registers back
  obtain ⟨m₁, hrun₁, hregs₁, hworld₁, hframe₁⟩ := run_pushes len fs.callee hframe
    savedOrder (by omega)
  have hlen₁ : ((savedOrder.map (through t g none m).regs).reverse ++ m.interrupted).length =
      20 := by
    simp [hlen, hsaved]
  obtain ⟨m₂, hrun₂, -, hworld₂, hframe₂⟩ := run_call len fs.ps2Handler_conforms hframe₁ (by omega)
    (by omega) hdata
  have hmov := hframe₂.of_eq (Machine.set { m₂ with rip := m₂.rip + len (.movImm .rdi 1) } .rdi
    ((1 : BitVec 32).setWidth 64)) rfl rfl
  obtain ⟨m₃, hrun₃, -, hworld₃, hframe₃⟩ := run_call len fs.picSendEoi_conforms hmov (by omega)
    (by omega) hdata
  rw [← List.map_reverse] at hframe₃
  obtain ⟨m₄, hrun₄, hin₄, -, hworld₄, hframe₄⟩ := run_pops len fs.callee (by omega)
    savedOrder.reverse hframe₃
  refine ⟨m₄.mem, ?_, hframe₄.outside⟩
  have hback := hframe₄.of_eq { m₄ with rip := m₄.rip + len .iretq } rfl rfl
  have hregs₄ : m₄.regs = m.regs := by
    funext r
    rw [hin₄ r (List.mem_reverse.mpr (mem_savedOrder r)), hregs]
  have hentry : ∀ {m' : Machine κ} {ws : List (BitVec 64)}, Frame fs.data (base - (176 + fs.depth))
      base m.mem m' ws → ws.length = 20 → m'.rsp - 16 = keyboardEntry m := by
    intro m' ws hf hws
    refine (rsp_of_frame hf 16 (by omega)).trans ?_
    rw [hws, keyboardEntry, Nat.sub_sub]
  have hworld' : m₄.world = fs.picSendEoi (keyboardEntry m) 1
      (fs.ps2Handler (keyboardEntry m) m.world) := by
    have hrdi : (Function.update m₂.regs .rdi ((1 : BitVec 32).setWidth 64) .rdi).setWidth 8 =
        1 := by
      rw [Function.update_self]
      rfl
    dsimp only [Machine.set] at hworld₃
    rw [hworld₄, hworld₃, hrdi, hworld₂, hworld₁, hworld]
    dsimp only
    rw [hentry hframe₁ hlen₁, hentry hframe₂ hlen₁]
  rw [keyboardHandler_eq, saveCode, callCode, callCode, restoreCode, run_then hrun₁, run_then hrun₂,
    run_movImm, run_then hrun₃, run_then hrun₄, run_iretq, iretq_frame hback, run]
  simp only [hregs₄, hworld']

def commonSaved : List Reg := [.rax, .rcx, .rdx, .rbx, .rbp, .rsi, .rdi]

def reportCode : Code := [.movStack .rdi 56, .movStack .rsi 64, .call .exceptionHandler, .cli, .hlt]

def commonSave : Code := commonSaved.map .push

theorem commonExceptionHandler_eq : commonExceptionHandler = commonSave ++ reportCode := rfl

theorem commonExceptionHandler_run {data : Set ℕ} {lo base : ℕ} {mem₀ : Mem}
    {vector code : BitVec 64} {ws : List (BitVec 64)}
    (h : Frame data lo base mem₀ m (vector :: code :: ws))
    (hroom : lo + 8 * (ws.length + 10) ≤ base) :
    run len fs.callee commonExceptionHandler m =
      .error (fs.exceptionHandler (BitVec.ofNat 64 (base - 8 * (ws.length + 10))) vector code
        m.world) := by
  have hsaved : commonSaved.length = 7 := rfl
  obtain ⟨m₁, hrun, -, hworld, hframe⟩ := run_pushes len fs.callee h commonSaved
    (by simp only [List.length_cons, hsaved]; omega)
  have hlen : ((commonSaved.map m.regs).reverse ++ vector :: code :: ws).length =
      ws.length + 9 := by
    simp only [List.length_append, List.length_reverse, List.length_map, List.length_cons, hsaved]
    omega
  have hvector : m₁.word 56 = vector := hframe.word_of_append _
  have hcode : m₁.word 64 = code := by
    apply Frame.word_of_append ((commonSaved.map m.regs).reverse ++ [vector])
    rwa [List.append_assoc, List.singleton_append]
  have hentry : m₁.rsp - 8 = BitVec.ofNat 64 (base - 8 * (ws.length + 10)) := by
    refine (rsp_of_frame hframe 8 (by omega)).trans ?_
    rw [hlen, Nat.sub_sub, Nat.mul_add, Nat.mul_add, Nat.add_assoc]
  rw [commonExceptionHandler_eq, commonSave, run_then hrun, reportCode, run_movStack, run_movStack]
  apply run_stop
  rw [fs.exceptionHandler_stops]
  have hword : (Machine.set { m₁ with rip := m₁.rip + len (.movStack .rdi 56) } .rdi
      (m₁.word 56)).word 64 = code := hcode
  rw [hword, hvector]
  change Except.error (fs.exceptionHandler (m₁.rsp - 8)
    (Function.update (Function.update m₁.regs .rdi vector) .rsi code .rdi)
    (Function.update (Function.update m₁.regs .rdi vector) .rsi code .rsi) m₁.world) = _
  rw [hentry, hworld, Function.update_of_ne (by decide), Function.update_self, Function.update_self]

variable (fs len) in
theorem exceptionErrcode_run {data : Set ℕ} {lo base : ℕ} {mem₀ : Mem} {code : BitVec 64}
    {ws : List (BitVec 64)} (h : Frame data lo base mem₀ m (code :: ws))
    (hroom : lo + 8 * (ws.length + 10) ≤ base) (v : Fin 32) :
    run len fs.callee (exceptionErrcode v) m = .error (fs.exceptionHandler
      (BitVec.ofNat 64 (base - 8 * (ws.length + 10))) (BitVec.ofNat 64 v) code m.world) := by
  have hpush := (h.of_eq { m with rip := m.rip + len (.pushImm (BitVec.ofNat 64 v)) } rfl rfl).push
    (by simp only [List.length_cons]; omega) (BitVec.ofNat 64 v)
  rw [exceptionErrcode, run_pushImm, commonExceptionHandler_run hpush hroom]
  rfl

variable (fs len) in
theorem exceptionNoErrcode_run {data : Set ℕ} {lo base : ℕ} {mem₀ : Mem} {ws : List (BitVec 64)}
    (h : Frame data lo base mem₀ m ws) (hroom : lo + 8 * (ws.length + 10) ≤ base) (v : Fin 32) :
    run len fs.callee (exceptionNoErrcode v) m = .error (fs.exceptionHandler
      (BitVec.ofNat 64 (base - 8 * (ws.length + 10))) (BitVec.ofNat 64 v) 0 m.world) := by
  have hpush := (h.of_eq { m with rip := m.rip + len (.pushImm 0) } rfl rfl).push (by omega) 0
  have hrun := exceptionErrcode_run fs len hpush hroom v
  rw [exceptionErrcode] at hrun
  rw [exceptionNoErrcode, run_pushImm, hrun]
  rfl

def passedCode (v : Fin 32) (code : Option (BitVec 64)) : BitVec 64 :=
  if v.val ∈ stubErrcode then code.getD 0 else 0

def exceptionEntry (m : Machine κ) (v : Fin 32) : BitVec 64 :=
  BitVec.ofNat 64
    (m.rsp.toNat / 16 * 16 - if v.val ∈ cpuErrcode ∧ v.val ∉ stubErrcode then 128 else 120)

theorem interrupt_exception (hin : Installed l t m.mem) (hroom : 128 ≤ m.rsp.toNat / 16 * 16)
    (ext : Bool) (v : Fin 32) {code : Option (BitVec 64)}
    (hcode : code.isSome = decide (v.val ∈ cpuErrcode)) :
    interrupt l fs len t ext (BitVec.ofNat 8 v) code m =
      some (.error (fs.exceptionHandler (exceptionEntry m v)
      (BitVec.ofNat 64 v) (passedCode v code) m.world)) := by
  have hv : (BitVec.ofNat 8 v).toNat = v := by
    rw [BitVec.toNat_ofNat]
    omega
  have hgate := hin.exception v
  rw [← hv] at hgate
  rw [interrupt_handler hin hgate]
  obtain ⟨-, hworld, -⟩ := through_regs t (gateOf (l.handler (.exception v))) code m
  have hframe : Frame (∅ : Set ℕ) 0 (m.rsp.toNat / 16 * 16) m.mem
      (through t (gateOf (l.handler (.exception v))) code m) (code.toList ++ m.interrupted) :=
    through_frame rfl code (by cases code <;> simp <;> omega)
  have hstub : ∀ v ∈ stubErrcode, v ∈ cpuErrcode := by decide
  have hlen : m.interrupted.length = 5 := rfl
  by_cases hs : v.val ∈ stubErrcode
  · obtain ⟨c, rfl⟩ : ∃ c, code = some c :=
      Option.isSome_iff_exists.mp (by rw [hcode]; simpa using hstub v hs)
    simp only [Option.toList_some, List.singleton_append] at hframe
    rw [Handler.code, if_pos hs, exceptionErrcode_run fs len hframe (by omega), hworld, hlen]
    simp [exceptionEntry, passedCode, hs]
  · rw [Handler.code, if_neg hs]
    cases code with
    | none =>
      have hcpu : v.val ∉ cpuErrcode := by simpa using hcode
      rw [exceptionNoErrcode_run fs len hframe (by simp [hlen]; omega), hworld]
      simp [exceptionEntry, passedCode, hs, hcpu, hlen]
    | some c =>
      have hcpu : v.val ∈ cpuErrcode := by simpa using hcode
      rw [exceptionNoErrcode_run fs len hframe (by simp [hlen]; omega), hworld]
      simp [exceptionEntry, passedCode, hs, hcpu, hlen]

end Stubs

def printedBytes : Printed → Option (List UInt8)
  | [] => some []
  | (fmt, args) :: rest => (printk fmt args).bind fun (out, _) => (printedBytes rest).map (out ++ ·)

theorem formatLoop_text (pct : List UInt8) {text : List UInt8} (htext : ∀ c ∈ text, c ≠ 37)
    (fmt : List UInt8) (args : List Arg) :
    formatLoop (casesWith pct) (text ++ fmt) args =
      (formatLoop (casesWith pct) fmt args).map fun (rest, args) => (text ++ rest, args) := by
  induction text with
  | nil => simp
  | cons c text ih =>
    simp only [List.mem_cons, forall_eq_or_imp] at htext
    rw [List.cons_append, formatLoop_lit htext.1, ih htext.2]
    cases formatLoop (casesWith pct) fmt args <;> rfl

theorem printk_one {before after : List UInt8} {d : Directive} {a : Arg} (hd : d.handled = true)
    (ha : d.Takes a) (hbefore : ∀ c ∈ before, c ≠ 37) (hafter : ∀ c ∈ after, c ≠ 37) :
    printk (before ++ 37 :: (d.letters ++ after)) [a] =
      some (before ++ (printedText d a ++ after), []) := by
  have hend := formatLoop_text [37] hafter [] []
  rw [List.append_nil] at hend
  rw [printk, printkCase_eq, formatLoop_text _ hbefore, formatLoop_handled hd ha, hend]
  simp [formatLoop]

theorem printk_text {text : List UInt8} (htext : ∀ c ∈ text, c ≠ 37) :
    printk text [] = some (text, []) := by
  have h := formatLoop_text [37] htext [] []
  rw [List.append_nil] at h
  rw [printk, printkCase_eq, h]
  simp [formatLoop]

theorem exceptionHandler_text (v : Fin 32) (code : BitVec 64) :
    printedBytes (exceptionHandler (BitVec.ofNat 64 v) code) =
      some (ascii "\n!!! CPU EXCEPTION " ++ numeral 10 v ++ ascii " !!!\nError code: 0x0x" ++
        numeral 16 (code.toNat % 2 ^ 32) ++ ascii "\nKernel halted.\n") := by
  have hfirst : ascii "\n!!! CPU EXCEPTION %d !!!\n" =
      ascii "\n!!! CPU EXCEPTION " ++ 37 :: (Directive.signed.letters ++ ascii " !!!\n") := by
        decide +kernel
  have hsecond : ascii "Error code: 0x%x\n" =
      ascii "Error code: 0x" ++ 37 :: (Directive.hex.letters ++ ascii "\n") := by decide +kernel
  have hjoin : ascii " !!!\nError code: 0x0x" = ascii " !!!\n" ++ ascii "Error code: 0x" ++
      [48, 120] := by
    decide +kernel
  have htext : ∀ v : Fin 32, printedText .signed (.int ((BitVec.ofNat 64 v).setWidth 32)) =
      numeral 10 v := by
    decide +kernel
  have hvector := printk_one rfl (.signed ((BitVec.ofNat 64 v).setWidth 32))
    (show ∀ c ∈ ascii "\n!!! CPU EXCEPTION ", c ≠ 37 by decide +kernel)
    (show ∀ c ∈ ascii " !!!\n", c ≠ 37 by decide +kernel)
  have hcode := printk_one rfl (.hex (code.setWidth 32))
    (show ∀ c ∈ ascii "Error code: 0x", c ≠ 37 by decide +kernel)
    (show ∀ c ∈ ascii "\n", c ≠ 37 by decide +kernel)
  have hhalted := printk_text (show ∀ c ∈ ascii "Kernel halted.\n", c ≠ 37 by decide +kernel)
  have hlast : ascii "\nKernel halted.\n" = ascii "\n" ++ ascii "Kernel halted.\n" := by
    decide +kernel
  rw [exceptionHandler, hfirst, hsecond, hjoin, hlast]
  have hhex : printedText .hex (.int (code.setWidth 32)) =
      [48, 120] ++ numeral 16 (code.toNat % 2 ^ 32) := by
    simp [printedText, valueText]
  simp only [printedBytes, hvector, hcode, hhalted, htext, hhex, Option.bind_some, Option.map_some,
    List.append_assoc, List.append_nil]

theorem entry_aligned {a k : ℕ} (hk : k ≤ a / 16 * 16) :
    (BitVec.ofNat 64 (a / 16 * 16 - k)).toNat % 16 = (16 - k % 16) % 16 := by
  rw [BitVec.toNat_ofNat]
  omega

section Main
variable {κ : Type} (l : Layout) (ist : ℕ → BitVec 64) (mem₀ : Mem) (fs : Functions κ)
  (len : Instr CFunction → BitVec 64) (m : Machine κ)

/-- Once the tables are set up, every exception ends in `exception_handler` with its vector.
The error code gets there as well, except for the four vectors whose stub does not expect
one, and the stack is aligned as a C function expects it, except for the same four. Every
interrupt without a handler is reported as a general protection fault. -/
theorem exceptions_reported (htables : ∀ a, l.InTables a → m.mem a = (bootTables l ist mem₀).1 a)
    (hroom : 128 ≤ m.rsp.toNat / 16 * 16) :
    (∀ (ext : Bool) (v : Fin 32) (code : Option (BitVec 64)), code.isSome =
      decide (v.val ∈ cpuErrcode) →
      ∃ sp, interrupt l fs len (bootTables l ist mem₀).2 ext (BitVec.ofNat 8 v) code m =
          some (.error (fs.exceptionHandler sp (BitVec.ofNat 64 v)
            (if v.val ∈ [17, 21, 29, 30] then 0 else code.getD 0) m.world)) ∧
        sp.toNat % 16 = if v.val ∈ [17, 21, 29, 30] then 0 else 8) ∧
    (∀ v : BitVec 8, 32 ≤ v.toNat → v.toNat ≠ 33 →
      ∃ sp, interrupt l fs len (bootTables l ist mem₀).2 true v none m =
          some (.error (fs.exceptionHandler sp 13 (BitVec.ofNat 64 (8 * v.toNat + 3)) m.world)) ∧
        sp.toNat % 16 = 8) ∧
    ∀ (v : Fin 32) (code : BitVec 64), printedBytes (exceptionHandler (BitVec.ofNat 64 v) code) =
      some (ascii "\n!!! CPU EXCEPTION " ++ numeral 10 v ++ ascii " !!!\nError code: 0x0x" ++
        numeral 16 (code.toNat % 2 ^ 32) ++ ascii "\nKernel halted.\n") := by
  have hin := bootTables_installed l ist mem₀ htables
  have hfour : ∀ v : Fin 32, v.val ∈ cpuErrcode ∧ v.val ∉ stubErrcode ↔
      v.val ∈ [17, 21, 29, 30] := by
    decide
  have hnone : ∀ v : Fin 32, v.val ∉ stubErrcode → v.val ∉ [17, 21, 29, 30] →
      v.val ∉ cpuErrcode := by
    decide
  refine ⟨?_, ?_, exceptionHandler_text⟩
  · intro ext v code hcode
    refine ⟨exceptionEntry m v, ?_, ?_⟩
    · rw [interrupt_exception hin hroom ext v hcode, passedCode]
      by_cases hs : v.val ∈ stubErrcode
      · have h4 : v.val ∉ [17, 21, 29, 30] := fun h => ((hfour v).mpr h).2 hs
        rw [if_pos hs, if_neg h4]
      · rw [if_neg hs]
        by_cases h4 : v.val ∈ [17, 21, 29, 30]
        · rw [if_pos h4]
        · have hcode' : code = none := by simpa [hnone v hs h4] using hcode
          rw [if_neg h4, hcode', Option.getD_none]
    · simp only [exceptionEntry, hfour]
      split_ifs
      · exact entry_aligned hroom
      · exact entry_aligned (by omega)
  · intro v h32 h33
    refine ⟨exceptionEntry m 13, ?_, entry_aligned (by rw [if_neg (by decide)]; omega)⟩
    rw [interrupt_empty hin h32 h33]
    exact interrupt_exception hin hroom true 13 rfl

/-- A keyboard interrupt leaves every register and the memory of the interrupted code as they
were, with the two C functions run in between. Their stack is eight bytes off the alignment
that the calling convention asks for. -/
theorem keyboard_interrupt_transparent
    (htables : ∀ a, l.InTables a → m.mem a = (bootTables l ist mem₀).1 a)
    (hroom : 176 + fs.depth ≤ m.rsp.toNat / 16 * 16)
    (hdata : ∀ a ∈ fs.data, a < m.rsp.toNat / 16 * 16 - (176 + fs.depth) ∨
      m.rsp.toNat / 16 * 16 ≤ a) (ext : Bool) :
    ∃ sp mem', interrupt l fs len (bootTables l ist mem₀).2 ext 33 none m = some (.ok { m with
        mem := mem'
        world := fs.picSendEoi sp 1 (fs.ps2Handler sp m.world) }) ∧
      sp.toNat % 16 = 0 ∧
      ∀ a, a ∉ fs.data → a < m.rsp.toNat / 16 * 16 - (176 + fs.depth) ∨ m.rsp.toNat / 16 * 16 ≤ a →
        mem' a = m.mem a := by
  have hin := bootTables_installed l ist mem₀ htables
  obtain ⟨mem', hrun, hmem⟩ := keyboardHandler_run fs len (bootTables l ist mem₀).2
    (gateOf (l.handler .keyboard)) rfl hroom hdata
  have hgate : readGate m.mem (l.idt + 16 * (33 : BitVec 8).toNat) = gateOf (l.handler .keyboard) :=
    hin.keyboard
  have hentry : (keyboardEntry m).toNat % 16 = 0 := entry_aligned (by omega)
  refine ⟨keyboardEntry m, mem', ?_, hentry, hmem⟩
  rw [interrupt_handler hin hgate, Handler.code, hrun]

end Main

def noteHandler : Handler → BitVec 64
  | .exception v => BitVec.ofNat 64 (0x100000 + 64 * v)
  | .keyboard => 0x200000

theorem noteHandler_injective : Function.Injective noteHandler := by
  intro h h' heq
  have hval := congrArg BitVec.toNat heq
  cases h with
  | exception v =>
    cases h' with
    | exception w =>
      simp [noteHandler] at hval
      rw [Fin.ext (show v.val = w.val by omega)]
    | keyboard =>
      simp [noteHandler] at hval
      omega
  | keyboard =>
    cases h' with
    | exception w =>
      simp [noteHandler] at hval
      omega
    | keyboard => rfl

theorem noteAreas_apart : Apart [(0x1000, 4096), (0x2000, 10), (0x2100, 24), (0x2200, 10)] := by
  simp [Apart]

theorem noteIdt_lt : 0x1000 + 4096 ≤ 2 ^ 64 := by decide

theorem noteGdt_lt : 0x2100 + 24 ≤ 2 ^ 64 := by decide

def noteLayout : Layout :=
  ⟨0x1000, 0x2000, 0x2100, 0x2200, noteHandler, noteIdt_lt, noteGdt_lt, noteAreas_apart,
    noteHandler_injective⟩

def noteReturn (note : Machine (List ℕ) → ℕ) (m : Machine (List ℕ)) : Machine (List ℕ) :=
  { m with rsp := m.rsp + 8, rip := m.word 0, world := note m :: m.world }

def noteFunctions : Functions (List ℕ) where
  callee
    | .ps2Handler, m => .ok (noteReturn (fun _ => 60) m)
    | .picSendEoi, m => .ok (noteReturn (fun m => ((m.regs .rdi).setWidth 8).toNat) m)
    | .exceptionHandler, m =>
      .error (m.rsp.toNat % 16 :: (m.regs .rdi).toNat :: (m.regs .rsi).toNat :: m.world)
  data := ∅
  depth := 0
  ps2Handler _ w := 60 :: w
  picSendEoi _ irq w := irq.toNat :: w
  exceptionHandler sp vector code w := sp.toNat % 16 :: vector.toNat :: code.toNat :: w
  ps2Handler_conforms _ := ⟨_, rfl, rfl, rfl, fun _ _ => rfl, fun _ _ _ => rfl, rfl⟩
  picSendEoi_conforms _ := ⟨_, rfl, rfl, rfl, fun _ _ => rfl, fun _ _ _ => rfl, rfl⟩
  exceptionHandler_stops _ := rfl

def noteMachine : Machine (List ℕ) :=
  { regs := fun _ => 7
    rsp := 0x80008
    rip := 0x123456
    cs := 8
    ss := 0x10
    flags := 0x202
    mem := (bootTables noteLayout (fun _ => 0) (fun _ => 0xFF)).1
    world := [] }

/-- A vector without a gate, a page fault, and an alignment check, whose code is lost. -/
theorem exceptions_reported_note :
    (interrupt noteLayout noteFunctions (fun _ => 1)
      (bootTables noteLayout (fun _ => 0) (fun _ => 0xFF)).2 true 32 none noteMachine =
        some (.error [8, 13, 259])) ∧
    (interrupt noteLayout noteFunctions (fun _ => 1)
      (bootTables noteLayout (fun _ => 0) (fun _ => 0xFF)).2 false 14 (some 2) noteMachine =
        some (.error [8, 14, 2])) ∧
    (interrupt noteLayout noteFunctions (fun _ => 1)
      (bootTables noteLayout (fun _ => 0) (fun _ => 0xFF)).2 false 17 (some 5) noteMachine =
        some (.error [0, 17, 0])) ∧
    printedBytes (exceptionHandler 14 2) =
      some (ascii "\n!!! CPU EXCEPTION 14 !!!\nError code: 0x0x2\nKernel halted.\n") := by
  obtain ⟨hcpu, hempty, htext⟩ := exceptions_reported noteLayout (fun _ => 0) (fun _ => 0xFF)
    noteFunctions (fun _ => 1) noteMachine (fun _ _ => rfl) (by decide)
  obtain ⟨sp₁, hrun₁, hsp₁⟩ := hempty 32 (by decide) (by decide)
  obtain ⟨sp₂, hrun₂, hsp₂⟩ := hcpu false 14 (some 2) rfl
  obtain ⟨sp₃, hrun₃, hsp₃⟩ := hcpu false 17 (some 5) rfl
  refine ⟨hrun₁.trans ?_, hrun₂.trans ?_, hrun₃.trans ?_, (htext 14 2).trans ?_⟩
  · change some (Except.error [sp₁.toNat % 16, 13, 259]) = _
    rw [hsp₁]
  · change some (Except.error [sp₂.toNat % 16, 14, 2]) = _
    rw [hsp₂]
    rfl
  · change some (Except.error [sp₃.toNat % 16, 17, 0]) = _
    rw [hsp₃]
    rfl
  · decide +kernel

theorem keyboard_interrupt_transparent_note : ∃ sp mem',
    interrupt noteLayout noteFunctions (fun _ => 1)
      (bootTables noteLayout (fun _ => 0) (fun _ => 0xFF)).2 true 33
      none noteMachine = some (.ok { noteMachine with mem := mem', world := [1, 60] }) ∧
    (sp : BitVec 64).toNat % 16 = 0 ∧ ∀ a, a < 0x7FF50 ∨ 0x80000 ≤ a →
      mem' a = noteMachine.mem a := by
  obtain ⟨sp, mem', hrun, hsp, hmem⟩ :=
    keyboard_interrupt_transparent noteLayout (fun _ => 0) (fun _ => 0xFF)
    noteFunctions (fun _ => 1) noteMachine (fun _ _ => rfl) (by decide)
      (by simp [noteFunctions]) true
  exact ⟨sp, mem', hrun, hsp, fun a ha => hmem a (by simp [noteFunctions]) ha⟩

end XldKernel.Interrupts
