import XldKernel.MemoryRoutines
import XldKernel.X86

/-!
# The descriptor tables

Source: `kernel/src/gdt.c` and `kernel/src/idt.c`. The tables are written to memory field by
field, and the table registers are loaded from the packed structures in front of them.
-/

namespace XldKernel.Interrupts
open ByteMemory CString X86

inductive Handler where
  | exception (v : Fin 32)
  | keyboard
  deriving DecidableEq

def Apart (areas : List (ℕ × ℕ)) : Prop :=
  areas.Pairwise fun x y => x.1 + x.2 ≤ y.1 ∨ y.1 + y.2 ≤ x.1

structure Layout where
  idt : ℕ
  idtp : ℕ
  gdt : ℕ
  gp : ℕ
  handler : Handler → BitVec 64
  idt_lt : idt + 4096 ≤ 2 ^ 64
  gdt_lt : gdt + 24 ≤ 2 ^ 64
  apart : Apart [(idt, 4096), (idtp, 10), (gdt, 24), (gp, 10)]
  handler_injective : Function.Injective handler

def readTable (mem : Mem) (a : ℕ) : TableRegister := ⟨load mem (a + 2) 8, load mem a 2⟩

def gdtSetGate (gdt num : ℕ) (base : BitVec 64) (limit : BitVec 32) (access gran : BitVec 8)
    (mem : Mem) : Mem :=
  let e := gdt + 8 * num
  let mem := store mem (e + 2) 2 (base &&& 0xFFFF).toNat
  let mem := store mem (e + 4) 1 (base >>> 16 &&& 0xFF).toNat
  let mem := store mem (e + 7) 1 (base >>> 24 &&& 0xFF).toNat
  let mem := store mem e 2 (limit &&& 0xFFFF).toNat
  let mem := store mem (e + 6) 1 ((limit >>> 16 &&& 0x0F).setWidth 8 ||| gran &&& 0xF0).toNat
  store mem (e + 5) 1 access.toNat

def gdtInit (l : Layout) (mem : Mem) : Mem × TableRegister :=
  let mem := store mem l.gp 2 (8 * 3 - 1)
  let mem := store mem (l.gp + 2) 8 l.gdt
  let mem := gdtSetGate l.gdt 0 0 0 0 0 mem
  let mem := gdtSetGate l.gdt 1 0 0 0x9A 0xA0 mem
  let mem := gdtSetGate l.gdt 2 0 0 0x92 0xA0 mem
  (mem, readTable mem l.gp)

def idtSetGate (idt : ℕ) (num : BitVec 8) (handler : BitVec 64) (mem : Mem) : Mem :=
  let e := idt + 16 * num.toNat
  let mem := store mem e 2 (handler &&& 0xFFFF).toNat
  let mem := store mem (e + 2) 2 0x08
  let mem := store mem (e + 4) 1 0
  let mem := store mem (e + 5) 1 0x8E
  let mem := store mem (e + 6) 2 (handler >>> 16 &&& 0xFFFF).toNat
  let mem := store mem (e + 8) 4 (handler >>> 32 &&& 0xFFFFFFFF).toNat
  store mem (e + 12) 4 0

def setExceptionGates (l : Layout) (n : ℕ) (mem : Mem) : Mem :=
  (List.range n).foldl
    (fun mem i =>
      idtSetGate l.idt (BitVec.ofNat 8 i) (l.handler (.exception (Fin.ofNat 32 i))) mem) mem

def idtInit (l : Layout) (mem : Mem) : Mem × TableRegister :=
  let mem := (memset mem l.idt 0 4096).2
  let mem := setExceptionGates l 32 mem
  let mem := idtSetGate l.idt (32 + 1) (l.handler .keyboard) mem
  let mem := store mem l.idtp 2 (4096 - 1)
  let mem := store mem (l.idtp + 2) 8 l.idt
  (mem, readTable mem l.idtp)

/-- The two tables in the order of `kmain`. `ist` stands for the task state segment, which
the kernel does not load. -/
def bootTables (l : Layout) (ist : ℕ → BitVec 64) (mem : Mem) : Mem × Tables :=
  let g := gdtInit l mem
  let i := idtInit l g.1
  (i.1, ⟨i.2, g.2, ist⟩)

def gateOf (handler : BitVec 64) : Gate := ⟨handler, 8, 0, 0xE, true⟩

theorem readGate_congr {mem mem' : Mem} {a : ℕ} (h : ∀ b, a ≤ b → b < a + 16 → mem b = mem' b) :
    readGate mem a = readGate mem' a := by
  have hload : ∀ off n, off + n ≤ 16 → load mem (a + off) n = load mem' (a + off) n :=
    fun off n hn => load_congr fun i hi => h _ (by omega) (by omega)
  have h0 := hload 0 2 (by omega)
  rw [Nat.add_zero] at h0
  simp only [readGate, h0, hload 2 2 (by omega), hload 4 1 (by omega), hload 5 1 (by omega),
    hload 6 2 (by omega), hload 8 4 (by omega)]

theorem idtSetGate_apart (idt : ℕ) (num : BitVec 8) (handler : BitVec 64) (mem : Mem) {a : ℕ}
    (h : a < idt + 16 * num.toNat ∨ idt + 16 * num.toNat + 16 ≤ a) :
    idtSetGate idt num handler mem a = mem a := by
  simp only [idtSetGate]
  rw [store_apart _ (by omega), store_apart _ (by omega), store_apart _ (by omega),
    store_apart _ (by omega), store_apart _ (by omega), store_apart _ (by omega),
      store_apart _ (by omega)]

theorem toNat_field (v : BitVec 64) (i n : ℕ) (hn : n ≤ 64) :
    (v >>> i &&& BitVec.ofNat 64 (2 ^ n - 1)).toNat = v.toNat / 2 ^ i % 2 ^ n := by
  have hmask : (2 ^ n - 1) % 2 ^ 64 = 2 ^ n - 1 := by
    apply Nat.mod_eq_of_lt
    have := Nat.pow_le_pow_right (n := 2) (by omega) hn
    have := Nat.two_pow_pos n
    omega
  rw [BitVec.toNat_and, BitVec.toNat_ofNat, hmask, Nat.and_two_pow_sub_one_eq_mod,
    BitVec.toNat_ushiftRight, Nat.shiftRight_eq_div_pow]

theorem readGate_idtSetGate (idt : ℕ) (num : BitVec 8) (handler : BitVec 64) (mem : Mem) :
    readGate (idtSetGate idt num handler mem) (idt + 16 * num.toNat) = gateOf handler := by
  have hlow : (handler &&& 0xFFFF).toNat = handler.toNat % 2 ^ 16 := by
    simpa using toNat_field handler 0 16 (by omega)
  have hmid : (handler >>> 16 &&& 0xFFFF).toNat = handler.toNat / 2 ^ 16 % 2 ^ 16 :=
    toNat_field handler 16 16 (by omega)
  have hhigh : (handler >>> 32 &&& 0xFFFFFFFF).toNat = handler.toNat / 2 ^ 32 % 2 ^ 32 :=
    toNat_field handler 32 32 (by omega)
  have hlt := handler.isLt
  simp (disch := omega) only [readGate, idtSetGate, load_store_apart, load_store_self, hlow,
    hmid, hhigh]
  simp only [gateOf, Gate.mk.injEq]
  refine ⟨?_, by decide, by decide, by decide, by decide⟩
  apply BitVec.eq_of_toNat_eq
  rw [BitVec.toNat_ofNat]
  omega

theorem readGate_idtSetGate_ne {idt v : ℕ} {num : BitVec 8} (h : v ≠ num.toNat)
    (handler : BitVec 64) (mem : Mem) :
    readGate (idtSetGate idt num handler mem) (idt + 16 * v) = readGate mem (idt + 16 * v) := by
  apply readGate_congr
  intro b hb hlt
  exact idtSetGate_apart _ _ _ _ (by omega)

theorem setExceptionGates_gate (l : Layout) (mem : Mem) {n v : ℕ} (hn : n ≤ 32) :
    readGate (setExceptionGates l n mem) (l.idt + 16 * v) =
      if v < n then gateOf (l.handler (.exception (Fin.ofNat 32 v)))
        else readGate mem (l.idt + 16 * v) := by
  induction n with
  | zero => rfl
  | succ n ih =>
    have hnum : (BitVec.ofNat 8 n).toNat = n := by
      rw [BitVec.toNat_ofNat]
      omega
    rw [setExceptionGates, List.range_succ, List.foldl_concat]
    by_cases hv : v = n
    · have hgate :=
        readGate_idtSetGate l.idt (BitVec.ofNat 8 n) (l.handler (.exception (Fin.ofNat 32 n)))
        (setExceptionGates l n mem)
      rw [hnum] at hgate
      rw [hv, if_pos (by omega)]
      exact hgate
    · rw [readGate_idtSetGate_ne (by rwa [hnum])]
      refine (ih (by omega)).trans ?_
      split_ifs <;> first | rfl | omega

theorem setExceptionGates_apart (l : Layout) (mem : Mem) {n a : ℕ} (hn : n ≤ 32)
    (ha : a < l.idt ∨ l.idt + 4096 ≤ a) : setExceptionGates l n mem a = mem a := by
  induction n with
  | zero => rfl
  | succ n ih =>
    have hnum : (BitVec.ofNat 8 n).toNat = n := by
      rw [BitVec.toNat_ofNat]
      omega
    rw [setExceptionGates, List.range_succ, List.foldl_concat, idtSetGate_apart _ _ _ _ (by omega)]
    exact ih (by omega)

structure Installed (l : Layout) (t : Tables) (mem : Mem) : Prop where
  idt : t.idt = ⟨l.idt, 4095⟩
  exception : ∀ v : Fin 32, readGate mem (l.idt + 16 * v) = gateOf (l.handler (.exception v))
  keyboard : readGate mem (l.idt + 16 * 33) = gateOf (l.handler .keyboard)
  empty : ∀ v, 32 ≤ v → v < 256 → v ≠ 33 → (readGate mem (l.idt + 16 * v)).kind = 0
  code : ∀ ext, codeFault t ext mem 8 = none

def Layout.InTables (l : Layout) (a : ℕ) : Prop :=
  l.idt ≤ a ∧ a < l.idt + 4096 ∨ l.gdt ≤ a ∧ a < l.gdt + 24

theorem Layout.areas_apart (l : Layout) :
    (l.idt + 4096 ≤ l.idtp ∨ l.idtp + 10 ≤ l.idt) ∧ (l.idt + 4096 ≤ l.gdt ∨ l.gdt + 24 ≤ l.idt) ∧
      (l.idtp + 10 ≤ l.gdt ∨ l.gdt + 24 ≤ l.idtp) ∧ (l.gdt + 24 ≤ l.gp ∨ l.gp + 10 ≤ l.gdt) := by
  have h := l.apart
  simp only [Apart, List.pairwise_cons, List.mem_cons, forall_eq_or_imp] at h
  exact ⟨h.1.1, h.1.2.1, h.2.1.1, h.2.2.1.1⟩

theorem idtInit_gates (l : Layout) (mem : Mem) {v : ℕ} (hv : v < 256) :
    readGate (idtInit l mem).1 (l.idt + 16 * v) =
      if v < 32 then gateOf (l.handler (.exception (Fin.ofNat 32 v)))
      else if v = 33 then gateOf (l.handler .keyboard)
      else ⟨0, 0, 0, 0, false⟩ := by
  obtain ⟨hidtp, -⟩ := l.areas_apart
  have hstores : readGate (idtInit l mem).1 (l.idt + 16 * v) =
      readGate (idtSetGate l.idt (32 + 1) (l.handler .keyboard)
        (setExceptionGates l 32 (fill mem l.idt 4096 0))) (l.idt + 16 * v) := by
    apply readGate_congr
    intro b hb hlt
    have hmem : (memset mem l.idt 0 4096).2 = fill mem l.idt 4096 0 := by
      rw [memset_eq (by have := l.idt_lt; omega) l.idt_lt]
      rfl
    simp only [idtInit, hmem]
    rw [store_apart _ (by omega), store_apart _ (by omega)]
  have h33 : (32 + 1 : BitVec 8).toNat = 33 := rfl
  rw [hstores]
  by_cases hkey : v = 33
  · have hgate := readGate_idtSetGate l.idt (32 + 1) (l.handler .keyboard)
      (setExceptionGates l 32 (fill mem l.idt 4096 0))
    rw [h33] at hgate
    rw [if_neg (by omega), if_pos hkey, hkey, hgate]
  · rw [readGate_idtSetGate_ne (by rwa [h33]), setExceptionGates_gate l _ le_rfl, if_neg hkey]
    by_cases hlow : v < 32
    · rw [if_pos hlow, if_pos hlow]
    · rw [if_neg hlow, if_neg hlow]
      have hzero : readGate (fill mem l.idt 4096 0) (l.idt + 16 * v) =
          readGate (fun _ => 0) (l.idt + 16 * v) := by
        apply readGate_congr
        intro b hb hlt
        exact fill_inside _ (by omega)
      rw [hzero]
      simp [readGate, load]

theorem idtInit_apart (l : Layout) (mem : Mem) {a : ℕ} (hidt : a < l.idt ∨ l.idt + 4096 ≤ a)
    (hidtp : a < l.idtp ∨ l.idtp + 10 ≤ a) : (idtInit l mem).1 a = mem a := by
  simp only [idtInit]
  rw [store_apart _ (by omega), store_apart _ (by omega),
    idtSetGate_apart _ _ _ _ (by rw [show (32 + 1 : BitVec 8).toNat = 33 from rfl]; omega),
    setExceptionGates_apart l _ le_rfl hidt, memset_eq (by have := l.idt_lt; omega) l.idt_lt]
  exact fill_apart _ hidt

theorem gdtInit_code (l : Layout) (mem : Mem) :
    load (gdtInit l mem).1 (l.gdt + 8 + 5) 1 = 0x9A ∧
      load (gdtInit l mem).1 (l.gdt + 8 + 6) 1 = 0xA0 ∧
      (gdtInit l mem).2 = ⟨l.gdt, 23⟩ := by
  obtain ⟨-, -, -, hgp⟩ := l.areas_apart
  have hlt := l.gdt_lt
  refine ⟨?_, ?_, ?_⟩
  · simp (disch := omega) only [gdtInit, gdtSetGate, load_store_apart, load_store_self]
    decide
  · simp (disch := omega) only [gdtInit, gdtSetGate, load_store_apart, load_store_self]
    decide
  · simp (disch := omega) only [gdtInit, gdtSetGate, readTable, load_store_apart, load_store_self]
    simp only [TableRegister.mk.injEq]
    omega

theorem bootTables_installed (l : Layout) (ist : ℕ → BitVec 64) (mem : Mem) {mem' : Mem}
    (h : ∀ a, l.InTables a → mem' a = (bootTables l ist mem).1 a) :
    Installed l (bootTables l ist mem).2 mem' := by
  obtain ⟨hidtp, hgdt, hmid, -⟩ := l.areas_apart
  obtain ⟨haccess, hupper, hreg⟩ := gdtInit_code l mem
  have hidt := l.idt_lt
  have hgates : ∀ v < 256, readGate mem' (l.idt + 16 * v) =
      readGate (idtInit l (gdtInit l mem).1).1 (l.idt + 16 * v) := by
    intro v hv
    apply readGate_congr
    intro b hb hlt
    exact h b (.inl (by omega))
  constructor
  · simp only [bootTables, idtInit, readTable]
    simp (disch := omega) only [load_store_apart, load_store_self]
    simp only [TableRegister.mk.injEq]
    omega
  · intro v
    rw [hgates v (by omega), idtInit_gates l _ (by omega), if_pos v.isLt]
    simp
  · rw [hgates 33 (by omega), idtInit_gates l _ (by omega)]
    rfl
  · intro v hlow hhigh hne
    rw [hgates v hhigh, idtInit_gates l _ hhigh, if_neg (by omega), if_neg hne]
  · intro ext
    have hload : ∀ off, off < 24 → load mem' (l.gdt + off) 1 =
        load (gdtInit l mem).1 (l.gdt + off) 1 := by
      intro off hoff
      apply load_congr
      intro i hi
      rw [h _ (.inr (by omega))]
      exact idtInit_apart l _ (by omega) (by omega)
    have hbase : (bootTables l ist mem).2.gdt = ⟨l.gdt, 23⟩ := hreg
    have h13 := hload (8 + 5) (by omega)
    have h14 := hload (8 + 6) (by omega)
    simp only [← Nat.add_assoc] at h13 h14
    simp [codeFault, hbase, h13, h14, haccess, hupper]

end XldKernel.Interrupts
