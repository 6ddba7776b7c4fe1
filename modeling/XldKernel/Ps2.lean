import XldKernel.ByteMemory
import XldKernel.Klog

/-!
# The keyboard interrupt

Source: `ps2_handler` of `kernel/src/ps2.c`. One call reads the status port and, when a byte
is there, the data port. What it prints are its calls of `printk`, each a format with its
arguments. The two shift keys share one flag, and a shift code is looked at before the
prefix that came with it.
-/

namespace XldKernel.Ps2
open ByteMemory Klog

def ascii (text : String) : List UInt8 := text.toList.map fun c => UInt8.ofNat c.toNat

def scancodeToAscii : List UInt8 :=
  [0, 0, 49, 50, 51, 52, 53, 54, 55, 56, 57, 48, 45, 61, 8,
    9, 113, 119, 101, 114, 116, 121, 117, 105, 111, 112, 91, 93, 10, 0,
    97, 115, 100, 102, 103, 104, 106, 107, 108, 59, 39, 96, 0, 92, 122, 120,
    99, 118, 98, 110, 109, 44, 46, 47, 0, 42, 0, 32]

def scancodeToAsciiShift : List UInt8 :=
  [0, 0, 33, 64, 35, 36, 37, 94, 38, 42, 40, 41, 95, 43, 8,
    9, 81, 87, 69, 82, 84, 89, 85, 73, 79, 80, 123, 125, 10, 0,
    65, 83, 68, 70, 71, 72, 74, 75, 76, 58, 34, 126, 0, 124, 90, 88,
    67, 86, 66, 78, 77, 60, 62, 63, 0, 42, 0, 32]

structure Keyboard where
  shiftDown : Bool
  extended : Bool
  deriving DecidableEq

abbrev Printed := List (List UInt8 × List Arg)

def printKey (shiftDown : Bool) (code : UInt8) : Printed :=
  let map := if shiftDown then scancodeToAsciiShift else scancodeToAscii
  if code.toNat < scancodeToAscii.length then
    let c := map.getD code.toNat 0
    if c ≠ 0 then [(ascii "%c", [.int (c.toBitVec.setWidth 32)])]
    else [(ascii "[ps2:unk 0x%x]", [.int (code.toBitVec.setWidth 32)])]
  else []

def ps2Handler (status sc : UInt8) (k : Keyboard) : Keyboard × Printed :=
  if status &&& 0x01 = 0 then (k, [])
  else
    let raw := (ascii "[ps2] scancode: 0x%x\n", [Arg.int (sc.toBitVec.setWidth 32)])
    if sc = 0xE0 then (⟨k.shiftDown, true⟩, [raw])
    else
      let isBreak := sc &&& 0x80 ≠ 0
      let code := sc &&& 0x7F
      if code = 0x2A ∨ code = 0x36 then (⟨!isBreak, false⟩, [raw])
      else if k.extended then (⟨k.shiftDown, false⟩, [raw])
      else if isBreak then (k, [raw])
      else (k, raw :: printKey k.shiftDown code)

def run (polls : List (UInt8 × UInt8)) : Keyboard :=
  polls.foldl (fun k p => (ps2Handler p.1 p.2 k).1) ⟨false, false⟩

def delivered (polls : List (UInt8 × UInt8)) : List UInt8 :=
  (polls.filter fun p => p.1 &&& 0x01 ≠ 0).map Prod.snd

def unprefixed (bs : List UInt8) : List UInt8 :=
  (((0 :: bs).zip bs).filter fun p => p.1 ≠ 0xE0).map Prod.snd

/-- The last of these two codes that stands alone is the one that presses the key. -/
def Held (press release : UInt8) (bs : List UInt8) : Prop :=
  ((unprefixed bs).filter fun b => b = press ∨ b = release).getLast? = some press

def ShiftHeld (bs : List UInt8) : Prop := Held 0x2A 0xAA bs ∨ Held 0x36 0xB6 bs

instance (bs : List UInt8) : Decidable (ShiftHeld bs) :=
  inferInstanceAs (Decidable (_ = some _ ∨ _ = some _))

def ShiftCode (b : UInt8) : Prop := b = 0x2A ∨ b = 0x36 ∨ b = 0xAA ∨ b = 0xB6

instance (b : UInt8) : Decidable (ShiftCode b) := inferInstanceAs (Decidable (_ ∨ _))

def lastShift (bs : List UInt8) : Option UInt8 := (bs.filter fun b => ShiftCode b).getLast?

theorem shiftCode_iff (sc : UInt8) :
    (sc &&& 0x7F = 0x2A ∨ sc &&& 0x7F = 0x36 ↔ ShiftCode sc) ∧
      (ShiftCode sc → (sc &&& 0x80 = 0 ↔ sc = 0x2A ∨ sc = 0x36)) := by
  revert sc
  apply forall_byte
  decide +kernel

theorem ps2Handler_shiftDown {status : UInt8} (hfull : status &&& 0x01 ≠ 0) (sc : UInt8)
    (k : Keyboard) :
    (ps2Handler status sc k).1.shiftDown =
      if ShiftCode sc then decide (sc = 0x2A ∨ sc = 0x36) else k.shiftDown := by
  obtain ⟨hcode, hpress⟩ := shiftCode_iff sc
  rw [ps2Handler, if_neg hfull]
  dsimp only
  by_cases hext : sc = 0xE0
  · rw [if_pos hext, if_neg (by rw [hext]; decide)]
  rw [if_neg hext]
  by_cases hshift : ShiftCode sc
  · rw [if_pos (hcode.mpr hshift), if_pos hshift]
    simp [← hpress hshift]
  · rw [if_neg (mt hcode.mp hshift), if_neg hshift]
    split_ifs <;> rfl

theorem lastShift_append (bs : List UInt8) (b : UInt8) :
    lastShift (bs ++ [b]) = if ShiftCode b then some b else lastShift bs := by
  rw [lastShift, List.filter_append]
  by_cases hb : ShiftCode b
  · rw [List.filter_singleton, if_pos hb]
    simp [hb]
  · rw [List.filter_singleton, if_neg hb]
    simp [hb, lastShift]

theorem run_shiftDown (polls : List (UInt8 × UInt8)) :
    (run polls).shiftDown = true ↔
      ∃ b, lastShift (delivered polls) = some b ∧ (b = 0x2A ∨ b = 0x36) := by
  induction polls using List.reverseRecOn with
  | nil => simp [run, delivered, lastShift]
  | append_singleton polls p ih =>
    have hrun : run (polls ++ [p]) = (ps2Handler p.1 p.2 (run polls)).1 := by
      rw [run, List.foldl_append]
      rfl
    rw [hrun]
    by_cases hfull : p.1 &&& 0x01 = 0
    · have hdelivered : delivered (polls ++ [p]) = delivered polls := by simp [delivered, hfull]
      rw [ps2Handler, if_pos hfull, hdelivered]
      exact ih
    · have hdelivered : delivered (polls ++ [p]) = delivered polls ++ [p.2] := by
        simp [delivered, hfull]
      rw [hdelivered, lastShift_append, ps2Handler_shiftDown hfull]
      split_ifs with hshift
      · simp
      · exact ih

theorem Held.mem {press release : UInt8} {bs : List UInt8} (h : Held press release bs) :
    press ∈ bs := by
  obtain ⟨p, hp, rfl⟩ := List.mem_map.mp (List.mem_of_mem_filter (List.mem_of_getLast? h))
  exact (List.of_mem_zip (List.mem_of_mem_filter hp)).2

theorem not_shiftHeld_of_lastShift {bs : List UInt8} (h : lastShift bs = none) :
    ¬ ShiftHeld bs := by
  have hno : ∀ b ∈ bs, ¬ ShiftCode b := by
    simpa [lastShift, List.getLast?_eq_none_iff] using h
  rintro (hleft | hright)
  · exact hno _ hleft.mem (by decide)
  · exact hno _ hright.mem (by decide)

/-- The flag says whether a shift key is held exactly when the last shift code, whether it has
a prefix or not, is a press if a key is held and a release if none is. -/
theorem shift_state_iff (polls : List (UInt8 × UInt8)) :
    ((run polls).shiftDown = true ↔ ShiftHeld (delivered polls)) ↔
      ∀ b, lastShift (delivered polls) = some b →
        (b = 0x2A ∨ b = 0x36 ↔ ShiftHeld (delivered polls)) := by
  rw [run_shiftDown]
  cases hlast : lastShift (delivered polls) with
  | none =>
    have hnone := not_shiftHeld_of_lastShift hlast
    simp [hnone]
  | some b => simp

/-- Both keys pressed and one of them released; and a code with a prefix. -/
theorem shift_state_lost :
    (run [(1, 0x2A), (1, 0x36), (1, 0xAA)]).shiftDown = false ∧
      ShiftHeld (delivered [(1, 0x2A), (1, 0x36), (1, 0xAA)]) ∧
    (run [(1, 0xE0), (1, 0x2A)]).shiftDown = true ∧
      ¬ ShiftHeld (delivered [(1, 0xE0), (1, 0x2A)]) := by
  decide +kernel

end XldKernel.Ps2
