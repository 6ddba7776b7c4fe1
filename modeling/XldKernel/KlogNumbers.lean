import XldKernel.Klog
import Mathlib.Data.Nat.Digits.Lemmas

/-!
# What the printed numbers denote

`kputnum` prints the digits of its number without leading zeros, and they can be read back.
The case `d` of the formats does so too, except for the least `int`, whose negation it
takes for a negative number again.
-/

namespace XldKernel.Klog
variable {base num : ℕ}

def numeral (base num : ℕ) : List UInt8 :=
  if num = 0 then [48] else (Nat.digits base num).reverse.map digitChar

theorem digitLoop_eq (hbase : 1 < base) {room : ℕ} (hroom : (Nat.digits base num).length ≤ room)
    (buf : List UInt8) :
    digitLoop base room num buf = some (buf ++ (Nat.digits base num).map digitChar) := by
  induction room generalizing num buf with
  | zero =>
    have hnum : num = 0 :=
      Nat.digits_eq_nil_iff_eq_zero.mp (List.length_eq_zero_iff.mp (Nat.le_zero.mp hroom))
    rw [digitLoop, if_pos hnum, hnum, Nat.digits_zero, List.map_nil, List.append_nil]
  | succ room ih =>
    rw [digitLoop]
    by_cases hnum : num = 0
    · rw [if_pos hnum, hnum, Nat.digits_zero, List.map_nil, List.append_nil]
    · have hdigits := Nat.digits_eq_cons_digits_div hbase hnum
      rw [hdigits, List.length_cons] at hroom
      rw [if_neg hnum, ih (by omega), hdigits, List.map_cons, List.append_assoc]
      rfl

theorem digits_length_le (hnum : num < 2 ^ 64) (hbase : base = 10 ∨ base = 16) :
    (Nat.digits base num).length ≤ 32 := by
  rcases hbase with rfl | rfl
  · exact (Nat.digits_length_le_iff (by decide) num).mpr (hnum.trans (by norm_num))
  · exact (Nat.digits_length_le_iff (by decide) num).mpr (hnum.trans (by norm_num))

theorem one_lt_base (hbase : base = 10 ∨ base = 16) : 1 < base := by omega

theorem kputnum_eq (hnum : num < 2 ^ 64) (hbase : base = 10 ∨ base = 16) :
    kputnum num base = some (numeral base num) := by
  rw [kputnum, numeral]
  split_ifs
  · rfl
  · rw [digitLoop_eq (one_lt_base hbase) (digits_length_le hnum hbase), List.nil_append,
      Option.map_some, List.map_reverse]

def digitValue (base : ℕ) (c : UInt8) : Option ℕ :=
  let v := if 48 ≤ c ∧ c ≤ 57 then c.toNat - 48 else if 97 ≤ c ∧ c ≤ 102 then c.toNat - 87 else base
  if v < base then some v else none

def parseNat (base : ℕ) (cs : List UInt8) : Option ℕ :=
  if cs = [] then none
  else (cs.mapM (digitValue base)).map fun digits => Nat.ofDigits base digits.reverse

def parseInt (cs : List UInt8) : Option ℤ :=
  if cs.head? = some 45 then (parseNat 10 cs.tail).map fun n : ℕ => -(n : ℤ)
  else (parseNat 10 cs).map fun n : ℕ => (n : ℤ)

def Canonical (cs : List UInt8) : Prop := cs ≠ [] ∧ (cs.head? = some 48 → cs = [48])

theorem digitValue_digitChar (hbase : base = 10 ∨ base = 16) {d : ℕ} (hd : d < base) :
    digitValue base (digitChar d) = some d := by
  have hten : ∀ d < 10, digitValue 10 (digitChar d) = some d := by decide
  have hsixteen : ∀ d < 16, digitValue 16 (digitChar d) = some d := by decide
  rcases hbase with rfl | rfl
  · exact hten d hd
  · exact hsixteen d hd

theorem digitChar_eq_zero_iff {d : ℕ} (hd : d < 16) : digitChar d = 48 ↔ d = 0 := by
  have hall : ∀ d < 16, digitChar d = 48 ↔ d = 0 := by decide
  exact hall d hd

theorem mapM_digitValue (hbase : base = 10 ∨ base = 16) {ds : List ℕ} (hds : ∀ d ∈ ds, d < base) :
    (ds.map digitChar).mapM (digitValue base) = some ds := by
  induction ds with
  | nil => rfl
  | cons d ds ih =>
    obtain ⟨hd, hrest⟩ := List.forall_mem_cons.mp hds
    rw [List.map_cons, List.mapM_cons, digitValue_digitChar hbase hd, ih hrest]
    rfl

theorem parseNat_numeral (hbase : base = 10 ∨ base = 16) (num : ℕ) :
    parseNat base (numeral base num) = some num := by
  rw [numeral]
  split_ifs with hnum
  · rw [hnum]
    rcases hbase with rfl | rfl <;> decide
  · have hne : (Nat.digits base num).reverse.map digitChar ≠ [] := by
      simpa [Nat.digits_eq_nil_iff_eq_zero] using hnum
    have hlt : ∀ d ∈ (Nat.digits base num).reverse, d < base := fun d hd =>
      Nat.digits_lt_base (one_lt_base hbase) (List.mem_reverse.mp hd)
    rw [parseNat, if_neg hne, mapM_digitValue hbase hlt, Option.map_some, List.reverse_reverse,
      Nat.ofDigits_digits]

theorem canonical_numeral (hbase : base = 10 ∨ base = 16) (num : ℕ) :
    Canonical (numeral base num) := by
  rw [numeral]
  split_ifs with hnum
  · exact ⟨by simp, fun _ => rfl⟩
  · have hdigits : Nat.digits base num ≠ [] := Nat.digits_ne_nil_iff_ne_zero.mpr hnum
    have hlast := Nat.getLast_digit_ne_zero base hnum
    have hlt : (Nat.digits base num).getLast hdigits < 16 :=
      (Nat.digits_lt_base (one_lt_base hbase) (List.getLast_mem hdigits)).trans_le (by omega)
    refine ⟨by simpa using hdigits, fun hhead => absurd hhead ?_⟩
    rw [List.head?_map, List.head?_reverse, List.getLast?_eq_some_getLast hdigits, Option.map_some,
      Option.some_inj, digitChar_eq_zero_iff hlt]
    exact hlast

theorem length_numeral_le (hnum : num < 2 ^ 64) (hbase : base = 10 ∨ base = 16) :
    (numeral base num).length ≤ 32 := by
  rw [numeral]
  split_ifs
  · decide
  · rw [List.length_map, List.length_reverse]
    exact digits_length_le hnum hbase

def signedNumeral (v : ℤ) : List UInt8 :=
  if v < 0 then 45 :: numeral 10 v.natAbs else numeral 10 v.natAbs

theorem head_numeral_ne (num : ℕ) : (numeral 10 num).head? ≠ some 45 := by
  have hall : ∀ d < 10, digitChar d ≠ 45 := by decide
  intro hhead
  have hmem := List.mem_of_mem_head? hhead
  rw [numeral] at hmem
  split_ifs at hmem
  · simp at hmem
  · obtain ⟨d, hd, hc⟩ := List.mem_map.mp hmem
    exact hall d (Nat.digits_lt_base (by decide) (List.mem_reverse.mp hd)) hc

theorem parseInt_minus (num : ℕ) : parseInt (45 :: numeral 10 num) = some (-(num : ℤ)) := by
  rw [parseInt, List.head?_cons, if_pos rfl, List.tail_cons, parseNat_numeral (Or.inl rfl),
    Option.map_some]

theorem parseInt_signedNumeral (v : ℤ) : parseInt (signedNumeral v) = some v := by
  rw [signedNumeral]
  split_ifs with hneg
  · rw [parseInt_minus, Option.some_inj]
    omega
  · rw [parseInt, if_neg (head_numeral_ne _), parseNat_numeral (Or.inl rfl), Option.map_some,
      Option.some_inj]
    omega

theorem toNat_eq_natAbs {w : ℕ} {x : BitVec w} (h : 0 ≤ x.toInt) : x.toNat = x.toInt.natAbs := by
  have hlt := x.isLt
  rw [BitVec.toInt_eq_toNat_cond] at h ⊢
  split_ifs at h ⊢ <;> omega

theorem widened {v : BitVec 32} (h : 0 ≤ v.toInt) : (v.signExtend 64).toNat = v.toInt.natAbs := by
  have hsame : (v.signExtend 64).toInt = v.toInt := BitVec.toInt_signExtend_of_le (by decide)
  rw [toNat_eq_natAbs (hsame ▸ h), hsame]

theorem putSigned_eq {v : BitVec 32} (hv : v ≠ BitVec.intMin 32) :
    putSigned v = some (signedNumeral v.toInt) := by
  have habs : v.toInt.natAbs < 2 ^ 64 := by
    have hle := BitVec.le_toInt v
    have hlt := BitVec.toInt_lt (x := v)
    omega
  rw [putSigned, signedNumeral]
  split_ifs with hneg
  · have hflip : (-v).toInt = -v.toInt := BitVec.toInt_neg_of_ne_intMin hv
    rw [widened (by omega), hflip, Int.natAbs_neg, kputnum_eq habs (Or.inl rfl)]
    rfl
  · rw [widened (by omega), kputnum_eq habs (Or.inl rfl)]

theorem putSigned_intMin :
    putSigned (BitVec.intMin 32) = some (45 :: numeral 10 (2 ^ 64 - 2 ^ 31)) := by
  have hmin : ((-(BitVec.intMin 32)).signExtend 64).toNat = 2 ^ 64 - 2 ^ 31 := by decide
  rw [putSigned, if_pos (by decide), hmin, kputnum_eq (by decide) (Or.inl rfl)]
  rfl

theorem printk_d (v : BitVec 32) :
    printk [37, 100] [.int v] = (putSigned v).map fun out => (out, []) := by
  cases h : putSigned v with
  | none => simp [printk, formatLoop, printkCase, formatCase, vaInt, h]
  | some out => simp [printk, formatLoop, printkCase, formatCase, vaInt, h]

/-- The digits of `kputnum` are canonical, fit its buffer and can be read back; with those of
the case `d` this is so exactly when the argument is not the least `int`. -/
theorem printed_numbers_iff (num base : ℕ) (hnum : num < 2 ^ 64) (hbase : base = 10 ∨ base = 16)
    (v : BitVec 32) :
    ((∃ out, kputnum num base = some out ∧ Canonical out ∧ out.length ≤ 32 ∧
        parseNat base out = some num) ∧
      ∃ out, printk [37, 100] [.int v] = some (out, []) ∧ parseInt out = some v.toInt) ↔
      v ≠ BitVec.intMin 32 := by
  have hfirst : ∃ out, kputnum num base = some out ∧ Canonical out ∧ out.length ≤ 32 ∧
      parseNat base out = some num :=
    ⟨_, kputnum_eq hnum hbase, canonical_numeral hbase num, length_numeral_le hnum hbase,
      parseNat_numeral hbase num⟩
  rw [and_iff_right hfirst, printk_d]
  constructor
  · rintro ⟨out, hout, hparse⟩ rfl
    rw [putSigned_intMin, Option.map_some, Option.some_inj] at hout
    obtain rfl := (Prod.mk.inj hout).1
    rw [parseInt_minus] at hparse
    exact absurd (Option.some_inj.mp hparse) (by decide)
  · intro hv
    rw [putSigned_eq hv]
    exact ⟨_, rfl, parseInt_signedNumeral v.toInt⟩

theorem printed_numbers_seventeen :
    (∃ out, kputnum 17 16 = some out ∧ Canonical out ∧ out.length ≤ 32 ∧
      parseNat 16 out = some 17) ∧
      ∃ out, printk [37, 100] [.int (-17)] = some (out, []) ∧ parseInt out = some (-17) :=
  (printed_numbers_iff 17 16 (by decide) (by decide) (-17)).mpr (by decide)

/-- The least `int` comes out as `-18446744071562067968`. -/
theorem least_int_misprinted :
    printk [37, 100] [.int (BitVec.intMin 32)] =
      some ([45, 49, 56, 52, 52, 54, 55, 52, 52, 48, 55, 49, 53, 54, 50, 48, 54, 55, 57, 54, 56],
        []) ∧
    parseInt [45, 49, 56, 52, 52, 54, 55, 52, 52, 48, 55, 49, 53, 54, 50, 48, 54, 55, 57, 54, 56] =
      some (-18446744071562067968) ∧ (BitVec.intMin 32).toInt = -2147483648 := by
  decide +kernel

end XldKernel.Klog
