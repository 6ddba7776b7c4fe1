import Mathlib.Data.Nat.Bitwise
import Mathlib.Tactic

/-!
# Little-endian words and single bits in a byte-addressed memory

A memory is a total function from addresses to bytes. Words of any width are
read and written at any address, so overlapping views of one memory (a bitmap
read as bytes and as 64-bit words, a block header inside a pool) need no
separate representation.
-/

namespace XldKernel.ByteMemory

theorem forall_byte {P : UInt8 → Prop} (h : ∀ n : Fin 256, P (UInt8.ofNat n)) (b : UInt8) :
    P b := by
  have hb := h ⟨b.toNat, b.toNat_lt⟩
  rwa [UInt8.ofNat_toNat] at hb

abbrev Mem := ℕ → UInt8

def load (m : Mem) (a : ℕ) : ℕ → ℕ
  | 0 => 0
  | n + 1 => (m a).toNat + 256 * load m (a + 1) n

def store (m : Mem) (a n v : ℕ) : Mem :=
  fun x => if a ≤ x ∧ x < a + n then UInt8.ofNat (v / 256 ^ (x - a)) else m x

def fill (m : Mem) (a n : ℕ) (c : UInt8) : Mem :=
  fun x => if a ≤ x ∧ x < a + n then c else m x

def copy (m : Mem) (d s n : ℕ) : Mem :=
  fun x => if d ≤ x ∧ x < d + n then m (s + (x - d)) else m x

def write (m : Mem) (a : ℕ) (bs : List UInt8) : Mem :=
  fun x => if a ≤ x ∧ x < a + bs.length then bs.getD (x - a) 0 else m x

def read (m : Mem) (a n : ℕ) : List UInt8 := (List.range n).map fun i => m (a + i)

theorem load_lt (m : Mem) (a n : ℕ) : load m a n < 256 ^ n := by
  induction n generalizing a with
  | zero => simp [load]
  | succ n ih =>
    have hb := (m a).toNat_lt
    have hr := ih (a + 1)
    simp only [load, pow_succ]
    omega

theorem load_eq_load {m m' : Mem} {a b n : ℕ} (h : ∀ i < n, m (a + i) = m' (b + i)) :
    load m a n = load m' b n := by
  induction n generalizing a b with
  | zero => rfl
  | succ n ih =>
    have h0 : m a = m' b := by simpa using h 0 (by omega)
    have hr : load m (a + 1) n = load m' (b + 1) n := by
      apply ih
      intro i hi
      have h1 := h (i + 1) (by omega)
      rwa [show a + (i + 1) = a + 1 + i by omega, show b + (i + 1) = b + 1 + i by omega] at h1
    simp only [load, h0, hr]

theorem load_congr {m m' : Mem} {a n : ℕ} (h : ∀ i < n, m (a + i) = m' (a + i)) :
    load m a n = load m' a n :=
  load_eq_load h

theorem load_of_digits {m : Mem} {a n v : ℕ}
    (h : ∀ i < n, m (a + i) = UInt8.ofNat (v / 256 ^ i)) : load m a n = v % 256 ^ n := by
  induction n generalizing a v with
  | zero => simp [load, Nat.mod_one]
  | succ n ih =>
    have h0 : m a = UInt8.ofNat v := by simpa using h 0 (by omega)
    have hr : load m (a + 1) n = v / 256 % 256 ^ n := by
      apply ih
      intro i hi
      have h1 := h (i + 1) (by omega)
      rwa [show a + (i + 1) = a + 1 + i by omega, pow_succ', ← Nat.div_div_eq_div_mul] at h1
    have hb : (UInt8.ofNat v).toNat = v % 256 := UInt8.toNat_ofNat'
    rw [load, h0, hr, hb, pow_succ', Nat.mod_mul]

@[simp] theorem load_store_self (m : Mem) (a n v : ℕ) :
    load (store m a n v) a n = v % 256 ^ n := by
  apply load_of_digits
  intro i hi
  simp [store, hi]

theorem load_digit (m : Mem) (a : ℕ) {n i : ℕ} (hi : i < n) :
    UInt8.ofNat (load m a n / 256 ^ i) = m (a + i) := by
  induction n generalizing a i with
  | zero => omega
  | succ n ih =>
    have hb := (m a).toNat_lt
    cases i with
    | zero =>
      rw [Nat.pow_zero, Nat.div_one, load, ← UInt8.toNat_inj, UInt8.toNat_ofNat']
      simp only [Nat.add_zero]
      omega
    | succ i =>
      have hdiv : ((m a).toNat + 256 * load m (a + 1) n) / 256 = load m (a + 1) n := by omega
      rw [load, Nat.pow_succ', ← Nat.div_div_eq_div_mul, hdiv, ih (a + 1) (by omega),
        Nat.add_right_comm, Nat.add_assoc]

@[simp] theorem store_load (m : Mem) (a n : ℕ) : store m a n (load m a n) = m := by
  funext x
  by_cases hx : a ≤ x ∧ x < a + n
  · rw [store, if_pos hx, load_digit m a (by omega), Nat.add_sub_cancel' hx.1]
  · rw [store, if_neg hx]

@[simp] theorem store_store (m : Mem) (a n v w : ℕ) :
    store (store m a n v) a n w = store m a n w := by
  funext x
  simp only [store]
  split_ifs <;> rfl

theorem store_apart (m : Mem) {a n v x : ℕ} (h : x < a ∨ a + n ≤ x) : store m a n v x = m x := by
  have hx : ¬ (a ≤ x ∧ x < a + n) := by omega
  simp [store, hx]

theorem load_store_apart (m : Mem) {a n v b k : ℕ} (h : b + k ≤ a ∨ a + n ≤ b) :
    load (store m a n v) b k = load m b k := by
  apply load_congr
  intro i hi
  apply store_apart
  omega

theorem fill_apart (m : Mem) {a n x : ℕ} {c : UInt8} (h : x < a ∨ a + n ≤ x) :
    fill m a n c x = m x := by
  have hx : ¬ (a ≤ x ∧ x < a + n) := by omega
  simp [fill, hx]

theorem fill_inside (m : Mem) {a n x : ℕ} {c : UInt8} (h : a ≤ x ∧ x < a + n) :
    fill m a n c x = c := by
  simp [fill, h]

theorem copy_apart (m : Mem) {d s n x : ℕ} (h : x < d ∨ d + n ≤ x) : copy m d s n x = m x := by
  have hx : ¬ (d ≤ x ∧ x < d + n) := by omega
  simp [copy, hx]

@[simp] theorem fill_zero (m : Mem) (a : ℕ) (c : UInt8) : fill m a 0 c = m := by
  funext x
  exact fill_apart m (by omega)

@[simp] theorem copy_zero (m : Mem) (d s : ℕ) : copy m d s 0 = m := by
  funext x
  exact copy_apart m (by omega)

@[simp] theorem copy_self (m : Mem) (a n : ℕ) : copy m a a n = m := by
  funext x
  by_cases hx : a ≤ x ∧ x < a + n
  · rw [copy, if_pos hx, Nat.add_sub_cancel' hx.1]
  · rw [copy, if_neg hx]

theorem update_eq_fill (m : Mem) (a : ℕ) (c : UInt8) : Function.update m a c = fill m a 1 c := by
  funext x
  by_cases hx : x = a
  · rw [hx, Function.update_self, fill_inside m ⟨le_rfl, by omega⟩]
  · rw [Function.update_of_ne hx, fill_apart m (by omega)]

theorem update_eq_copy (m : Mem) (d s : ℕ) : Function.update m d (m s) = copy m d s 1 := by
  funext x
  by_cases hx : x = d
  · rw [hx, Function.update_self, copy, if_pos ⟨le_rfl, by omega⟩, Nat.sub_self, Nat.add_zero]
  · rw [Function.update_of_ne hx, copy_apart m (by omega)]

theorem fill_add (m : Mem) (a k n : ℕ) (c : UInt8) :
    fill (fill m a k c) (a + k) n c = fill m a (k + n) c := by
  funext x
  simp only [fill]
  split_ifs <;> first | rfl | omega

theorem copy_add (m : Mem) {d s a b : ℕ} (h : d ≤ s ∨ s + (a + b) ≤ d) :
    copy (copy m d s a) (d + a) (s + a) b = copy m d s (a + b) := by
  funext x
  by_cases hhigh : d + a ≤ x ∧ x < d + a + b
  · have hsrc : s + a + (x - (d + a)) = s + (x - d) := by omega
    rw [copy, if_pos hhigh, copy_apart m (by omega), hsrc, copy, if_pos (by omega)]
  · rw [copy, if_neg hhigh]
    by_cases hlow : d ≤ x ∧ x < d + a
    · rw [copy, if_pos hlow, copy, if_pos (by omega)]
    · rw [copy_apart m (by omega), copy_apart m (by omega)]

theorem copy_add_back (m : Mem) {d s a b : ℕ} (h : s ≤ d ∨ d + (a + b) ≤ s) :
    copy (copy m (d + a) (s + a) b) d s a = copy m d s (a + b) := by
  funext x
  by_cases hlow : d ≤ x ∧ x < d + a
  · rw [copy, if_pos hlow, copy_apart m (by omega), copy, if_pos (by omega)]
  · rw [copy, if_neg hlow]
    by_cases hhigh : d + a ≤ x ∧ x < d + a + b
    · have hsrc : s + a + (x - (d + a)) = s + (x - d) := by omega
      rw [copy, if_pos hhigh, hsrc, copy, if_pos (by omega)]
    · rw [copy_apart m (by omega), copy_apart m (by omega)]

theorem store_load_eq_copy (m : Mem) (d s n : ℕ) : store m d n (load m s n) = copy m d s n := by
  funext x
  by_cases hx : d ≤ x ∧ x < d + n
  · rw [store, if_pos hx, copy, if_pos hx, load_digit m s (by omega)]
  · rw [store, if_neg hx, copy, if_neg hx]

theorem write_apart (m : Mem) {a x : ℕ} {bs : List UInt8} (h : x < a ∨ a + bs.length ≤ x) :
    write m a bs x = m x := by
  have hx : ¬ (a ≤ x ∧ x < a + bs.length) := by omega
  simp [write, hx]

@[simp] theorem write_nil (m : Mem) (a : ℕ) : write m a [] = m := by
  funext x
  exact write_apart m (by simp; omega)

theorem write_append (m : Mem) (a : ℕ) (xs ys : List UInt8) :
    write (write m a xs) (a + xs.length) ys = write m a (xs ++ ys) := by
  funext x
  by_cases hhigh : a + xs.length ≤ x ∧ x < a + xs.length + ys.length
  · have hsub : x - a = xs.length + (x - (a + xs.length)) := by omega
    rw [write, if_pos hhigh, write, if_pos (by rw [List.length_append]; omega),
      List.getD_append_right _ _ _ _ (by omega)]
    congr 1
    omega
  · rw [write, if_neg hhigh]
    by_cases hlow : a ≤ x ∧ x < a + xs.length
    · rw [write, if_pos hlow, write, if_pos (by rw [List.length_append]; omega),
        List.getD_append _ _ _ _ (by omega)]
    · rw [write_apart m (by omega), write_apart m (by rw [List.length_append]; omega)]

theorem update_eq_write (m : Mem) (a : ℕ) (b : UInt8) : Function.update m a b = write m a [b] := by
  funext x
  by_cases hx : x = a
  · rw [hx, Function.update_self, write, if_pos ⟨le_rfl, by simp⟩, Nat.sub_self]
    rfl
  · rw [Function.update_of_ne hx, write_apart m (by simp; omega)]

theorem fill_eq_write (m : Mem) (a n : ℕ) (c : UInt8) :
    fill m a n c = write m a (List.replicate n c) := by
  funext x
  by_cases hx : a ≤ x ∧ x < a + n
  · rw [fill_inside m hx, write, if_pos (by simpa using hx),
      List.getD_replicate _ (by omega)]
  · rw [fill_apart m (by omega), write_apart m (by rw [List.length_replicate]; omega)]

theorem read_eq_read {m m' : Mem} {a b n : ℕ} (h : ∀ i < n, m (a + i) = m' (b + i)) :
    read m a n = read m' b n :=
  List.map_congr_left fun i hi => h i (List.mem_range.mp hi)

theorem read_congr {m m' : Mem} {a n : ℕ} (h : ∀ i < n, m (a + i) = m' (a + i)) :
    read m a n = read m' a n :=
  read_eq_read h

@[simp] theorem read_write_self (m : Mem) (a : ℕ) (bs : List UInt8) :
    read (write m a bs) a bs.length = bs := by
  apply List.ext_getElem
  · simp [read]
  · intro i h1 h2
    simp [read, write, h2]

theorem read_length (m : Mem) (a n : ℕ) : (read m a n).length = n := by
  simp [read]

theorem read_add (m : Mem) (a k n : ℕ) : read m a (k + n) = read m a k ++ read m (a + k) n := by
  simp [read, List.range_add, Nat.add_assoc]

theorem store_load_eq_write (m src : Mem) (a b n : ℕ) :
    store m a n (load src b n) = write m a (read src b n) := by
  funext x
  by_cases hx : a ≤ x ∧ x < a + n
  · have hi : x - a < n := by omega
    rw [store, if_pos hx, write, if_pos (by rwa [read_length]), load_digit src b hi]
    simp [read, hi]
  · rw [store, if_neg hx, write_apart m (by rw [read_length]; omega)]

theorem write_read_add (m src : Mem) (a b k n : ℕ) :
    write (write m a (read src b k)) (a + k) (read src (b + k) n) =
      write m a (read src b (k + n)) := by
  rw [read_add, ← write_append, read_length]

theorem load_testBit (m : Mem) (a n b : ℕ) (hb : b < 8 * n) :
    (load m a n).testBit b = (m (a + b / 8)).toNat.testBit (b % 8) := by
  induction n generalizing a b with
  | zero => omega
  | succ n ih =>
    have hlt : (m a).toNat < 2 ^ 8 := (m a).toNat_lt
    have hsplit := Nat.testBit_two_pow_mul_add (load m (a + 1) n) hlt b
    have hload : load m a (n + 1) = 2 ^ 8 * load m (a + 1) n + (m a).toNat := by
      simp only [load]
      omega
    rw [hload, hsplit]
    by_cases h8 : b < 8
    · rw [if_pos h8, show b / 8 = 0 by omega, show b % 8 = b by omega, Nat.add_zero]
    · rw [if_neg h8, ih (a + 1) (b - 8) (by omega)]
      rw [show a + 1 + (b - 8) / 8 = a + b / 8 by omega, show (b - 8) % 8 = b % 8 by omega]

def getBit (x : UInt8) (k : ℕ) : Bool := (x >>> UInt8.ofNat k) &&& 1 == 1

def setBit (x : UInt8) (k : ℕ) : UInt8 := x ||| (1 : UInt8) <<< UInt8.ofNat k

def clearBit (x : UInt8) (k : ℕ) : UInt8 := x &&& ~~~((1 : UInt8) <<< UInt8.ofNat k)

theorem ofNat_shift {k : ℕ} (hk : k < 8) : ((UInt8.ofNat k).toBitVec % 8).toNat = k := by
  simp
  omega

theorem getBit_eq_testBit (x : UInt8) {k : ℕ} (hk : k < 8) : getBit x k = x.toNat.testBit k := by
  change getBit x k = x.toBitVec.getLsbD k
  rw [getBit, Bool.eq_iff_iff, beq_iff_eq, ← UInt8.toBitVec_inj, UInt8.toBitVec_and,
    UInt8.toBitVec_shiftRight, BitVec.ushiftRight_eq', ofNat_shift hk]
  constructor
  · intro h
    have h0 := congrArg (fun b : BitVec 8 => b.getLsbD 0) h
    simpa using h0
  · intro h
    ext i hi
    rcases i with _ | i
    · simpa using h
    · simp

theorem getBit_full {i : ℕ} (hi : i < 8) : getBit 0xFF i = true := by
  interval_cases i <;> decide

theorem getBit_setBit (x : UInt8) {k j : ℕ} (hk : k < 8) (hj : j < 8) :
    getBit (setBit x k) j = (getBit x j || decide (j = k)) := by
  rw [getBit_eq_testBit _ hj, getBit_eq_testBit _ hj]
  change (setBit x k).toBitVec.getLsbD j = (x.toBitVec.getLsbD j || decide (j = k))
  rw [setBit, UInt8.toBitVec_or, UInt8.toBitVec_shiftLeft, BitVec.getLsbD_or,
    BitVec.shiftLeft_eq', BitVec.getLsbD_shiftLeft, ofNat_shift hk]
  simp [hj]
  grind

theorem getBit_clearBit (x : UInt8) {k j : ℕ} (hk : k < 8) (hj : j < 8) :
    getBit (clearBit x k) j = (getBit x j && !decide (j = k)) := by
  rw [getBit_eq_testBit _ hj, getBit_eq_testBit _ hj]
  change (clearBit x k).toBitVec.getLsbD j = (x.toBitVec.getLsbD j && !decide (j = k))
  rw [clearBit, UInt8.toBitVec_and, UInt8.toBitVec_not, UInt8.toBitVec_shiftLeft,
    BitVec.getLsbD_and, BitVec.getLsbD_not, BitVec.shiftLeft_eq', BitVec.getLsbD_shiftLeft,
    ofNat_shift hk]
  simp [hj]
  grind

end XldKernel.ByteMemory
