import XldKernel.ByteMemory

/-!
# memset, memcpy and memmove

Source: `kernel/src/string.h`. Long ranges are treated in three parts: bytes up to the next
multiple of eight, words of 64 bits, and the bytes that are left. Pointers are 64-bit
numbers, so one that has passed the last byte of the address space is 0.
-/

namespace XldKernel.CString
open ByteMemory
variable {m : Mem} {n d s : ℕ}

def advance (p k : ℕ) : ℕ := (p + k) % 2 ^ 64

def retreat (p : ℕ) : ℕ := (p + (2 ^ 64 - 1)) % 2 ^ 64

/-- `while (n--) *p++ = c`. -/
def setBytes (c : UInt8) : ℕ → ℕ → Mem → ℕ × Mem
  | 0, p, m => (p, m)
  | n + 1, p, m => setBytes c n (advance p 1) (Function.update m p c)

def pattern (c : UInt8) : ℕ :=
  (List.range 8).foldl (fun pattern i => pattern ||| c.toNat <<< (8 * i)) 0

def setWords (pattern : ℕ) : ℕ → ℕ → Mem → ℕ × ℕ × Mem
  | n + 8, p, m => setWords pattern n (advance p 8) (store m p 8 pattern)
  | n, p, m => (n, p, m)

def alignPrefix (p : ℕ) : ℕ := if p &&& 7 ≠ 0 then 8 - (p &&& 7) else 0

def memset (m : Mem) (dest : ℕ) (c : ℤ) (n : ℕ) : ℕ × Mem :=
  let c := UInt8.ofInt c
  if n < 16 then (dest, (setBytes c n dest m).2)
  else
    match setBytes c (alignPrefix dest) dest m with
    | (p, m) =>
      match setWords (pattern c) (n - alignPrefix dest) p m with
      | (n, p, m) => (dest, (setBytes c n p m).2)

/-- `while (n--) *d++ = *s++`. -/
def copyBytes : ℕ → ℕ → ℕ → Mem → ℕ × ℕ × Mem
  | 0, d, s, m => (d, s, m)
  | n + 1, d, s, m => copyBytes n (advance d 1) (advance s 1) (Function.update m d (m s))

def copyWords : ℕ → ℕ → ℕ → Mem → ℕ × ℕ × ℕ × Mem
  | n + 8, d, s, m => copyWords n (advance d 8) (advance s 8) (store m d 8 (load m s 8))
  | n, d, s, m => (n, d, s, m)

def memcpy (m : Mem) (dest src n : ℕ) : ℕ × Mem :=
  if n < 16 then (dest, (copyBytes n dest src m).2.2)
  else if (dest ^^^ src) &&& 7 = 0 then
    match copyBytes (alignPrefix dest) dest src m with
    | (d, s, m) =>
      match copyWords (n - alignPrefix dest) d s m with
      | (n, d, s, m) => (dest, (copyBytes n d s m).2.2)
  else (dest, (copyBytes n dest src m).2.2)

def copyBack : ℕ → ℕ → ℕ → Mem → Mem
  | 0, _, _, m => m
  | n + 1, d, s, m =>
    copyBack n (retreat d) (retreat s) (Function.update m (retreat d) (m (retreat s)))

def memmove (m : Mem) (dest src n : ℕ) : ℕ × Mem :=
  if dest = src then (dest, m)
  else if src < dest ∧ dest < advance src n then
    (dest, copyBack n (advance dest n) (advance src n) m)
  else (dest, (memcpy m dest src n).2)

theorem setBytes_eq (c : UInt8) (h : d + n ≤ 2 ^ 64) (m : Mem) :
    setBytes c n (d % 2 ^ 64) m = ((d + n) % 2 ^ 64, fill m d n c) := by
  induction n generalizing d m with
  | zero => rw [setBytes, fill_zero, Nat.add_zero]
  | succ n ih =>
    have hd : d % 2 ^ 64 = d := Nat.mod_eq_of_lt (by omega)
    rw [setBytes, hd, advance, ih (by omega), update_eq_fill, fill_add, Nat.add_assoc,
      Nat.add_comm 1 n]

theorem pattern_byte (c : UInt8) {i : ℕ} (hi : i < 8) : UInt8.ofNat (pattern c / 256 ^ i) = c := by
  have hall : ∀ (c : UInt8) (i : Fin 8), UInt8.ofNat (pattern c / 256 ^ (i : ℕ)) = c := by
    apply forall_byte
    decide +kernel
  exact hall c ⟨i, hi⟩

theorem store_pattern (m : Mem) (p : ℕ) (c : UInt8) : store m p 8 (pattern c) = fill m p 8 c := by
  funext x
  by_cases hx : p ≤ x ∧ x < p + 8
  · rw [store, if_pos hx, fill_inside m hx, pattern_byte c (by omega)]
  · rw [store, if_neg hx, fill_apart m (by omega)]

theorem setWords_eq (c : UInt8) (h : d + n ≤ 2 ^ 64) (m : Mem) :
    setWords (pattern c) n (d % 2 ^ 64) m =
      (n % 8, (d + 8 * (n / 8)) % 2 ^ 64, fill m d (8 * (n / 8)) c) := by
  induction n using Nat.strong_induction_on generalizing d m with
  | _ n ih =>
    by_cases h8 : 8 ≤ n
    · obtain ⟨k, rfl⟩ := Nat.exists_eq_add_of_le' h8
      have hd : d % 2 ^ 64 = d := Nat.mod_eq_of_lt (by omega)
      have hwords : 8 * ((k + 8) / 8) = 8 + 8 * (k / 8) := by omega
      rw [setWords, hd, advance, ih k (by omega) (by omega), store_pattern, fill_add, hwords,
        Nat.add_assoc, Nat.add_mod_right]
    · have hwords : 8 * (n / 8) = 0 := by omega
      rw [setWords, hwords, fill_zero, Nat.add_zero, Nat.mod_eq_of_lt (Nat.lt_of_not_le h8)]
      omega

theorem alignPrefix_le (p : ℕ) : alignPrefix p ≤ 8 := by
  rw [alignPrefix]
  split_ifs <;> omega

theorem memset_eq (hd : d < 2 ^ 64) (h : d + n ≤ 2 ^ 64) (m : Mem) (c : ℤ) :
    memset m d c n = (d, fill m d n (UInt8.ofInt c)) := by
  have hstart : d % 2 ^ 64 = d := Nat.mod_eq_of_lt hd
  have hbytes := fun k hk m => setBytes_eq (d := d) (n := k) (UInt8.ofInt c) hk m
  rw [hstart] at hbytes
  rw [memset]
  split_ifs with hshort
  · rw [hbytes n h]
  · have hpre := alignPrefix_le d
    set pre := alignPrefix d
    have hsplit : pre + (8 * ((n - pre) / 8) + (n - pre) % 8) = n := by omega
    rw [hbytes pre (by omega)]
    dsimp only
    rw [setWords_eq _ (by omega)]
    dsimp only
    rw [setBytes_eq _ (by omega), fill_add, Nat.add_assoc d, fill_add, hsplit]

theorem copyBytes_eq (hd : d + n ≤ 2 ^ 64) (hs : s + n ≤ 2 ^ 64) (hover : d ≤ s ∨ s + n ≤ d)
    (m : Mem) :
    copyBytes n (d % 2 ^ 64) (s % 2 ^ 64) m =
      ((d + n) % 2 ^ 64, (s + n) % 2 ^ 64, copy m d s n) := by
  induction n generalizing d s m with
  | zero => rw [copyBytes, copy_zero, Nat.add_zero, Nat.add_zero]
  | succ n ih =>
    have hd' : d % 2 ^ 64 = d := Nat.mod_eq_of_lt (by omega)
    have hs' : s % 2 ^ 64 = s := Nat.mod_eq_of_lt (by omega)
    have hrest := copy_add m (d := d) (s := s) (a := 1) (b := n) (by omega)
    rw [copyBytes, hd', hs', advance, advance, ih (by omega) (by omega) (by omega), update_eq_copy,
      hrest, Nat.add_assoc, Nat.add_assoc, Nat.add_comm 1 n]

theorem copyWords_eq (hd : d + n ≤ 2 ^ 64) (hs : s + n ≤ 2 ^ 64) (hover : d ≤ s ∨ s + n ≤ d)
    (m : Mem) :
    copyWords n (d % 2 ^ 64) (s % 2 ^ 64) m =
      (n % 8, (d + 8 * (n / 8)) % 2 ^ 64, (s + 8 * (n / 8)) % 2 ^ 64,
        copy m d s (8 * (n / 8))) := by
  induction n using Nat.strong_induction_on generalizing d s m with
  | _ n ih =>
    by_cases h8 : 8 ≤ n
    · obtain ⟨k, rfl⟩ := Nat.exists_eq_add_of_le' h8
      have hd' : d % 2 ^ 64 = d := Nat.mod_eq_of_lt (by omega)
      have hs' : s % 2 ^ 64 = s := Nat.mod_eq_of_lt (by omega)
      have hwords : 8 * ((k + 8) / 8) = 8 + 8 * (k / 8) := by omega
      have hrest := copy_add m (d := d) (s := s) (a := 8) (b := 8 * (k / 8)) (by omega)
      rw [copyWords, hd', hs', advance, advance, ih k (by omega) (by omega) (by omega) (by omega),
        store_load_eq_copy, hrest, hwords, Nat.add_assoc, Nat.add_assoc, Nat.add_mod_right]
    · have hwords : 8 * (n / 8) = 0 := by omega
      rw [copyWords, hwords, copy_zero, Nat.add_zero, Nat.add_zero,
        Nat.mod_eq_of_lt (Nat.lt_of_not_le h8)]
      omega

/-- The copy goes upwards, so a destination below the source may overlap it. -/
theorem memcpy_eq (hd : d < 2 ^ 64) (hs : s < 2 ^ 64) (hdn : d + n ≤ 2 ^ 64) (hsn : s + n ≤ 2 ^ 64)
    (hover : d ≤ s ∨ s + n ≤ d) (m : Mem) : memcpy m d s n = (d, copy m d s n) := by
  have hstart : d % 2 ^ 64 = d ∧ s % 2 ^ 64 = s := ⟨Nat.mod_eq_of_lt hd, Nat.mod_eq_of_lt hs⟩
  have hbytes := fun k h1 h2 h3 m => copyBytes_eq (d := d) (s := s) (n := k) h1 h2 h3 m
  rw [hstart.1, hstart.2] at hbytes
  rw [memcpy]
  split_ifs with hshort haligned
  · rw [hbytes n hdn hsn hover]
  · have hpre := alignPrefix_le d
    set pre := alignPrefix d
    have hsplit : pre + (8 * ((n - pre) / 8) + (n - pre) % 8) = n := by omega
    rw [hbytes pre (by omega) (by omega) (by omega)]
    dsimp only
    rw [copyWords_eq (by omega) (by omega) (by omega)]
    dsimp only
    rw [copyBytes_eq (by omega) (by omega) (by omega), copy_add _ (by omega), Nat.add_assoc d,
      Nat.add_assoc s, copy_add _ (by omega), hsplit]
  · rw [hbytes n hdn hsn hover]

theorem copyBack_eq (hd : d + n ≤ 2 ^ 64) (hover : s ≤ d) (m : Mem) :
    copyBack n ((d + n) % 2 ^ 64) ((s + n) % 2 ^ 64) m = copy m d s n := by
  induction n generalizing m with
  | zero => rw [copyBack, copy_zero]
  | succ n ih =>
    have hd' : retreat ((d + (n + 1)) % 2 ^ 64) = d + n := by
      rw [retreat]
      omega
    have hs' : retreat ((s + (n + 1)) % 2 ^ 64) = s + n := by
      rw [retreat]
      omega
    have hdn : (d + n) % 2 ^ 64 = d + n := Nat.mod_eq_of_lt (by omega)
    have hsn : (s + n) % 2 ^ 64 = s + n := Nat.mod_eq_of_lt (by omega)
    have hrest := ih (by omega) (copy m (d + n) (s + n) 1)
    rw [hdn, hsn] at hrest
    rw [copyBack, hd', hs', update_eq_copy, hrest, copy_add_back m (Or.inl hover)]

theorem memmove_eq (hd : d < 2 ^ 64) (hs : s < 2 ^ 64) (hdn : d + n ≤ 2 ^ 64) (hsn : s + n ≤ 2 ^ 64)
    (m : Mem) : memmove m d s n = (d, copy m d s n) := by
  rw [memmove]
  split_ifs with hsame hback
  · rw [hsame, copy_self]
  · rw [advance, advance, copyBack_eq hdn hback.1.le]
  · -- `s + n` does not wrap where the destination is above the source
    have hover : d ≤ s ∨ s + n ≤ d := by
      rw [advance] at hback
      omega
    rw [memcpy_eq hd hs hdn hsn hover]

/-- In ranges of the address space the three routines are the byte-wise fill and copy. -/
theorem memory_routines :
    (∀ (m : Mem) (d n : ℕ) (c : ℤ), d < 2 ^ 64 → d + n ≤ 2 ^ 64 →
      memset m d c n = (d, fill m d n (UInt8.ofInt c))) ∧
    (∀ (m : Mem) (d s n : ℕ), d < 2 ^ 64 → s < 2 ^ 64 → d + n ≤ 2 ^ 64 → s + n ≤ 2 ^ 64 →
      d + n ≤ s ∨ s + n ≤ d → memcpy m d s n = (d, copy m d s n)) ∧
    ∀ (m : Mem) (d s n : ℕ), d < 2 ^ 64 → s < 2 ^ 64 → d + n ≤ 2 ^ 64 → s + n ≤ 2 ^ 64 →
      memmove m d s n = (d, copy m d s n) := by
  refine ⟨fun m d n c hd hdn => memset_eq hd hdn m c, fun m d s n hd hs hdn hsn hapart => ?_,
    fun m d s n hd hs hdn hsn => memmove_eq hd hs hdn hsn m⟩
  exact memcpy_eq hd hs hdn hsn (hapart.imp_left (Nat.le_of_add_right_le)) m

theorem memory_routines_unaligned :
    memset (fun _ => 0) 5 300 20 = (5, fill (fun _ => 0) 5 20 44) ∧
    memcpy UInt8.ofNat 100 4 30 = (100, copy UInt8.ofNat 100 4 30) ∧
    memmove UInt8.ofNat 7 4 30 = (7, copy UInt8.ofNat 7 4 30) := by
  obtain ⟨hset, hcpy, hmove⟩ := memory_routines
  exact ⟨hset _ 5 20 300 (by decide) (by decide),
    hcpy _ 100 4 30 (by decide) (by decide) (by decide) (by decide) (by decide),
    hmove _ 7 4 30 (by decide) (by decide) (by decide) (by decide)⟩

end XldKernel.CString
