import XldKernel.MemoryRoutines

/-!
# strncpy

Source: `kernel/src/string.h`. The copying loop leaves without counting the terminator that
it has copied, and the padding loop behind it then writes one byte more than the buffer has.
-/

namespace XldKernel.CString
open ByteMemory
variable {m : Mem} {n d s : ℕ} {cs : List UInt8}

/-- `while (n && (*d++ = *src++)) n--`. -/
def copyString : ℕ → ℕ → ℕ → Mem → ℕ × ℕ × Mem
  | 0, d, _, m => (0, d, m)
  | n + 1, d, s, m =>
    if m s ≠ 0 then copyString n (advance d 1) (advance s 1) (Function.update m d (m s))
    else (n + 1, advance d 1, Function.update m d (m s))

def strncpy (m : Mem) (dest src n : ℕ) : ℕ × Mem :=
  match copyString n dest src m with
  | (n, d, m) => (dest, (setBytes 0 n d m).2)

def StringAt (m : Mem) : ℕ → List UInt8 → Prop
  | s, [] => m s = 0
  | s, c :: cs => m s = c ∧ c ≠ 0 ∧ StringAt m (s + 1) cs

def padded (n : ℕ) (cs : List UInt8) : List UInt8 := cs.take n ++ List.replicate (n - cs.length) 0

theorem length_padded (n : ℕ) (cs : List UInt8) : (padded n cs).length = n := by
  rw [padded, List.length_append, List.length_take, List.length_replicate]
  omega

theorem StringAt.zero_notMem (h : StringAt m s cs) : 0 ∉ cs := by
  induction cs generalizing s with
  | nil => exact List.not_mem_nil
  | cons c cs ih =>
    obtain ⟨-, hne, hrest⟩ := h
    exact List.not_mem_cons_of_ne_of_not_mem hne.symm (ih hrest)

theorem StringAt.congr {m' : Mem} (h : StringAt m s cs)
    (heq : ∀ x, s ≤ x → x ≤ s + cs.length → m' x = m x) : StringAt m' s cs := by
  induction cs generalizing s with
  | nil => exact (heq s le_rfl (Nat.le_add_right _ _)).trans h
  | cons c cs ih =>
    obtain ⟨hc, hne, hrest⟩ := h
    rw [List.length_cons] at heq
    refine ⟨(heq s le_rfl (by omega)).trans hc, hne, ih hrest fun x hle hlt =>
      heq x (by omega) (by omega)⟩

theorem copyString_eq (hstr : StringAt m s cs) (hd : d + n ≤ 2 ^ 64) (hs : s + cs.length < 2 ^ 64)
    (hapart : s + cs.length < d ∨ d + n ≤ s) :
    copyString n (d % 2 ^ 64) (s % 2 ^ 64) m =
      if n ≤ cs.length then (0, (d + n) % 2 ^ 64, write m d (cs.take n))
      else (n - cs.length, (d + (cs.length + 1)) % 2 ^ 64, write m d (cs ++ [0])) := by
  induction cs generalizing n d s m with
  | nil =>
    cases n with
    | zero => rw [copyString, if_pos (Nat.zero_le _), List.take_nil, write_nil, Nat.add_zero]
    | succ n =>
      have hd' : d % 2 ^ 64 = d := Nat.mod_eq_of_lt (by omega)
      have hs' : s % 2 ^ 64 = s := Nat.mod_eq_of_lt (by simpa using hs)
      have hnul : m s = 0 := hstr
      rw [copyString, hd', hs', hnul, if_neg (by simp), if_neg (by simp), advance, update_eq_write]
      rfl
  | cons c cs ih =>
    rw [List.length_cons] at hs hapart
    cases n with
    | zero => rw [copyString, if_pos (Nat.zero_le _), List.take_zero, write_nil, Nat.add_zero]
    | succ n =>
      obtain ⟨hc, hne, hrest⟩ := hstr
      have hd' : d % 2 ^ 64 = d := Nat.mod_eq_of_lt (by omega)
      have hs' : s % 2 ^ 64 = s := Nat.mod_eq_of_lt (by omega)
      have hkept : StringAt (write m d [c]) (s + 1) cs :=
        hrest.congr fun x hle hlt => write_apart m (by simp; omega)
      have hwrite := fun xs => write_append m d [c] xs
      simp only [List.length_singleton, List.singleton_append] at hwrite
      rw [copyString, hd', hs', hc, if_pos hne, advance, advance, update_eq_write,
        ih hkept (by omega) (by omega) (by omega)]
      by_cases hle : n ≤ cs.length
      · rw [if_pos hle, if_pos (by simpa using hle), hwrite, Nat.add_assoc, Nat.add_comm 1 n]
        rfl
      · rw [if_neg hle, if_neg (by simpa using hle), hwrite, List.length_cons,
          Nat.add_sub_add_right, Nat.add_assoc, Nat.add_comm 1 (cs.length + 1)]
        rfl

theorem setBytes_succ (c : UInt8) (h : d + n ≤ 2 ^ 64) (m : Mem) :
    (setBytes c (n + 1) (d % 2 ^ 64) m).2 = Function.update (fill m d n c)
      ((d + n) % 2 ^ 64) c := by
  induction n generalizing d m with
  | zero => rw [setBytes, setBytes, fill_zero, Nat.add_zero]
  | succ n ih =>
    have hd : d % 2 ^ 64 = d := Nat.mod_eq_of_lt (by omega)
    rw [setBytes, hd, advance, ih (by omega), update_eq_fill m, fill_add, Nat.add_assoc,
      Nat.add_comm 1 n]

/-- What `strncpy` leaves: the padded string, and behind a string that is shorter than the
buffer one zero more. -/
theorem strncpy_eq (hstr : StringAt m s cs) (hd : d < 2 ^ 64) (hdn : d + n ≤ 2 ^ 64)
    (hs : s + cs.length < 2 ^ 64) (hapart : s + cs.length < d ∨ d + n ≤ s) :
    strncpy m d s n = (d, if n ≤ cs.length then write m d (padded n cs)
      else Function.update (write m d (padded n cs)) ((d + n) % 2 ^ 64) 0) := by
  have hcopy := copyString_eq hstr hdn hs hapart
  rw [Nat.mod_eq_of_lt hd, Nat.mod_eq_of_lt (by omega : s < 2 ^ 64)] at hcopy
  rw [strncpy, hcopy]
  split_ifs with hle
  · dsimp only
    rw [setBytes, padded, Nat.sub_eq_zero_of_le hle, List.replicate_zero, List.append_nil]
  · obtain ⟨k, hk⟩ := Nat.exists_eq_add_of_lt (Nat.lt_of_not_le hle)
    have hpad : padded n cs = (cs ++ [0]) ++ List.replicate k 0 := by
      rw [padded, List.take_of_length_le (by omega), hk, List.append_assoc,
        show cs.length + k + 1 - cs.length = k + 1 by omega, List.replicate_succ]
      rfl
    have hend : d + (cs.length + 1) + k = d + n := by omega
    have hlen : (cs ++ [0]).length = cs.length + 1 := by simp
    have hmore : n - cs.length = k + 1 := by omega
    dsimp only
    rw [hmore, setBytes_succ 0 (by omega), hend, fill_eq_write, ← hlen, write_append, ← hpad]

/-- The bytes of the buffer are as they should be, and no others have changed, exactly when
the string fills the buffer or the byte behind the buffer is zero already. -/
theorem strncpy_within_iff (m : Mem) (d s n : ℕ) (cs : List UInt8) (hstr : StringAt m s cs)
    (hd : d < 2 ^ 64) (hn : n < 2 ^ 64) (hdn : d + n ≤ 2 ^ 64) (hs : s + cs.length < 2 ^ 64)
    (hapart : s + cs.length < d ∨ d + n ≤ s) :
    (strncpy m d s n).2 = write m d (padded n cs) ↔
      n ≤ cs.length ∨ m ((d + n) % 2 ^ 64) = 0 := by
  rw [strncpy_eq hstr hd hdn hs hapart]
  dsimp only
  split_ifs with hle
  · exact iff_of_true rfl (Or.inl hle)
  · have hbehind : write m d (padded n cs) ((d + n) % 2 ^ 64) = m ((d + n) % 2 ^ 64) := by
      refine write_apart m ?_
      rw [length_padded]
      omega
    rw [or_iff_right hle, Function.update_eq_self_iff, hbehind, eq_comm]

def sevens : Mem := write (fun _ => 7) 16 [97, 98, 0]

theorem sevens_string : StringAt sevens 16 [97, 98] := ⟨rfl, by decide, rfl, by decide, rfl⟩

theorem strncpy_within_two : (strncpy sevens 0 16 2).2 = write sevens 0 [97, 98] :=
  (strncpy_within_iff sevens 0 16 2 [97, 98] sevens_string (by decide) (by decide) (by decide)
    (by decide) (by decide)).mpr (by decide)

/-- In a buffer of four bytes the fifth is cleared. -/
theorem strncpy_past_buffer :
    StringAt sevens 16 [97, 98] ∧ sevens 4 = 7 ∧ (strncpy sevens 0 16 4).2 4 = 0 :=
  ⟨sevens_string, by decide, by decide⟩

theorem stringAt_write (hcs : 0 ∉ cs) (m : Mem) (d : ℕ) (rest : List UInt8) :
    StringAt (write m d (cs ++ 0 :: rest)) d cs := by
  induction cs generalizing m d with
  | nil => simp [StringAt, write]
  | cons c cs ih =>
    obtain ⟨hc, hrest⟩ := not_or.mp (mt List.mem_cons.mpr hcs)
    have hsplit := write_append m d [c] (cs ++ 0 :: rest)
    rw [List.singleton_append, List.length_singleton] at hsplit
    refine ⟨?_, Ne.symm hc, ?_⟩
    · simp [write]
    · rw [List.cons_append, ← hsplit]
      exact ih hrest _ _

theorem strncpy_terminated (hstr : StringAt m s cs) (hdn : d + n < 2 ^ 64)
    (hs : s + cs.length < 2 ^ 64) (hapart : s + cs.length < d ∨ d + n ≤ s) :
    Function.update (strncpy m d s n).2 (d + n) 0 = write m d (padded n cs ++ [0]) ∧
      StringAt (write m d (padded n cs ++ [0])) d (cs.take n) := by
  have hmod : (d + n) % 2 ^ 64 = d + n := Nat.mod_eq_of_lt hdn
  have hlast := write_append m d (padded n cs) [0]
  rw [length_padded] at hlast
  constructor
  · rw [strncpy_eq hstr (by omega) hdn.le hs hapart, hmod, ← hlast, ← update_eq_write]
    split_ifs
    · rfl
    · rw [Function.update_idem]
  · have htake : 0 ∉ cs.take n := fun h => hstr.zero_notMem (List.mem_of_mem_take h)
    rw [padded, List.append_assoc, ← List.replicate_succ']
    exact stringAt_write htake m d _

end XldKernel.CString
