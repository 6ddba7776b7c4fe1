import XldKernel.ByteMemory
import XldKernel.StoreBuffers

/-!
# The spinlock

Source: `kernel/src/spinlock.h`. `lock bts $0` tests and sets bit 0 of the lock
byte in one locked instruction, `spinlock_unlock` stores zero with a plain
`movb`, so the release waits in the store buffer with the stores of the section
it ends. `cpu_id` is never written.
-/

namespace XldKernel.Spinlock
open StoreBuffers

def spinlockInit : UInt8 := 0

/-- `lock bts $0`: the carry flag and the byte stored back. -/
def bts (byte : UInt8) : Bool × UInt8 := (byte &&& 1 != 0, byte ||| 1)

def spinlockTrylock (byte : UInt8) : Bool × UInt8 := (!(bts byte).1, (bts byte).2)

def spinlockLockRound (byte : UInt8) : Bool × UInt8 := spinlockTrylock byte

def spinlockUnlock : UInt8 := 0

theorem bts_taken (byte : UInt8) : (bts (bts byte).2).1 = true := by
  revert byte
  apply ByteMemory.forall_byte
  decide +kernel

def spinlock : TestAndSet UInt8 where
  isFree byte := (spinlockLockRound byte).1
  take byte := (spinlockLockRound byte).2
  free := spinlockUnlock
  isFree_free := rfl
  isFree_take byte := by simp [spinlockLockRound, spinlockTrylock, bts_taken]

section Results
variable {ι κ σ α : Type} [DecidableEq ι] {code : κ → Section σ α} {s₀ : σ}
  {M : Machine ι κ σ α UInt8}

/-- In every interleaving, with stores delayed in any way, at most one processor
is inside of its section; it sees the data as the finished sections, run one
after the other, left them and as its own stores changed them since. -/
theorem spinlock_exclusive (h : Reachable spinlock code s₀ M) :
    (∀ i j c d p q, M.phase i = .inside c p → M.phase j = .inside d q → i = j) ∧
      (∀ i c p, M.phase i = .inside c p → (bts M.word).1 = true ∧
        ∃ s, Serial code s₀ M.history s ∧
          p.eval (view (M.buffer i) M.data) = (code c).eval s) ∧
      ∃ s, Serial code s₀ M.history s ∧ ((∀ j, Quiet M j) → M.data = s) := by
  refine ⟨fun i j c d p q hi hj => h.exclusive hi hj, fun i c p hi => ?_, h.serial⟩
  obtain ⟨hw, -, -, hs⟩ := h.held.of_inside hi
  refine ⟨?_, hs⟩
  simpa [spinlock, spinlockLockRound, spinlockTrylock] using hw

end Results

def countUp (_ : Unit) : Section ℕ Unit := .load id fun n => .store (fun _ => n + 1) (.ret ())

theorem countUp_contended : ∃ M : Machine Bool Unit ℕ Unit UInt8,
    Reachable spinlock countUp 0 M ∧ M.phase true = .waiting () ∧
      M.phase false = .inside () (.ret ()) ∧ M.data = 0 ∧ view (M.buffer false) M.data = 1 :=
  ⟨_, .tail (.tail (.tail (.tail (.tail .refl (.enter _ false () rfl)) (.enter _ true () rfl))
    (.acquire _ false () rfl rfl rfl)) (.load _ false () id _ rfl)) (.store _ false () _ _ rfl),
    rfl, rfl, rfl, rfl⟩

theorem spinlock_exclusive_contended : ∃ M : Machine Bool Unit ℕ Unit UInt8,
    M.data = 0 ∧ M.phase false = .inside () (.ret ()) ∧ (bts M.word).1 = true ∧
      ∃ s, Serial countUp 0 M.history s ∧
        (.ret () : Section ℕ Unit).eval (view (M.buffer false) M.data) = (countUp ()).eval s := by
  obtain ⟨M, hM, -, hin, hdata, -⟩ := countUp_contended
  exact ⟨M, hdata, hin, (spinlock_exclusive hM).2.1 false () _ hin⟩

/-- Whatever the other processors do, a processor that spins can get the lock: no
reachable state is a deadlock. -/
theorem spinlock_progress {ι κ σ α : Type} [DecidableEq ι] {code : κ → Section σ α} {s₀ : σ}
    {M : Machine ι κ σ α UInt8} (h : Reachable spinlock code s₀ M) (i : ι) (c : κ)
    (hi : M.phase i = .waiting c) :
    ∃ N, Relation.ReflTransGen (Step spinlock code) M N ∧ N.phase i = .inside c (code c) :=
  h.can_enter hi

theorem spinlock_progress_contended : ∃ M N : Machine Bool Unit ℕ Unit UInt8,
    M.phase false = .inside () (.ret ()) ∧ Relation.ReflTransGen (Step spinlock countUp) M N ∧
      N.phase true = .inside () (countUp ()) := by
  obtain ⟨M, hM, hwait, hin, -⟩ := countUp_contended
  obtain ⟨N, hN, hturn⟩ := spinlock_progress hM true () hwait
  exact ⟨M, N, hin, hN, hturn⟩

end XldKernel.Spinlock
