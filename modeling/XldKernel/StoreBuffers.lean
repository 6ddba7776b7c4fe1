import Mathlib.Logic.Function.Basic
import Mathlib.Tactic

/-!
# Sections under a test-and-set lock on processors with store buffers

A store waits in the first-in first-out buffer of its processor and only that
processor reads through it; a locked test-and-set runs with an empty buffer, a
release is an ordinary store. A section is a tree of loads and stores that ends
with a result. The history records the sections in the order of their releases.
-/

namespace XldKernel.StoreBuffers

inductive Section (σ α : Type) : Type 1 where
  | ret (a : α)
  | load {β : Type} (f : σ → β) (k : β → Section σ α)
  | store (u : σ → σ) (k : Section σ α)

namespace Section
variable {σ α β γ : Type}

def eval : Section σ α → σ → α × σ
  | ret a, s => (a, s)
  | load f k, s => (k (f s)).eval s
  | store u k, s => k.eval (u s)

def bind : Section σ α → (α → Section σ β) → Section σ β
  | ret a, g => g a
  | load f k, g => load f fun b => (k b).bind g
  | store u k, g => store u (k.bind g)

@[simp] theorem eval_ret (a : α) (s : σ) : (ret a : Section σ α).eval s = (a, s) := rfl

@[simp] theorem eval_load (f : σ → β) (k : β → Section σ α) (s : σ) :
    (load f k).eval s = (k (f s)).eval s := rfl

@[simp] theorem eval_store (u : σ → σ) (k : Section σ α) (s : σ) :
    (store u k).eval s = k.eval (u s) := rfl

@[simp] theorem eval_bind (p : Section σ α) (g : α → Section σ β) (s : σ) :
    (p.bind g).eval s = (g (p.eval s).1).eval (p.eval s).2 := by
  induction p generalizing s with
  | ret a => rfl
  | load f k ih => exact ih (f s) s
  | store u k ih => exact ih (u s)

end Section

structure TestAndSet (ω : Type) where
  isFree : ω → Bool
  take : ω → ω
  free : ω
  isFree_free : isFree free = true
  isFree_take : ∀ w, isFree (take w) = false

inductive Store (σ ω : Type) where
  | word (w : ω)
  | data (u : σ → σ)

/-- Where a processor is in its call; `inside` keeps what is left of the section. -/
inductive Phase (κ σ α : Type) : Type 1 where
  | idle
  | waiting (c : κ)
  | inside (c : κ) (p : Section σ α)

structure Done (ι κ α : Type) where
  cpu : ι
  call : κ
  result : α

structure Machine (ι κ σ α ω : Type) : Type 1 where
  word : ω
  data : σ
  phase : ι → Phase κ σ α
  buffer : ι → List (Store σ ω)
  history : List (Done ι κ α)

variable {ι κ σ α ω : Type}

def Store.onData : Store σ ω → σ → σ
  | .word _, s => s
  | .data u, s => u s

def Store.onWord : Store σ ω → ω → ω
  | .word w, _ => w
  | .data _, w => w

def view (b : List (Store σ ω)) (s : σ) : σ := b.foldl (fun s e => e.onData s) s

@[simp] theorem view_nil (s : σ) : view ([] : List (Store σ ω)) s = s := rfl

@[simp] theorem view_cons (e : Store σ ω) (b : List (Store σ ω)) (s : σ) :
    view (e :: b) s = view b (e.onData s) := rfl

@[simp] theorem view_append (b : List (Store σ ω)) (e : Store σ ω) (s : σ) :
    view (b ++ [e]) s = e.onData (view b s) := by
  simp [view]

section Steps
variable [DecidableEq ι]

/-- One step of the machine. A test-and-set that finds the word taken either
tries again, which changes nothing, or gives up. -/
inductive Step (lock : TestAndSet ω) (code : κ → Section σ α) :
    Machine ι κ σ α ω → Machine ι κ σ α ω → Prop where
  | enter (M) (i : ι) (c : κ) : M.phase i = .idle →
      Step lock code M { M with phase := Function.update M.phase i (.waiting c) }
  | acquire (M) (i : ι) (c : κ) : M.phase i = .waiting c → M.buffer i = [] →
      lock.isFree M.word = true →
      Step lock code M { M with
        word := lock.take M.word
        phase := Function.update M.phase i (.inside c (code c)) }
  | giveUp (M) (i : ι) (c : κ) : M.phase i = .waiting c → M.buffer i = [] →
      lock.isFree M.word = false →
      Step lock code M { M with
        word := lock.take M.word
        phase := Function.update M.phase i .idle }
  | retry (M) (i : ι) (c : κ) : M.phase i = .waiting c → M.buffer i = [] →
      lock.isFree M.word = false →
      Step lock code M { M with word := lock.take M.word }
  | load (M) (i : ι) (c : κ) {β : Type} (f : σ → β) (k : β → Section σ α) :
      M.phase i = .inside c (.load f k) →
      Step lock code M { M with
        phase := Function.update M.phase i (.inside c (k (f (view (M.buffer i) M.data)))) }
  | store (M) (i : ι) (c : κ) (u : σ → σ) (k : Section σ α) :
      M.phase i = .inside c (.store u k) →
      Step lock code M { M with
        phase := Function.update M.phase i (.inside c k)
        buffer := Function.update M.buffer i (M.buffer i ++ [.data u]) }
  | release (M) (i : ι) (c : κ) (a : α) : M.phase i = .inside c (.ret a) →
      Step lock code M { M with
        phase := Function.update M.phase i .idle
        buffer := Function.update M.buffer i (M.buffer i ++ [.word lock.free])
        history := M.history ++ [⟨i, c, a⟩] }
  | drain (M) (i : ι) (e : Store σ ω) (b : List (Store σ ω)) : M.buffer i = e :: b →
      Step lock code M { M with
        word := e.onWord M.word
        data := e.onData M.data
        buffer := Function.update M.buffer i b }

end Steps

def start (lock : TestAndSet ω) (s : σ) : Machine ι κ σ α ω :=
  ⟨lock.free, s, fun _ => .idle, fun _ => [], []⟩

def Reachable [DecidableEq ι] (lock : TestAndSet ω) (code : κ → Section σ α) (s : σ) :
    Machine ι κ σ α ω → Prop :=
  Relation.ReflTransGen (Step lock code) (start lock s)

inductive Serial (code : κ → Section σ α) (s₀ : σ) : List (Done ι κ α) → σ → Prop where
  | nil : Serial code s₀ [] s₀
  | snoc {h : List (Done ι κ α)} {s s' : σ} {d : Done ι κ α} :
      Serial code s₀ h s → (code d.call).eval s = (d.result, s') →
      Serial code s₀ (h ++ [d]) s'

def Phase.Outside (p : Phase κ σ α) : Prop := ∀ c q, p ≠ .inside c q

def Quiet (M : Machine ι κ σ α ω) (j : ι) : Prop := (M.phase j).Outside ∧ M.buffer j = []

def DataOnly (b : List (Store σ ω)) : Prop := ∀ e ∈ b, ∃ u, e = Store.data u

/-- Who holds the lock, and what memory and buffers hold then. A processor
holds it from its test-and-set until its release has reached memory. -/
inductive Held (lock : TestAndSet ω) (code : κ → Section σ α) (s₀ : σ)
    (M : Machine ι κ σ α ω) : Prop where
  | nobody : lock.isFree M.word = true → (∀ j, Quiet M j) → Serial code s₀ M.history M.data →
      Held lock code s₀ M
  | inside (i : ι) (c : κ) (p : Section σ α) (s : σ) : lock.isFree M.word = false →
      M.phase i = .inside c p → DataOnly (M.buffer i) → (∀ j, j ≠ i → Quiet M j) →
      Serial code s₀ M.history s →
      p.eval (view (M.buffer i) M.data) = (code c).eval s → Held lock code s₀ M
  | releasing (i : ι) (b : List (Store σ ω)) : lock.isFree M.word = false →
      (M.phase i).Outside → M.buffer i = b ++ [.word lock.free] → DataOnly b →
      (∀ j, j ≠ i → Quiet M j) →
      Serial code s₀ M.history (view b M.data) → Held lock code s₀ M

section Invariant
variable {lock : TestAndSet ω} {code : κ → Section σ α} {s₀ : σ} {M N : Machine ι κ σ α ω}
  {i j : ι}

theorem outside_idle : (Phase.idle : Phase κ σ α).Outside := by
  intro c q h
  cases h

theorem outside_waiting (c : κ) : (Phase.waiting c : Phase κ σ α).Outside := by
  intro c' q h
  cases h

theorem Quiet.of_eq (h : Quiet M j) (hp : N.phase j = M.phase j) (hb : N.buffer j = M.buffer j) :
    Quiet N j := by
  rw [Quiet, hp, hb]
  exact h

theorem DataOnly.tail {e : Store σ ω} {b : List (Store σ ω)} (h : DataOnly (e :: b)) :
    DataOnly b := fun x hx => h x (List.mem_cons_of_mem e hx)

theorem Held.retake (hw : lock.isFree M.word = false) (h : Held lock code s₀ M) :
    Held lock code s₀ { M with word := lock.take M.word } := by
  cases h with
  | nobody hfree => simp [hw] at hfree
  | inside k c q s _ hk hb hq hs he =>
    exact .inside k c q s (lock.isFree_take _) hk hb hq hs he
  | releasing k b _ hk hb hd hq hs =>
    exact .releasing k b (lock.isFree_take _) hk hb hd hq hs

theorem Held.start (s : σ) : Held lock code s (start lock s : Machine ι κ σ α ω) :=
  .nobody lock.isFree_free (fun _ => ⟨outside_idle, rfl⟩) .nil

variable [DecidableEq ι]

theorem Quiet.setPhase {p : Phase κ σ α} (hp : p.Outside) (h : Quiet M j) :
    Quiet { M with phase := Function.update M.phase i p } j := by
  refine ⟨?_, h.2⟩
  by_cases hj : j = i
  · subst hj
    simpa using hp
  · simpa [hj] using h.1

theorem Held.setPhase {p : Phase κ σ α} (hi : (M.phase i).Outside) (hp : p.Outside)
    (h : Held lock code s₀ M) :
    Held lock code s₀ { M with phase := Function.update M.phase i p } := by
  cases h with
  | nobody hw hq hs => exact .nobody hw (fun j => (hq j).setPhase hp) hs
  | inside k c q s hw hk hb hq hs he =>
    have hne : k ≠ i := by
      rintro rfl
      exact hi c q hk
    exact .inside k c q s hw (by simpa [hne] using hk) hb (fun j hj => (hq j hj).setPhase hp) hs he
  | releasing k b hw hk hb hd hq hs =>
    refine .releasing k b hw ?_ hb hd (fun j hj => (hq j hj).setPhase hp) hs
    by_cases hne : k = i
    · subst hne
      simpa using hp
    · simpa [hne] using hk

theorem Held.of_inside {c : κ} {p : Section σ α} (h : Held lock code s₀ M)
    (hi : M.phase i = .inside c p) :
    lock.isFree M.word = false ∧ DataOnly (M.buffer i) ∧ (∀ j, j ≠ i → Quiet M j) ∧
      ∃ s, Serial code s₀ M.history s ∧
        p.eval (view (M.buffer i) M.data) = (code c).eval s := by
  cases h with
  | nobody hw hq hs => exact absurd hi ((hq i).1 c p)
  | inside k c' q s hw hk hb hq hs he =>
    by_cases hne : i = k
    · subst hne
      rw [hk] at hi
      cases hi
      exact ⟨hw, hb, hq, s, hs, he⟩
    · exact absurd hi ((hq i hne).1 c p)
  | releasing k b hw hk hb hd hq hs =>
    by_cases hne : i = k
    · subst hne
      exact absurd hi (hk c p)
    · exact absurd hi ((hq i hne).1 c p)

theorem Held.drain {e : Store σ ω} {b : List (Store σ ω)} (h : Held lock code s₀ M)
    (hi : M.buffer i = e :: b) :
    Held lock code s₀ { M with
      word := e.onWord M.word
      data := e.onData M.data
      buffer := Function.update M.buffer i b } := by
  have hnil : ∀ hq : Quiet M i, False := fun hq => by simp [hq.2] at hi
  cases h with
  | nobody hw hq hs => exact (hnil (hq i)).elim
  | inside k c q s hw hk hb hq hs he =>
    by_cases hne : i = k
    · subst hne
      rw [hi] at hb he
      obtain ⟨u, rfl⟩ := hb e (List.mem_cons_self ..)
      refine .inside i c q s hw hk (by simpa using hb.tail) ?_ hs (by simpa using he)
      intro j hj
      exact (hq j hj).of_eq rfl (by simp [hj])
    · exact (hnil (hq i hne)).elim
  | releasing k d hw hk hb hd hq hs =>
    by_cases hne : i = k
    · subst hne
      have hother : ∀ j, j ≠ i → Quiet { M with
          word := e.onWord M.word
          data := e.onData M.data
          buffer := Function.update M.buffer i b } j :=
        fun j hj => (hq j hj).of_eq rfl (by simp [hj])
      cases d with
      | nil =>
        -- the release itself arrives: nothing is left in any buffer
        obtain ⟨rfl, rfl⟩ : e = .word lock.free ∧ b = [] := by simpa [hi] using hb
        refine .nobody lock.isFree_free (fun j => ?_) hs
        by_cases hj : j = i
        · subst hj
          exact ⟨hk, by simp⟩
        · exact hother j hj
      | cons e' d =>
        obtain ⟨rfl, rfl⟩ : e = e' ∧ b = d ++ [.word lock.free] := by simpa [hi] using hb
        obtain ⟨u, rfl⟩ := hd e (List.mem_cons_self ..)
        exact .releasing i d hw hk (by simp) hd.tail hother hs
    · exact (hnil (hq i hne)).elim

theorem Held.step (h : Held lock code s₀ M) (hstep : Step lock code M N) :
    Held lock code s₀ N := by
  cases hstep with
  | enter i c hi => exact h.setPhase (by rw [hi]; exact outside_idle) (outside_waiting c)
  | giveUp i c hi _ hw =>
    exact (h.retake hw).setPhase (by rw [hi]; exact outside_waiting c) outside_idle
  | retry i c hi _ hw => exact h.retake hw
  | drain i e b hb => exact h.drain hb
  | acquire i c hi hb hw =>
    cases h with
    | nobody _ hq hs =>
      refine .inside i c (code c) M.data (lock.isFree_take _) (by simp) ?_ ?_ hs ?_
      · intro e he
        simp [hb] at he
      · intro j hj
        exact (hq j).of_eq (by simp [hj]) rfl
      · simp [hb]
    | inside k c q s hw' => simp [hw] at hw'
    | releasing k b hw' => simp [hw] at hw'
  | load i c f k hi =>
    obtain ⟨hw, hd, hq, s, hs, he⟩ := h.of_inside hi
    refine .inside i c (k (f (view (M.buffer i) M.data))) s hw (by simp) hd ?_ hs he
    intro j hj
    exact (hq j hj).of_eq (by simp [hj]) rfl
  | store i c u k hi =>
    obtain ⟨hw, hd, hq, s, hs, he⟩ := h.of_inside hi
    refine .inside i c k s hw (by simp) ?_ ?_ hs ?_
    · intro e hmem
      simp only [Function.update_self, List.mem_append, List.mem_singleton] at hmem
      rcases hmem with hmem | rfl
      · exact hd e hmem
      · exact ⟨u, rfl⟩
    · intro j hj
      exact (hq j hj).of_eq (by simp [hj]) (by simp [hj])
    · simpa [Store.onData] using he
  | release i c a hi =>
    obtain ⟨hw, hd, hq, s, hs, he⟩ := h.of_inside hi
    refine .releasing i (M.buffer i) hw (by simpa using outside_idle) (by simp) hd ?_ ?_
    · intro j hj
      exact (hq j hj).of_eq (by simp [hj]) (by simp [hj])
    · exact .snoc hs (by simpa using he.symm)

/-- The invariant of every interleaving. -/
theorem Reachable.held (h : Reachable lock code s₀ M) : Held lock code s₀ M := by
  induction h with
  | refl => exact Held.start s₀
  | tail _ hstep ih => exact ih.step hstep

theorem Reachable.exclusive {c c' : κ} {p q : Section σ α} (h : Reachable lock code s₀ M)
    (hi : M.phase i = .inside c p) (hj : M.phase j = .inside c' q) : i = j := by
  obtain ⟨-, -, hq, -⟩ := h.held.of_inside hi
  by_contra hne
  exact (hq j (Ne.symm hne)).1 c' q hj

/-- The finished sections have the effect and the results of running them one
after the other in the order of their releases, and memory holds that effect
once no processor is inside and the buffers are empty. -/
theorem Reachable.serial (h : Reachable lock code s₀ M) :
    ∃ s, Serial code s₀ M.history s ∧ ((∀ j, Quiet M j) → M.data = s) := by
  cases h.held with
  | nobody _ _ hs => exact ⟨M.data, hs, fun _ => rfl⟩
  | inside k c q s _ hk _ _ hs => exact ⟨s, hs, fun hq => absurd hk ((hq k).1 c q)⟩
  | releasing k b _ _ hb _ _ hs =>
    refine ⟨_, hs, fun hq => ?_⟩
    simp [(hq k).2] at hb

end Invariant

section Progress
variable [DecidableEq ι] (lock : TestAndSet ω) (code : κ → Section σ α) {s₀ : σ}

theorem drains (k : ι) (b : List (Store σ ω)) (M : Machine ι κ σ α ω)
    (hk : M.buffer k = b ++ [.word lock.free]) (hother : ∀ j, j ≠ k → M.buffer j = []) :
    ∃ N, Relation.ReflTransGen (Step lock code) M N ∧ N.phase = M.phase ∧
      N.history = M.history ∧ lock.isFree N.word = true ∧ ∀ j, N.buffer j = [] := by
  induction b generalizing M with
  | nil =>
    refine ⟨_, .single (.drain M k _ [] hk), rfl, rfl, lock.isFree_free, fun j => ?_⟩
    by_cases hj : j = k
    · simp [hj]
    · simpa [hj] using hother j hj
  | cons e b ih =>
    obtain ⟨N, hN, hrest⟩ := ih { M with
      word := e.onWord M.word
      data := e.onData M.data
      buffer := Function.update M.buffer k (b ++ [.word lock.free]) } (by simp)
      (fun j hj => by simpa [hj] using hother j hj)
    exact ⟨N, .head (.drain M k e _ hk) hN, hrest⟩

theorem finishes (k : ι) (c : κ) (p : Section σ α) (M : Machine ι κ σ α ω)
    (hk : M.phase k = .inside c p) (hother : ∀ j, j ≠ k → M.buffer j = []) :
    ∃ N a, Relation.ReflTransGen (Step lock code) M N ∧
      N.phase = Function.update M.phase k .idle ∧ N.history = M.history ++ [⟨k, c, a⟩] ∧
      lock.isFree N.word = true ∧ ∀ j, N.buffer j = [] := by
  induction p generalizing M with
  | ret a =>
    obtain ⟨N, hN, hrest⟩ := drains lock code k (M.buffer k)
      { M with
        phase := Function.update M.phase k .idle
        buffer := Function.update M.buffer k (M.buffer k ++ [.word lock.free])
        history := M.history ++ [⟨k, c, a⟩] } (by simp)
      (fun j hj => by simpa [hj] using hother j hj)
    exact ⟨N, a, .head (.release M k c a hk) hN, hrest⟩
  | load f q ih =>
    obtain ⟨N, a, hN, hphase, hrest⟩ := ih (f (view (M.buffer k) M.data)) { M with
      phase := Function.update M.phase k (.inside c (q (f (view (M.buffer k) M.data)))) }
      (by simp) hother
    exact ⟨N, a, .head (.load M k c f q hk) hN, by simpa using hphase, hrest⟩
  | store u q ih =>
    obtain ⟨N, a, hN, hphase, hrest⟩ := ih { M with
      phase := Function.update M.phase k (.inside c q)
      buffer := Function.update M.buffer k (M.buffer k ++ [.data u]) } (by simp)
      (fun j hj => by simpa [hj] using hother j hj)
    exact ⟨N, a, .head (.store M k c u q hk) hN, by simpa using hphase, hrest⟩

theorem waiting_finishes {k : ι} {c : κ} {M : Machine ι κ σ α ω} (hk : M.phase k = .waiting c)
    (hfree : lock.isFree M.word = true) (hempty : ∀ j, M.buffer j = []) :
    ∃ N a, Relation.ReflTransGen (Step lock code) M N ∧
      N.phase = Function.update M.phase k .idle ∧ N.history = M.history ++ [⟨k, c, a⟩] ∧
      ∀ j, N.buffer j = [] := by
  obtain ⟨N, a, hN, hphase, hhist, -, hrest⟩ := finishes lock code k c (code c) { M with
    word := lock.take M.word
    phase := Function.update M.phase k (.inside c (code c)) } (by simp) (fun j _ => hempty j)
  exact ⟨N, a, .head (.acquire M k c hk (hempty k) hfree) hN, by simpa using hphase, hhist, hrest⟩

theorem exists_contended {i j : ι} (hij : i ≠ j) (s : σ) (c d : κ) :
    ∃ M N : Machine ι κ σ α ω, Reachable lock code s M ∧ M.phase i = .inside c (code c) ∧
      M.phase j = .waiting d ∧ Relation.ReflTransGen (Step lock code) M N ∧
      N.history.map (fun done => (done.cpu, done.call)) = [(i, c), (j, d)] ∧
      N.phase = (fun _ => .idle) ∧ ∀ k, N.buffer k = [] := by
  have hrun : ∃ M : Machine ι κ σ α ω, Reachable lock code s M ∧
      M.phase = Function.update (Function.update (fun _ => .idle) j (.waiting d)) i
        (.inside c (code c)) ∧ M.history = [] ∧ ∀ k, M.buffer k = [] := by
    have henter : Reachable lock code s _ := (Relation.ReflTransGen.single
      (.enter (start lock s : Machine ι κ σ α ω) j d rfl)).tail
        (.enter _ i c (by simp [hij, start]))
    refine ⟨_, henter.tail (.acquire _ i c (by simp) rfl lock.isFree_free), ?_, rfl, fun _ => rfl⟩
    simp [start]
  obtain ⟨M, hM, hphase, hhist, hempty⟩ := hrun
  have hi : M.phase i = .inside c (code c) := by rw [hphase, Function.update_self]
  have hj : M.phase j = .waiting d := by
    rw [hphase, Function.update_of_ne hij.symm, Function.update_self]
  obtain ⟨N₁, a, hN₁, hphase₁, hhist₁, hfree, hempty₁⟩ :=
    finishes lock code i c (code c) M hi (fun k _ => hempty k)
  have hj₁ : N₁.phase j = .waiting d := by rw [hphase₁, Function.update_of_ne hij.symm, hj]
  obtain ⟨N₂, b, hN₂, hphase₂, hhist₂, hempty₂⟩ := waiting_finishes lock code hj₁ hfree hempty₁
  refine ⟨M, N₂, hM, hi, hj, hN₁.trans hN₂, ?_, ?_, hempty₂⟩
  · simp [hhist₂, hhist₁, hhist]
  · funext k
    simp only [hphase₂, hphase₁, hphase, Function.update_apply]
    split_ifs <;> rfl

/-- No reachable state is stuck: a waiting processor can still get its turn. -/
theorem Reachable.can_enter {lock : TestAndSet ω} {code : κ → Section σ α}
    {M : Machine ι κ σ α ω} {i : ι} {c : κ} (h : Reachable lock code s₀ M)
    (hi : M.phase i = .waiting c) :
    ∃ N, Relation.ReflTransGen (Step lock code) M N ∧ N.phase i = .inside c (code c) := by
  have hfree : ∃ N, Relation.ReflTransGen (Step lock code) M N ∧ N.phase i = .waiting c ∧
      lock.isFree N.word = true ∧ ∀ j, N.buffer j = [] := by
    cases h.held with
    | nobody hw hq _ => exact ⟨M, .refl, hi, hw, fun j => (hq j).2⟩
    | inside k c' p s _ hk _ hq =>
      obtain ⟨N, a, hN, hphase, -, hw, hempty⟩ := finishes lock code k c' p M hk
        (fun j hj => (hq j hj).2)
      have hne : i ≠ k := by
        rintro rfl
        simp [hk] at hi
      exact ⟨N, hN, by simp [hphase, hne, hi], hw, hempty⟩
    | releasing k b _ _ hb _ hq =>
      obtain ⟨N, hN, hphase, -, hw, hempty⟩ := drains lock code k b M hb
        (fun j hj => (hq j hj).2)
      exact ⟨N, hN, by rw [hphase, hi], hw, hempty⟩
  obtain ⟨N, hN, hphase, hw, hempty⟩ := hfree
  exact ⟨_, hN.tail (.acquire N i c hphase (hempty i) hw), by simp⟩

end Progress

end XldKernel.StoreBuffers
