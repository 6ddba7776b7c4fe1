import XldKernel.Components
import XldKernel.FatListedNames
import XldKernel.FatReadCosts

/-!
# FAT32: path resolution, component by component

Source: `kernel/src/fat32.c` (`fat32_resolve`). The loop cuts the path at its slashes in
place and looks a component up as soon as it finds the slash behind it. Here the same is
said with the list of components: they are entered one after the other, and a last
component without a slash behind it is only converted to a name.
-/

namespace XldKernel.Fat32
open ByteMemory BlockDevice LinkedPath Components
variable {σ : Type}

def enterDir (fs : Fs σ) (cur : ℕ) (component : List UInt8) (s : σ) : Option (Option ℕ × σ) :=
  (fat32Find fs cur (to83 component) s).map fun (found, s) =>
    ((found.filter fun f => f.dirent.IsDir).map fun f => f.dirent.cluster, s)

def enterAll (fs : Fs σ) : ℕ → List (List UInt8) → σ → Option (Option ℕ × σ)
  | cur, [], s => some (some cur, s)
  | cur, component :: cs, s =>
    match enterDir fs cur component s with
    | none => none
    | some (none, s) => some (none, s)
    | some (some d, s) => enterAll fs d cs s

/-- The components that a slash follows are entered from `cur`, the last one is converted. -/
def resolveFrom (fs : Fs σ) (cur : ℕ) (path : List UInt8) (s : σ) : Option (Option Resolved × σ) :=
  (enterAll fs cur (followed slash path) s).map fun (d, s) =>
    (d.map fun d => ⟨d, (final slash path).map to83⟩, s)

def resolveByComponents (fs : Fs σ) (path : List UInt8) (s : σ) : Option (Option Resolved × σ) :=
  if 256 ≤ (resolveStart path).length then some (none, s)
  else resolveFrom fs fs.bpb.rootCluster path s

section Rounds
variable {fs : Fs σ} {cur : ℕ} {comp tail : List UInt8} {s : σ}

theorem resolveFrom_step (hcomp : slash ∉ comp) (hne : comp ≠ []) :
    resolveFrom fs cur (comp ++ slash :: tail) s =
      match enterDir fs cur comp s with
      | none => none
      | some (none, s) => some (none, s)
      | some (some d, s) => resolveFrom fs d tail s := by
  rw [resolveFrom, followed_piece_sep hcomp hne, final_piece_sep hcomp hne, enterAll]
  rcases enterDir fs cur comp s with _ | ⟨_ | d, s'⟩ <;> rfl

theorem resolveLoop_step (n : ℕ) (hcomp : slash ∉ comp) (hne : comp ≠ []) :
    resolveLoop fs (n + 1) cur (comp ++ slash :: tail) s =
      match enterDir fs cur comp s with
      | none => none
      | some (none, s) => some (none, s)
      | some (some d, s) => resolveLoop fs n d tail s := by
  rcases hfind : fat32Find fs cur (to83 comp) s with _ | ⟨_ | found, s'⟩
  · simp [resolveLoop, takeWhile_component hcomp, hne, enterDir, hfind]
  · rw [resolveLoop_missing hcomp hne hfind]
    simp [enterDir, hfind]
  · by_cases hdir : found.dirent.IsDir
    · rw [resolveLoop_enter hcomp hne hfind hdir]
      simp [enterDir, hfind, Option.filter, hdir]
    · rw [resolveLoop_file hcomp hne hfind hdir]
      simp [enterDir, hfind, Option.filter, hdir]

theorem resolveLoop_eq (fs : Fs σ) (n cur : ℕ) (start : List UInt8) (s : σ)
    (hn : start.length ≤ n) :
    resolveLoop fs n cur start s = resolveFrom fs cur start s := by
  induction start using piece_induction slash generalizing n cur s with
  | nil =>
    cases n with
    | zero => rfl
    | succ n => rfl
  | last comp hcomp hne =>
    obtain ⟨n, rfl⟩ := Nat.exists_eq_succ_of_ne_zero
      (Nat.ne_zero_of_lt (Nat.lt_of_lt_of_le (List.length_pos_iff.mpr hne) hn))
    rw [resolveLoop_last hcomp hne, resolveFrom, followed_piece hcomp hne, final_piece hcomp hne]
    rfl
  | skip tail ih =>
    obtain ⟨n, rfl⟩ := Nat.exists_eq_succ_of_ne_zero (Nat.ne_zero_of_lt hn)
    rw [resolveLoop_slash, ih n cur s (by simpa using hn), resolveFrom, resolveFrom,
      followed_sep_cons, final_sep_cons]
  | step comp tail hcomp hne ih =>
    rw [List.length_append, List.length_cons] at hn
    obtain ⟨n, rfl⟩ := Nat.exists_eq_succ_of_ne_zero (show n ≠ 0 by omega)
    rw [resolveLoop_step n hcomp hne, resolveFrom_step hcomp hne]
    rcases enterDir fs cur comp s with _ | ⟨_ | d, s'⟩
    · rfl
    · rfl
    · exact ih n d s' (by omega)

end Rounds

theorem resolveFrom_start (fs : Fs σ) (cur : ℕ) (path : List UInt8) (s : σ) :
    resolveFrom fs cur (resolveStart path) s = resolveFrom fs cur path s := by
  rw [resolveStart]
  split_ifs with hhead
  · obtain ⟨tail, rfl⟩ := List.head?_eq_some_iff.mp hhead
    rw [List.tail_cons, resolveFrom, resolveFrom, followed_sep_cons, final_sep_cons]
  · rfl

theorem fat32Resolve_eq (fs : Fs σ) (path : List UInt8) (s : σ) :
    fat32Resolve fs path s = resolveByComponents fs path s := by
  by_cases hroot : path = [] ∨ path = [slash]
  · rw [fat32Resolve, if_pos hroot]
    rcases hroot with rfl | rfl <;> rfl
  · rw [fat32Resolve_start fs hroot, resolveByComponents, ← resolveFrom_start,
      resolveLoop_eq _ _ _ _ _ le_rfl]

inductive DirReached (l : Layout) (m : Mem) : ℕ → Prop
  | root : DirReached l m l.bpb.rootCluster
  | entry {d a : ℕ} {cs : List ℕ} (hd : DirReached l m d) (hpath : Path (l.next m) d cs endOfChain)
      (hcs : endOfChain ∉ cs) (ha : a ∈ liveSlots m (l.dirSlots cs)) (hdir : (direntAt m a).IsDir) :
      DirReached l m (direntAt m a).cluster

def ChainsEnd (l : Layout) (m : Mem) : Prop :=
  ∀ d, DirReached l m d → ∃ cs, Path (l.next m) d cs endOfChain ∧ endOfChain ∉ cs

section Returns
variable {l : Layout} {m : Mem}

theorem ChainsEnd.enterDir (h : ChainsEnd l m) {cur : ℕ} (hcur : DirReached l m cur)
    (comp : List UInt8) :
    ∃ d, enterDir l.ram cur comp m = some (d, m) ∧ ∀ x ∈ d, DirReached l m x := by
  obtain ⟨cs, hpath, hcs⟩ := h cur hcur
  rw [Fat32.enterDir, fat32Find_ram l hpath hcs (path_length_lt hpath hcs), Option.map_some]
  refine ⟨_, rfl, fun x hx => ?_⟩
  rw [Option.mem_def, Option.map_eq_some_iff] at hx
  obtain ⟨f, hf, rfl⟩ := hx
  obtain ⟨hfound, hdir⟩ := Option.filter_eq_some_iff.mp hf
  obtain ⟨a, ha, rfl⟩ := Option.map_eq_some_iff.mp hfound
  exact .entry hcur hpath hcs (List.mem_of_find?_eq_some ha) (of_decide_eq_true hdir)

theorem ChainsEnd.enterAll (h : ChainsEnd l m) {cur : ℕ} (hcur : DirReached l m cur)
    (cs : List (List UInt8)) : ∃ d, enterAll l.ram cur cs m = some (d, m) := by
  induction cs generalizing cur with
  | nil => exact ⟨_, rfl⟩
  | cons comp cs ih =>
    obtain ⟨d, hd, hreached⟩ := h.enterDir hcur comp
    rw [Fat32.enterAll, hd]
    cases d with
    | none => exact ⟨_, rfl⟩
    | some d => exact ih (hreached d rfl)

theorem ChainsEnd.resolve (h : ChainsEnd l m) (path : List UInt8) :
    ∃ r, fat32Resolve l.ram path m = some (r, m) := by
  rw [fat32Resolve_eq, resolveByComponents]
  split_ifs
  · exact ⟨_, rfl⟩
  · obtain ⟨d, hd⟩ := h.enterAll .root (followed slash path)
    rw [resolveFrom]
    simp only [Layout.ram_toLayout] at hd ⊢
    rw [hd]
    exact ⟨_, rfl⟩

end Returns

/-- Resolution is entering the components one by one, whatever the device does, and it
returns on every volume whose directories end, even if reads fail. -/
theorem resolve_componentwise (path : List UInt8) :
    (∀ (σ : Type) (fs : Fs σ) (s : σ), fat32Resolve fs path s = resolveByComponents fs path s) ∧
    ∀ (l : Layout) (d : Faulty), ChainsEnd l d.mem →
      ∃ r n, fat32Resolve l.faulty path d = some (r, d.skip n) := by
  refine ⟨fun σ fs s => fat32Resolve_eq fs path s, fun l d hends => ?_⟩
  obtain ⟨r, hram⟩ := hends.resolve path
  obtain ⟨k, hcosts⟩ := costs_resolve hram
  rcases hcosts.faulty d rfl with ⟨-, hrun⟩ | ⟨j, -, -, hrun⟩
  · exact ⟨r, k, hrun⟩
  · exact ⟨none, j + 1, hrun⟩

theorem helloDisk_chainsEnd : ChainsEnd tinyLayout helloDisk := by
  have hroot : Path (tinyLayout.next helloDisk) 2 [2] endOfChain := by decide +kernel
  have hfiles : ∀ a ∈ liveSlots helloDisk (tinyLayout.dirSlots [2]),
      ¬ (direntAt helloDisk a).IsDir := by
    decide +kernel
  have hall : ∀ d, DirReached tinyLayout helloDisk d → d = 2 := by
    intro d hd
    induction hd with
    | root => rfl
    | entry _ hpath hcs ha hdir ih =>
      subst ih
      obtain rfl := hpath.unique hroot hcs (by decide)
      exact absurd hdir (hfiles _ ha)
  intro d hd
  rw [hall d hd]
  exact ⟨[2], hroot, by decide⟩

theorem resolve_componentwise_hello :
    ∃ r n, fat32Resolve tinyLayout.faulty [47, 65, 47, 66] ⟨helloDisk, fun k => k = 1,
      fun _ => false⟩ =
      some (r, (⟨helloDisk, fun k => k = 1, fun _ => false⟩ : Faulty).skip n) :=
  (resolve_componentwise [47, 65, 47, 66]).2 tinyLayout _ helloDisk_chainsEnd

end XldKernel.Fat32
