import XldKernel.FatFaults
import XldKernel.FaultSchedules

/-!
# FAT32: what lookups cost on a device that fails

Directory walks and path resolution only read, and a read that fails ends them as
if the directory ended there. So each has a cost in reads and one result for every
failed read: a link is an end mark, an entry is not found, a path does not resolve.
-/

namespace XldKernel.Fat32
open ByteMemory BlockDevice LinkedPath

def Layout.counted (l : Layout) : Fs Counted := ⟨l, countedDisk⟩

variable {l : Layout} {m : Mem} {test : Mem → ℕ → Verdict}

theorem costs_nextCluster (l : Layout) (c : ℕ) (m : Mem) :
    Costs (fun _ dev s => some (nextCluster ⟨l, dev⟩ c s)) m 1 (l.next m c) endOfChain := by
  have hread := (costs_read m ((l.fatStart + c * 4 % 2 ^ 32 / sectorSize) % 2 ^ 32)).map
    fun buf =>
      linkOf (buf.elim fat32BadCluster fun b => load b (c * 4 % 2 ^ 32 % sectorSize) 4 % 2 ^ 28)
  simp only [Option.elim_some, load_sector] at hread
  refine hread.congr fun σ dev s => ?_
  simp only [nextCluster, readFatEntry, Option.map_some]
  rcases dev.read ((l.fatStart + c * 4 % 2 ^ 32 / sectorSize) % 2 ^ 32) s with ⟨_ | buf, s'⟩
  · rfl
  · rfl

def walkSector (l : Layout) (test : Mem → ℕ → Verdict) (first n sec : ℕ) :
    Option Mem → Program (Walk Hit)
  | none => fun _ _ s => some (.stop, s)
  | some buf => fun _ dev s =>
    match walkEntries test buf dirEntriesPerSec 0 with
    | .stop => some (.stop, s)
    | .hit ent => some (.hit ⟨(first + sec) % 2 ^ 32, ent, buf⟩, s)
    | .next => some (walkSectors ⟨l, dev⟩ test first n (sec + 1) s)

theorem walkSectors_succ {σ : Type} (l : Layout) (dev : BlockDev σ) (first n sec : ℕ) (s : σ) :
    some (walkSectors ⟨l, dev⟩ test first (n + 1) sec s) =
      (some (dev.read ((first + sec) % 2 ^ 32) s)).bind fun x =>
        walkSector l test first n sec x.1 σ dev x.2 := by
  rw [walkSectors, Option.bind_some]
  rcases dev.read ((first + sec) % 2 ^ 32) s with ⟨_ | buf, s'⟩
  · rfl
  · simp only [walkSector]
    cases walkEntries test buf dirEntriesPerSec 0 with
    | stop => rfl
    | hit ent => rfl
    | next => rfl

theorem costs_walkSectors (l : Layout) (test : Mem → ℕ → Verdict) (first n sec : ℕ) (m : Mem) :
    ∃ k r, Costs (fun _ dev s => some (walkSectors ⟨l, dev⟩ test first n sec s)) m k r .stop := by
  induction n generalizing sec with
  | zero => exact ⟨0, .next, costs_pure m _ _⟩
  | succ n ih =>
    have hread := costs_read m ((first + sec) % 2 ^ 32)
    have hrest : ∃ k r, Costs (walkSector l test first n sec
        (some (sector m ((first + sec) % 2 ^ 32)))) m k r .stop := by
      simp only [walkSector]
      cases walkEntries test (sector m ((first + sec) % 2 ^ 32)) dirEntriesPerSec 0 with
      | stop => exact ⟨0, _, costs_pure m _ _⟩
      | hit ent => exact ⟨0, _, costs_pure m _ _⟩
      | next => exact ih (sec + 1)
    obtain ⟨k, r, hk⟩ := hrest
    exact ⟨1 + k, r, (hread.bind hk fun _ => rfl).congr fun σ dev s =>
      walkSectors_succ l dev _ _ _ s⟩

def walkCluster (l : Layout) (test : Mem → ℕ → Verdict) (fuel c : ℕ) :
    Walk Hit → Program (Option Hit)
  | .stop => fun _ _ s => some (none, s)
  | .hit h => fun _ _ s => some (some h, s)
  | .next => fun _ dev s => (some (nextCluster ⟨l, dev⟩ c s)).bind fun x =>
      walkDir ⟨l, dev⟩ test fuel x.1 x.2

theorem walkDir_succ {σ : Type} (l : Layout) (dev : BlockDev σ) (fuel : ℕ) {c : ℕ}
    (hc : c ≠ endOfChain) (s : σ) :
    walkDir ⟨l, dev⟩ test (fuel + 1) c s =
      (some (walkSectors ⟨l, dev⟩ test (l.firstSector c) l.bpb.sectorsPerCluster 0 s)).bind fun x =>
        walkCluster l test fuel c x.1 σ dev x.2 := by
  rw [walkDir, if_neg hc, Option.bind_some]
  dsimp only
  rcases walkSectors ⟨l, dev⟩ test (l.firstSector c) l.bpb.sectorsPerCluster 0 s with
    ⟨_ | h | _, s'⟩
  · rfl
  · rfl
  · rfl

theorem costs_walkDir {fuel c : ℕ} {r : Option Hit} {m' : Mem}
    (h : walkDir l.ram test fuel c m = some (r, m')) :
    ∃ k, Costs (fun _ dev s => walkDir ⟨l, dev⟩ test fuel c s) m k r none := by
  induction fuel generalizing c with
  | zero => simp [walkDir] at h
  | succ fuel ih =>
    by_cases hc : c = endOfChain
    · have hstop : ∀ (σ : Type) (dev : BlockDev σ) (s : σ),
          walkDir ⟨l, dev⟩ test (fuel + 1) c s = some (none, s) := fun σ dev s => by
        rw [walkDir, if_pos hc]
      have hr : r = none := by
        have hram := hstop Mem ramDisk m
        rw [show walkDir ⟨l, ramDisk⟩ test (fuel + 1) c m = some (r, m') from h] at hram
        exact congrArg Prod.fst (Option.some_inj.mp hram)
      subst hr
      exact ⟨0, (costs_pure m none none).congr hstop⟩
    · obtain ⟨k, w, hsec⟩ := costs_walkSectors l test (l.firstSector c) l.bpb.sectorsPerCluster 0 m
      have hram : walkDir ⟨l, ramDisk⟩ test (fuel + 1) c m = some (r, m') := h
      rw [walkDir_succ l ramDisk fuel hc m, hsec.ram, Option.bind_some, eq_comm] at hram
      have hrest : ∃ k', Costs (walkCluster l test fuel c w) m k' r none := by
        cases w with
        | stop =>
          obtain rfl : r = none := congrArg Prod.fst (Option.some_inj.mp hram)
          exact ⟨0, costs_pure m _ _⟩
        | hit hh =>
          obtain rfl : r = some hh := congrArg Prod.fst (Option.some_inj.mp hram)
          exact ⟨0, costs_pure m _ _⟩
        | next =>
          have hnext := costs_nextCluster l c m
          simp only [walkCluster, hnext.ram, Option.bind_some] at hram
          obtain ⟨k', hk'⟩ := ih hram.symm
          cases fuel with
          | zero => simp [walkDir] at hram
          | succ fuel =>
            refine ⟨1 + k', hnext.bind (G := fun c _ dev s => walkDir ⟨l, dev⟩ test (fuel + 1) c s)
              hk' ?_⟩
            intro d
            rw [walkDir, if_pos rfl]
      obtain ⟨k', hk'⟩ := hrest
      exact ⟨k + k', (hsec.bind hk' fun _ => rfl).congr fun σ dev s => walkDir_succ l dev fuel hc s⟩

theorem costs_find {dir : ℕ} {target : List UInt8} {r : Option Found}
    (h : fat32Find l.ram dir target m = some (r, m)) :
    ∃ k, Costs (fun _ dev s => fat32Find ⟨l, dev⟩ dir target s) m k r none := by
  obtain ⟨⟨hit, m'⟩, hwalk, heq⟩ := Option.map_eq_some_iff.mp h
  obtain ⟨k, hk⟩ := costs_walkDir hwalk
  obtain ⟨rfl, -⟩ := Prod.mk.inj heq
  exact ⟨k, hk.map (Option.map Hit.found)⟩

theorem costs_walkSectors_skip (htest : LocalTest test) (c n sec : ℕ)
    (hskip : ∀ i, sec ≤ i → i < sec + n → ∀ a ∈ sectorSlots (l.sectorOf c i), test m a = .skip) :
    Costs (fun _ dev s => some (walkSectors ⟨l, dev⟩ test (l.firstSector c) n sec s)) m n
      .next .stop := by
  induction n generalizing sec with
  | zero => exact costs_pure m _ _
  | succ n ih =>
    have hread := costs_read m (l.sectorOf c sec)
    have hent : walkEntries test (sector m (l.sectorOf c sec)) dirEntriesPerSec 0 = .next := by
      rw [walkEntries_slots htest, scan_all_skip (hskip sec le_rfl (by omega))]
      rfl
    have hrest : Costs (walkSector l test (l.firstSector c) n sec
        (some (sector m (l.sectorOf c sec)))) m n .next .stop := by
      simp only [walkSector, hent]
      exact ih (sec + 1) fun i h1 h2 => hskip i (by omega) (by omega)
    have hboth := hread.bind hrest fun _ => rfl
    rw [Nat.add_comm] at hboth
    exact hboth.congr fun σ dev s => walkSectors_succ l dev _ _ _ s

theorem costs_walkDir_skip (htest : LocalTest test) {cs : List ℕ} {c fuel : ℕ}
    (hpath : Path (l.next m) c cs endOfChain) (hcs : endOfChain ∉ cs) (hfuel : cs.length < fuel)
    (hskip : ∀ a ∈ l.dirSlots cs, test m a = .skip) :
    Costs (fun _ dev s => walkDir ⟨l, dev⟩ test fuel c s) m
      (cs.length * (l.bpb.sectorsPerCluster + 1)) none none := by
  obtain ⟨fuel, rfl⟩ := Nat.exists_eq_succ_of_ne_zero (Nat.ne_of_gt (Nat.zero_lt_of_lt hfuel))
  induction cs generalizing c fuel with
  | nil =>
    have hc : c = endOfChain := hpath
    rw [List.length_nil, Nat.zero_mul]
    exact (costs_pure m none none).congr fun σ dev s => by rw [walkDir, if_pos hc]
  | cons x cs ih =>
    obtain ⟨rfl, hrest⟩ := hpath
    have hne : c ≠ endOfChain := fun h => hcs (h ▸ List.mem_cons_self)
    have hsec := costs_walkSectors_skip (m := m) (l := l) htest c l.bpb.sectorsPerCluster 0 (by
      intro i _ hi a ha
      refine hskip a (List.mem_flatMap.mpr ⟨c, List.mem_cons_self, ?_⟩)
      exact List.mem_flatMap.mpr ⟨i, List.mem_range.mpr (by omega), ha⟩)
    have hlen : cs.length < fuel := by simpa using hfuel
    obtain ⟨fuel, rfl⟩ := Nat.exists_eq_succ_of_ne_zero (Nat.ne_of_gt (Nat.zero_lt_of_lt hlen))
    have htail := ih hrest (fun h => hcs (List.mem_cons_of_mem _ h))
      (fun a ha => hskip a (by
        rw [Layout.dirSlots, List.flatMap_cons]
        exact List.mem_append_right _ ha)) fuel hlen
    have hnext := (costs_nextCluster l c m).bind
      (G := fun c _ dev s => walkDir ⟨l, dev⟩ test (fuel + 1) c s) htail
      fun d => by rw [walkDir, if_pos rfl]
    have hboth := hsec.bind (G := walkCluster l test (fuel + 1) c) hnext fun _ => rfl
    have hcount : l.bpb.sectorsPerCluster + (1 + cs.length * (l.bpb.sectorsPerCluster + 1)) =
        (c :: cs).length * (l.bpb.sectorsPerCluster + 1) := by
      rw [List.length_cons, Nat.succ_mul]
      omega
    rw [hcount] at hboth
    exact hboth.congr fun σ dev s => walkDir_succ l dev _ hne s

def resolveFound (l : Layout) (n : ℕ) (rest : List UInt8) : Option Found → Program (Option Resolved)
  | none => fun _ _ s => some (none, s)
  | some found => fun _ dev s =>
    if found.dirent.IsDir then resolveLoop ⟨l, dev⟩ n found.dirent.cluster rest s
      else some (none, s)

theorem resolveLoop_component {σ : Type} (l : Layout) (dev : BlockDev σ) (n cur : ℕ)
    {comp : List UInt8} (tail : List UInt8) (hcomp : slash ∉ comp) (hne : comp ≠ []) (s : σ) :
    resolveLoop ⟨l, dev⟩ (n + 1) cur (comp ++ slash :: tail) s =
      (fat32Find ⟨l, dev⟩ cur (to83 comp) s).bind fun x => resolveFound l n tail x.1 σ dev x.2 := by
  rcases hfind : fat32Find ⟨l, dev⟩ cur (to83 comp) s with _ | ⟨_ | found, s'⟩
  · simp [resolveLoop, takeWhile_component hcomp, hne, hfind]
  · exact resolveLoop_missing hcomp hne hfind
  · by_cases hdir : found.dirent.IsDir
    · rw [resolveLoop_enter hcomp hne hfind hdir]
      exact (if_pos hdir).symm
    · rw [resolveLoop_file hcomp hne hfind hdir]
      exact (if_neg hdir).symm

theorem costs_component {n cur : ℕ} {comp tail : List UInt8} (hcomp : slash ∉ comp)
    (hne : comp ≠ []) {found : Option Found} {r : Option Resolved}
    (hfind : fat32Find l.ram cur (to83 comp) m = some (found, m))
    (hrest : ∃ k, Costs (resolveFound l n tail found) m k r none) :
    ∃ k, Costs (fun _ dev s => resolveLoop ⟨l, dev⟩ (n + 1) cur (comp ++ slash :: tail) s) m k r
      none := by
  obtain ⟨k, hk⟩ := costs_find hfind
  obtain ⟨k', hk'⟩ := hrest
  exact ⟨k + k', (hk.bind hk' fun _ => rfl).congr fun σ dev s =>
    resolveLoop_component l dev n cur tail hcomp hne s⟩

theorem Resolves.costs {n cur : ℕ} {start : List UInt8} {r : Option Resolved} {m' : Mem}
    (h : Resolves l.ram n cur start m r m') :
    ∃ k, Costs (fun _ dev s => resolveLoop ⟨l, dev⟩ n cur start s) m k r none := by
  induction h with
  | spent => exact ⟨0, costs_pure _ _ _⟩
  | nil => exact ⟨0, costs_pure _ _ _⟩
  | last hcomp hne =>
    exact ⟨0, (costs_pure _ _ _).congr fun σ dev s => resolveLoop_last hcomp hne⟩
  | skip _ ih =>
    obtain ⟨k, hk⟩ := ih
    exact ⟨k, hk.congr fun σ dev s => resolveLoop_slash _ _ _ _ _⟩
  | missing hcomp hne hfind =>
    obtain rfl := fat32Find_mem l hfind
    exact costs_component hcomp hne hfind ⟨0, costs_pure _ _ _⟩
  | file hcomp hne hfind hdir =>
    obtain rfl := fat32Find_mem l hfind
    exact costs_component hcomp hne hfind
      ⟨0, (costs_pure _ none none).congr fun σ dev s => if_neg hdir⟩
  | enter hcomp hne hfind hdir _ ih =>
    obtain rfl := fat32Find_mem l hfind
    obtain ⟨k, hk⟩ := ih
    exact costs_component hcomp hne hfind ⟨k, hk.congr fun σ dev s => if_pos hdir⟩

theorem costs_resolve {path : List UInt8} {r : Option Resolved}
    (h : fat32Resolve l.ram path m = some (r, m)) :
    ∃ k, Costs (fun _ dev s => fat32Resolve ⟨l, dev⟩ path s) m k r none := by
  by_cases hroot : path = [] ∨ path = [slash]
  · rw [fat32Resolve, if_pos hroot] at h
    obtain rfl : _ = r := congrArg Prod.fst (Option.some_inj.mp h)
    exact ⟨0, (costs_pure m _ _).congr fun σ dev s => if_pos hroot⟩
  rw [fat32Resolve_start l.ram hroot] at h
  by_cases hlong : 256 ≤ (resolveStart path).length
  · rw [if_pos hlong] at h
    obtain rfl : none = r := congrArg Prod.fst (Option.some_inj.mp h)
    exact ⟨0, (costs_pure m _ _).congr fun σ dev s =>
      (fat32Resolve_start _ hroot s).trans (if_pos hlong)⟩
  · rw [if_neg hlong] at h
    obtain ⟨k, hk⟩ := (resolves_of_loop h).costs
    exact ⟨k, hk.congr fun σ dev s => (fat32Resolve_start _ hroot s).trans (if_neg hlong)⟩

def resolveReads (l : Layout) (m : Mem) (path : List UInt8) : ℕ :=
  ((fat32Resolve l.counted path ⟨m, 0⟩).map fun r => r.2.reads).getD 0

def findReads (l : Layout) (m : Mem) (dir : ℕ) (target : List UInt8) : ℕ :=
  ((fat32Find l.counted dir target ⟨m, 0⟩).map fun r => r.2.reads).getD 0

theorem resolveReads_costs {path : List UInt8} {r : Option Resolved}
    (h : fat32Resolve l.ram path m = some (r, m)) :
    Costs (fun _ dev s => fat32Resolve ⟨l, dev⟩ path s) m (resolveReads l m path) r none := by
  obtain ⟨k, hk⟩ := costs_resolve h
  have hcount : resolveReads l m path = k := by
    have := hk.counted 0
    rw [resolveReads, show fat32Resolve l.counted path ⟨m, 0⟩ = some (r, ⟨m, 0 + k⟩) from this]
    simp
  rwa [hcount]

theorem findReads_costs {dir : ℕ} {target : List UInt8} {r : Option Found}
    (h : fat32Find l.ram dir target m = some (r, m)) :
    Costs (fun _ dev s => fat32Find ⟨l, dev⟩ dir target s) m (findReads l m dir target) r none := by
  obtain ⟨k, hk⟩ := costs_find h
  have hcount : findReads l m dir target = k := by
    have := hk.counted 0
    rw [findReads, show fat32Find l.counted dir target ⟨m, 0⟩ = some (r, ⟨m, 0 + k⟩) from this]
    simp
  rwa [hcount]

end XldKernel.Fat32
