import XldKernel.FatTable

/-!
# FAT32: directory entries and directory walks

Source: `kernel/src/fat32.c` (`to_8_3` to `find_free_dirent_slot`). The two walks
differ only in what they do at an entry, so they are one walk with a test. A
walk over a directory whose chain has a cycle does not return; cluster numbers
have 32 bits, so a chain without one has fewer than `2^32` clusters.
-/

namespace XldKernel.Fat32
open ByteMemory BlockDevice
variable {σ : Type}

def dirEntriesPerSec : ℕ := 16
def dirEntrySize : ℕ := 32
def attrDirectory : UInt8 := 0x10
def attrArchive : UInt8 := 0x20
def attrLfn : UInt8 := 0x0F
def chainFuel : ℕ := 2 ^ 32

/-- `DOT_NAME` and `DOTDOT_NAME`: ten characters and the terminating zero. -/
def dotName : List UInt8 := [46, 32, 32, 32, 32, 32, 32, 32, 32, 32, 0]
def dotdotName : List UInt8 := [46, 46, 32, 32, 32, 32, 32, 32, 32, 32, 0]

def upcase (c : UInt8) : UInt8 :=
  let c := if 97 ≤ c ∧ c ≤ 122 then c - 32 else c
  if c = 32 then 95 else c

def padTo (n : ℕ) (cs : List UInt8) : List UInt8 :=
  (cs.take n).map upcase ++ List.replicate (n - cs.length) 32

def to83 (src : List UInt8) : List UInt8 :=
  let dot := src.idxOf 46
  if dot < src.length ∧ dot ≠ 0 then padTo 8 (src.take dot) ++ padTo 3 (src.drop (dot + 1))
  else padTo 8 src ++ List.replicate 3 32

structure Dirent where
  name : List UInt8
  attr : UInt8
  clusterHi : ℕ
  clusterLo : ℕ
  size : ℕ
  deriving DecidableEq

def direntAt (b : Mem) (a : ℕ) : Dirent :=
  ⟨read b a 11, b (a + 11), load b (a + 20) 2, load b (a + 26) 2, load b (a + 28) 4⟩

def Dirent.cluster (d : Dirent) : ℕ := d.clusterLo + d.clusterHi * 2 ^ 16

def putDirent (b : Mem) (a : ℕ) (d : Dirent) : Mem :=
  let b := write (fill b a dirEntrySize 0) a d.name
  let b := Function.update b (a + 11) d.attr
  store (store (store b (a + 20) 2 d.clusterHi) (a + 26) 2 d.clusterLo) (a + 28) 4 d.size

def newDirent (name : List UInt8) (attr : UInt8) (cluster : ℕ) : Dirent :=
  ⟨name, attr, cluster / 2 ^ 16 % 2 ^ 16, cluster % 2 ^ 16, 0⟩

inductive Verdict where
  | stop
  | hit
  | skip
  deriving DecidableEq

def findTest (target : List UInt8) (b : Mem) (a : ℕ) : Verdict :=
  if b a = 0x00 then .stop
  else if b a = 0xE5 ∨ b (a + 11) = attrLfn then .skip
  else if read b a 11 = target then .hit
  else .skip

def freeTest (b : Mem) (a : ℕ) : Verdict :=
  if b a = 0x00 ∨ b a = 0xE5 then .hit else .skip

inductive Walk (α : Type) where
  | stop
  | hit (a : α)
  | next

def Walk.map {α β : Type} (f : α → β) : Walk α → Walk β
  | .stop => .stop
  | .hit a => .hit (f a)
  | .next => .next

def Walk.result {α : Type} : Walk α → Option α
  | .hit a => some a
  | _ => none

structure Hit where
  sector : ℕ
  entry : ℕ
  buf : Mem

section Walks
variable (fs : Fs σ) (test : Mem → ℕ → Verdict)

def walkEntries (buf : Mem) : ℕ → ℕ → Walk ℕ
  | 0, _ => .next
  | n + 1, ent =>
    match test buf (ent * dirEntrySize) with
    | .stop => .stop
    | .hit => .hit ent
    | .skip => walkEntries buf n (ent + 1)

def walkSectors (first : ℕ) : ℕ → ℕ → σ → Walk Hit × σ
  | 0, _, s => (.next, s)
  | n + 1, sec, s =>
    match fs.dev.read ((first + sec) % 2 ^ 32) s with
    | (none, s) => (.stop, s)
    | (some buf, s) =>
      match walkEntries test buf dirEntriesPerSec 0 with
      | .stop => (.stop, s)
      | .hit ent => (.hit ⟨(first + sec) % 2 ^ 32, ent, buf⟩, s)
      | .next => walkSectors first n (sec + 1) s

def Layout.firstSector (l : Layout) (cluster : ℕ) : ℕ :=
  (l.dataStart + (cluster + (2 ^ 32 - 2)) * l.bpb.sectorsPerCluster) % 2 ^ 32

def Layout.sectorOf (l : Layout) (cluster i : ℕ) : ℕ := (l.firstSector cluster + i) % 2 ^ 32

def walkDir : ℕ → ℕ → σ → Option (Option Hit × σ)
  | 0, _, _ => none
  | fuel + 1, current, s =>
    if current = endOfChain then some (none, s)
    else
      match walkSectors fs test (fs.firstSector current) fs.bpb.sectorsPerCluster 0 s with
      | (.stop, s) => some (none, s)
      | (.hit h, s) => some (some h, s)
      | (.next, s) =>
        match nextCluster fs current s with
        | (current, s) => walkDir fuel current s

end Walks

structure Found where
  dirent : Dirent
  sector : ℕ
  entry : ℕ
  deriving DecidableEq

def Hit.found (h : Hit) : Found := ⟨direntAt h.buf (h.entry * dirEntrySize), h.sector, h.entry⟩

def fat32Find (fs : Fs σ) (dir : ℕ) (target : List UInt8) (s : σ) : Option (Option Found × σ) :=
  (walkDir fs (findTest target) chainFuel dir s).map fun (r, s) => (r.map Hit.found, s)

def findFreeDirentSlot (fs : Fs σ) (dir : ℕ) (s : σ) : Option (Option (ℕ × ℕ) × σ) :=
  (walkDir fs freeTest chainFuel dir s).map fun (r, s) => (r.map fun h => (h.sector, h.entry), s)

end XldKernel.Fat32
