import XldKernel.FatFile
import XldKernel.FiniteWalk

/-!
# FAT32: listing directories

Source: `kernel/src/fat32_ls.c`. The two listings make the same walk and differ in what
they do at an entry. A `Line` is one `printk` of the source. The outer `none` is a listing
that does not return, as for the walks of `fat32.c`.
-/

namespace XldKernel.Fat32
open ByteMemory BlockDevice
variable {σ : Type}

def attrVolumeId : UInt8 := 0x08

inductive SizeText where
  | bytes (n : ℕ)
  | b (n : ℕ)
  | kb (n : ℕ)
  | mb (n : ℕ)
  deriving DecidableEq

inductive Line where
  | dir (indent name : List UInt8)
  | subdir (indent name : List UInt8)
  | file (indent name : List UInt8) (size : SizeText)
  | depthLimit (path : List UInt8)
  deriving DecidableEq

structure Listing where
  lines : List Line
  fileCount : ℕ
  dirCount : ℕ
  deriving DecidableEq

def nameToString (de : Dirent) : List UInt8 :=
  let name := (de.name.take 8).takeWhile (· ≠ 32)
  let ext := de.name.drop 8
  if ext.head? = some 32 then name else name ++ 46 :: ext.takeWhile (· ≠ 32)

inductive Shown where
  | stop
  | skip
  | print
  deriving DecidableEq

def listTest (buf : Mem) (a : ℕ) : Shown :=
  if buf a = 0x00 then .stop
  else if buf a = 0xE5 then .skip
  else if buf (a + 11) = attrLfn ∨ buf (a + 11) &&& attrVolumeId ≠ 0 then .skip
  else if buf a = 46 then .skip
  else .print

section Walk
variable (onEntry : Dirent → Listing → σ → Option (Listing × σ))

/-- The entries of one sector. The flag says whether the directory goes on. -/
def listEntries (buf : Mem) : ℕ → ℕ → Listing → σ → Option (Bool × Listing × σ)
  | 0, _, out, s => some (true, out, s)
  | n + 1, ent, out, s =>
    match listTest buf (ent * dirEntrySize) with
    | .stop => some (false, out, s)
    | .skip => listEntries buf n (ent + 1) out s
    | .print =>
      match onEntry (direntAt buf (ent * dirEntrySize)) out s with
      | none => none
      | some (out, s) => listEntries buf n (ent + 1) out s

def listSectors (fs : Fs σ) (first : ℕ) : ℕ → ℕ → Listing → σ → Option (Bool × Listing × σ)
  | 0, _, out, s => some (true, out, s)
  | n + 1, sec, out, s =>
    match fs.dev.read ((first + sec) % 2 ^ 32) s with
    | (none, s) => some (false, out, s)
    | (some buf, s) =>
      match listEntries onEntry buf dirEntriesPerSec 0 out s with
      | none => none
      | some (false, out, s) => some (false, out, s)
      | some (true, out, s) => listSectors fs first n (sec + 1) out s

def listDir (fs : Fs σ) : ℕ → ℕ → Listing → σ → Option (Listing × σ)
  | 0, _, _, _ => none
  | fuel + 1, current, out, s =>
    if current = endOfChain ∨ current < 2 then some (out, s)
    else
      match listSectors onEntry fs (fs.firstSector current) fs.bpb.sectorsPerCluster 0 out s with
      | none => none
      | some (false, out, s) => some (out, s)
      | some (true, out, s) =>
        match nextCluster fs current s with
        | (current, s) => listDir fs fuel current out s

end Walk

def flatEntry (indent : List UInt8) (de : Dirent) (out : Listing) : Listing :=
  let name := nameToString de
  if de.IsDir then ⟨out.lines ++ [.dir indent name], out.fileCount, out.dirCount + 1⟩
  else ⟨out.lines ++ [.file indent name (.bytes de.size)], out.fileCount + 1, out.dirCount⟩

def fat32ListDirFlat (fs : Fs σ) (dir : ℕ) (indent : List UInt8) (out : Listing) (s : σ) :
    Option (Listing × σ) :=
  listDir (fun de out s => some (flatEntry indent de out, s)) fs chainFuel dir out s

def sizeText (size : ℕ) : SizeText :=
  if size < 1024 then .b size
  else if size < 1024 * 1024 then .kb (size / 1024)
  else .mb (size / (1024 * 1024))

def subPath (path name : List UInt8) : List UInt8 :=
  if 0 < path.length ∧ path.length < 240 then path ++ 47 :: name else name

def listLevels (fs : Fs σ) : ℕ → ℕ → List UInt8 → Listing → σ → Option (Listing × σ)
  | 0, _, path, out, s => some ({ out with lines := out.lines ++ [.depthLimit path] }, s)
  | left + 1, dir, path, out, s =>
    let indent := List.replicate ((10 - left) * 2) 32
    listDir (fun de out s =>
      let name := nameToString de
      if de.IsDir then
        listLevels fs left de.cluster (subPath path name)
          ⟨out.lines ++ [.subdir indent name], out.fileCount, out.dirCount + 1⟩ s
      else
        some (⟨out.lines ++ [.file indent name (sizeText de.size)], out.fileCount + 1,
          out.dirCount⟩, s)) fs chainFuel dir out s

def fat32ListDirRecursive (fs : Fs σ) (dir : ℕ) (path : List UInt8) (depth : ℕ) (out : Listing)
    (s : σ) : Option (Listing × σ) :=
  listLevels fs (11 - depth) dir path out s

end XldKernel.Fat32
