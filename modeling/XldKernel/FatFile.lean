import XldKernel.FatDirectory

/-!
# FAT32: paths, open files, reading, writing and creating

Source: `kernel/src/fat32.c` (`fat32_resolve`, `fat32_open` to `fat32_mkdir`). A
path is the list of its characters. An outer `none` is a call that does not
return because a directory walk does not; an empty `name` is the source's
`name[0] == '\0'`. The write loop keeps a trace of the clusters it allocates and
of the data sectors it writes, with the device and the handle at that moment.
-/

namespace XldKernel.Fat32
open ByteMemory BlockDevice
variable {σ : Type}

def slash : UInt8 := 47

def Dirent.IsDir (d : Dirent) : Prop := d.attr &&& attrDirectory ≠ 0

instance (d : Dirent) : Decidable d.IsDir := inferInstanceAs (Decidable (_ ≠ _))

structure Resolved where
  parent : ℕ
  name : Option (List UInt8)
  deriving DecidableEq

/-- The loop over the components. Every round drops at least one character, so
the length of the path bounds their number. -/
def resolveLoop (fs : Fs σ) : ℕ → ℕ → List UInt8 → σ → Option (Option Resolved × σ)
  | 0, cur, _, s => some (some ⟨cur, none⟩, s)
  | n + 1, cur, start, s =>
    if start = [] then some (some ⟨cur, none⟩, s)
    else
      let component := start.takeWhile (· ≠ slash)
      if component.length < start.length then
        let rest := start.drop (component.length + 1)
        if component = [] then resolveLoop fs n cur rest s
        else
          match fat32Find fs cur (to83 component) s with
          | none => none
          | some (none, s) => some (none, s)
          | some (some found, s) =>
            if found.dirent.IsDir then resolveLoop fs n found.dirent.cluster rest s
            else some (none, s)
      else some (some ⟨cur, some (to83 component)⟩, s)

def fat32Resolve (fs : Fs σ) (path : List UInt8) (s : σ) : Option (Option Resolved × σ) :=
  if path = [] ∨ path = [slash] then some (some ⟨fs.bpb.rootCluster, none⟩, s)
  else
    let current := if path.head? = some slash then path.tail else path
    if 256 ≤ current.length then some (none, s)
    else resolveLoop fs current.length fs.bpb.rootCluster current s

inductive Mode where
  | read
  | write
  deriving DecidableEq

structure File where
  used : Bool
  mode : Mode
  firstCluster : ℕ
  currCluster : ℕ
  currOffset : ℕ
  fileSize : ℕ
  filePos : ℕ
  deriving DecidableEq

def maxOpenFiles : ℕ := 64

instance : NeZero maxOpenFiles := ⟨by decide⟩

abbrev Files := Fin maxOpenFiles → File

def charW : UInt8 := 119
def charA : UInt8 := 97

def Layout.Valid (l : Layout) : Prop :=
  l.bpb.bytesPerSector = sectorSize ∧ l.bpb.sectorsPerCluster ≠ 0 ∧ l.bpb.numFats ≠ 0 ∧
    2 ≤ l.bpb.rootCluster

instance (l : Layout) : Decidable l.Valid := inferInstanceAs (Decidable (_ ∧ _))

def openFile (entry : Dirent) (mode : UInt8) : File where
  used := true
  mode := if mode = charW ∨ mode = charA then .write else .read
  firstCluster := entry.cluster
  currCluster := entry.cluster
  currOffset := 0
  fileSize := if mode = charW then 0 else entry.size
  filePos := if mode = charA then entry.size else 0

def takeHandle (files : Files) (file : File) : Option (Fin maxOpenFiles) × Files :=
  match (List.finRange maxOpenFiles).find? fun i => !(files i).used with
  | none => (none, files)
  | some i => (some i, Function.update files i file)

/-- Writing an entry into a free slot of the directory. Every failure frees the
entry's cluster again. -/
def insertEntry (fs : Fs σ) (parent : ℕ) (entry : Dirent) (cluster : ℕ) (s : σ) :
    Option (Bool × σ) :=
  match findFreeDirentSlot fs parent s with
  | none => none
  | some (none, s) => some (false, (writeFatEntry fs cluster fat32FreeCluster s).2)
  | some (some (dirSector, dirEntry), s) =>
    match fs.dev.read dirSector s with
    | (none, s) => some (false, (writeFatEntry fs cluster fat32FreeCluster s).2)
    | (some buf, s) =>
      match fs.dev.write dirSector (putDirent buf (dirEntry * dirEntrySize) entry) s with
      | (false, s) => some (false, (writeFatEntry fs cluster fat32FreeCluster s).2)
      | (true, s) => some (true, s)

def createEntry (fs : Fs σ) (parent : ℕ) (target : List UInt8) (s : σ) :
    Option (Option Dirent × σ) :=
  match allocateCluster fs 0 s with
  | (firstCluster, s) =>
    if firstCluster = 0 then some (none, s)
    else
      let entry := newDirent target attrArchive firstCluster
      match insertEntry fs parent entry firstCluster s with
      | none => none
      | some (false, s) => some (none, s)
      | some (true, s) => some (some entry, s)

def fat32Open (fs : Fs σ) (path : List UInt8) (mode : UInt8) (files : Files) (s : σ) :
    Option ((Option (Fin maxOpenFiles) × Files) × σ) :=
  if ¬ fs.Valid then some ((none, files), s)
  else
    match fat32Resolve fs path s with
    | none => none
    | some (none, s) => some ((none, files), s)
    | some (some ⟨_, none⟩, s) => some ((none, files), s)
    | some (some ⟨parent, some target⟩, s) =>
      match fat32Find fs parent target s with
      | none => none
      | some (some found, s) => some (takeHandle files (openFile found.dirent mode), s)
      | some (none, s) =>
        if mode ≠ charW ∧ mode ≠ charA then some ((none, files), s)
        else
          match createEntry fs parent target s with
          | none => none
          | some (none, s) => some ((none, files), s)
          | some (some entry, s) => some (takeHandle files (openFile entry mode), s)

def skipClusters (fs : Fs σ) : ℕ → ℕ → σ → Option ℕ × σ
  | 0, c, s => (some c, s)
  | n + 1, c, s =>
    match nextCluster fs c s with
    | (c, s) => if c = endOfChain then (none, s) else skipClusters fs n c s

structure ReadState (σ : Type) where
  file : File
  bytes : List UInt8
  s : σ

def readLoop (fs : Fs σ) : ℕ → ℕ → ReadState σ → ReadState σ
  | 0, _, r => r
  | n + 1, size, r =>
    if size = 0 then r
    else
      let offset := r.file.currOffset
      match skipClusters fs (offset / fs.bytesPerCluster) r.file.currCluster r.s with
      | (none, s) => { r with s := s }
      | (some target, s) =>
        match fs.dev.read (fs.sectorOf target (offset % fs.bytesPerCluster / sectorSize)) s with
        | (none, s) => { r with s := s }
        | (some buf, s) =>
          let toCopy := min size (sectorSize - offset % sectorSize)
          let bytes := r.bytes ++ read buf (offset % sectorSize) toCopy
          let file := { r.file with
            filePos := (r.file.filePos + toCopy) % 2 ^ 32
            currOffset := (offset + toCopy) % 2 ^ 32 }
          if fs.bytesPerCluster ≤ file.currOffset then
            match nextCluster fs file.currCluster s with
            | (next, s) =>
              let file := { file with currOffset := 0, currCluster := next }
              if next = endOfChain then ⟨file, bytes, s⟩
              else readLoop fs n (size - toCopy) ⟨file, bytes, s⟩
          else readLoop fs n (size - toCopy) ⟨file, bytes, s⟩

def readSize (file : File) (size : ℤ) : ℕ :=
  if size ≤ 0 ∨ file.fileSize ≤ file.filePos then 0
  else if file.fileSize < (file.filePos + size.toNat) % 2 ^ 32 then file.fileSize - file.filePos
  else size.toNat

def fat32Read (fs : Fs σ) (file : File) (size : ℤ) (s : σ) : Option (List UInt8) × File × σ :=
  if ¬ file.used ∨ file.mode ≠ .read then (none, file, s)
  else
    let n := readSize file size
    let r := readLoop fs n n ⟨file, [], s⟩
    (some r.bytes, r.file, r.s)

inductive Event (σ : Type) where
  | alloc (cluster : ℕ)
  | data (sector first : ℕ) (s : σ)

structure WriteState (σ : Type) where
  file : File
  data : List UInt8
  written : ℕ
  s : σ
  trace : List (Event σ)

def ensureCluster (fs : Fs σ) (w : WriteState σ) : Bool × WriteState σ :=
  if w.file.currCluster ≠ 0 then (true, w)
  else
    match allocateCluster fs 0 w.s with
    | (c, s) =>
      let w := { w with
        file := { w.file with firstCluster := c }, s := s, trace := w.trace ++ [.alloc c] }
      if c = 0 then (false, w)
      else (true, { w with file := { w.file with currCluster := c, currOffset := 0 } })

def WriteState.toCopy (w : WriteState σ) : ℕ :=
  min w.data.length (sectorSize - w.file.currOffset % sectorSize)

def writeChunk (fs : Fs σ) (w : WriteState σ) : Bool × WriteState σ :=
  let offset := w.file.currOffset
  let sec := fs.sectorOf w.file.currCluster (offset / sectorSize)
  match fs.dev.read sec w.s with
  | (buf, s) =>
    let toCopy := w.toCopy
    let buf := write (buf.getD fun _ => 0) (offset % sectorSize) (w.data.take toCopy)
    let trace := w.trace ++ [.data sec w.file.firstCluster s]
    match fs.dev.write sec buf s with
    | (false, s) => (false, { w with s := s, trace := trace })
    | (true, s) =>
      let pos := (w.file.filePos + toCopy) % 2 ^ 32
      (true,
        { file := { w.file with
            filePos := pos
            currOffset := (offset + toCopy) % 2 ^ 32
            fileSize := max w.file.fileSize pos }
          data := w.data.drop toCopy
          written := w.written + toCopy
          s := s
          trace := trace })

def advance (fs : Fs σ) (w : WriteState σ) : Bool × WriteState σ :=
  if w.file.currOffset < fs.bytesPerCluster then (true, w)
  else
    match nextCluster fs w.file.currCluster w.s with
    | (next, s) =>
      if next = endOfChain then
        match allocateCluster fs w.file.currCluster s with
        | (c, s) =>
          let w := { w with s := s, trace := w.trace ++ [.alloc c] }
          if c = 0 then (false, w)
          else (true, { w with file := { w.file with currCluster := c, currOffset := 0 } })
      else (true, { w with s := s, file := { w.file with currCluster := next, currOffset := 0 } })

def writeRound (fs : Fs σ) (w : WriteState σ) : Bool × WriteState σ :=
  match ensureCluster fs w with
  | (false, w) => (false, w)
  | (true, w) =>
    match writeChunk fs w with
    | (false, w) => (false, w)
    | (true, w) => advance fs w

def writeLoop (fs : Fs σ) : ℕ → WriteState σ → WriteState σ
  | 0, w => w
  | n + 1, w =>
    if w.data = [] then w
    else
      match writeRound fs w with
      | (false, w) => w
      | (true, w) => writeLoop fs n w

/-- The state in which the call ends; its result is `written`, or `-1` on a handle
that is not open for writing. -/
def fat32Write (fs : Fs σ) (file : File) (data : List UInt8) (s : σ) : ℤ × WriteState σ :=
  if ¬ file.used ∨ file.mode ≠ .write then (-1, ⟨file, data, 0, s, []⟩)
  else
    let w := writeLoop fs data.length ⟨file, data, 0, s, []⟩
    (w.written, w)

def fat32Close (file : File) : File := { file with used := false }

def zeroSectors (fs : Fs σ) (first : ℕ) : ℕ → ℕ → σ → Bool × σ
  | 0, _, s => (true, s)
  | n + 1, i, s =>
    match fs.dev.write ((first + i) % 2 ^ 32) (fun _ => 0) s with
    | (false, s) => (false, s)
    | (true, s) => zeroSectors fs first n (i + 1) s

def initDirectory (fs : Fs σ) (parent cluster : ℕ) (s : σ) : Bool × σ :=
  let first := fs.firstSector cluster
  match zeroSectors fs first fs.bpb.sectorsPerCluster 0 s with
  | (false, s) => (false, s)
  | (true, s) =>
    match fs.dev.read first s with
    | (none, s) => (false, s)
    | (some buf, s) =>
      let buf := putDirent buf 0 (newDirent dotName attrDirectory cluster)
      let buf := putDirent buf dirEntrySize (newDirent dotdotName attrDirectory parent)
      fs.dev.write first buf s

def fat32Mkdir (fs : Fs σ) (path : List UInt8) (s : σ) : Option (Bool × σ) :=
  if ¬ fs.Valid then some (false, s)
  else
    match fat32Resolve fs path s with
    | none => none
    | some (none, s) => some (false, s)
    | some (some ⟨_, none⟩, s) => some (false, s)
    | some (some ⟨parent, some name⟩, s) =>
      match fat32Find fs parent name s with
      | none => none
      | some (some _, s) => some (false, s)
      | some (none, s) =>
        match allocateCluster fs 0 s with
        | (cluster, s) =>
          if cluster = 0 then some (false, s)
          else
            match initDirectory fs parent cluster s with
            | (false, s) => some (false, (writeFatEntry fs cluster fat32FreeCluster s).2)
            | (true, s) => insertEntry fs parent (newDirent name attrDirectory cluster) cluster s

end XldKernel.Fat32
