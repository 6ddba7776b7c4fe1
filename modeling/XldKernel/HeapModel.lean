import XldKernel.ByteMemory

/-!
# Kernel heap: block headers and allocator functions

Source: `kernel/src/kmalloc.c` and `kmalloc.h`. Headers and payloads share one
byte memory. A header has its size at offset 0, its link at 8, the `used` byte
at 16 and the three magic bytes at 17; with padding it takes 24 bytes. The page
allocator is a parameter: `pmalloc k` is the address its `k`-th call returns,
`0` for `NULL`. An outer `none` is a call that does not return, either because
the free list has a cycle (a list without one has fewer than `2^64` blocks) or
because the recursion of `kmalloc` is deeper than `fuel`.
-/

namespace XldKernel.Kmalloc
open ByteMemory

def kmallocAlign : ℕ := 16
def kmallocMinSize : ℕ := 16
def blockHeaderSize : ℕ := 24
def kmallocPoolPages : ℕ := 4
def poolCount : ℕ := 4
def poolSize : ℕ := kmallocPoolPages * 4096
def blockMagic : List UInt8 := [0x4B, 0x4D, 0x42]
def listFuel : ℕ := 2 ^ 64

structure Header where
  size : ℕ
  next : ℕ
  used : UInt8
  magic : List UInt8

def header (m : Mem) (a : ℕ) : Header :=
  ⟨load m a 8, load m (a + 8) 8, m (a + 16), read m (a + 17) 3⟩

def setSize (m : Mem) (a v : ℕ) : Mem := store m a 8 v
def setNext (m : Mem) (a v : ℕ) : Mem := store m (a + 8) 8 v
def setUsed (m : Mem) (a : ℕ) (v : UInt8) : Mem := Function.update m (a + 16) v
def setMagic (m : Mem) (a : ℕ) : Mem := write m (a + 17) blockMagic

structure Heap where
  mem : Mem
  freeList : ℕ
  heapStart : ℕ
  heapEnd : ℕ
  pmallocs : ℕ

/-- A free block header as `add_pool` and `split_block` write it. -/
def writeHeader (m : Mem) (a size next : ℕ) : Mem :=
  setMagic (setUsed (setNext (setSize m a size) a next) a 0) a

def addPool (pmalloc : ℕ → ℕ) (h : Heap) : Heap :=
  let pool := pmalloc h.pmallocs
  let h := { h with pmallocs := h.pmallocs + 1 }
  if pool = 0 then h
  else
    { h with
      heapStart := if h.heapStart = 0 then pool else h.heapStart
      heapEnd := (if h.heapStart = 0 then pool + poolSize else h.heapEnd + poolSize) % 2 ^ 64
      mem := writeHeader h.mem pool (poolSize - blockHeaderSize) h.freeList
      freeList := pool }

def splitBlock (m : Mem) (block size : ℕ) : Mem :=
  if (header m block).size < (size + blockHeaderSize + kmallocMinSize) % 2 ^ 64 then m
  else
    let newBlock := block + blockHeaderSize + size
    let m := writeHeader m newBlock ((header m block).size - size - blockHeaderSize)
      (header m block).next
    setNext (setSize m block size) block newBlock

def kmallocInit (pmalloc : ℕ → ℕ) (h : Heap) : Heap :=
  (addPool pmalloc)^[poolCount] h

def alignSize (size : ℕ) : ℕ :=
  let size := (size + kmallocAlign - 1) % 2 ^ 64 / kmallocAlign * kmallocAlign
  if size < kmallocMinSize then kmallocMinSize else size

def findFit (m : Mem) (size : ℕ) : ℕ → ℕ → ℕ → Option (Option (ℕ × ℕ))
  | 0, _, _ => none
  | fuel + 1, prev, curr =>
    if curr = 0 then some none
    else if (header m curr).used = 0 ∧ size ≤ (header m curr).size then some (some (prev, curr))
    else findFit m size fuel curr (header m curr).next

def setLink (h : Heap) (prev v : ℕ) : Heap :=
  if prev = 0 then { h with freeList := v } else { h with mem := setNext h.mem prev v }

def takeBlock (h : Heap) (prev curr size : ℕ) : Heap :=
  let m := setUsed (splitBlock h.mem curr size) curr 1
  setLink { h with mem := m } prev (header m curr).next

def kmalloc (pmalloc : ℕ → ℕ) : ℕ → ℕ → Heap → Option (ℕ × Heap)
  | 0, _, _ => none
  | fuel + 1, size, h =>
    if size = 0 then some (0, h)
    else
      let size := alignSize size
      match findFit h.mem size listFuel 0 h.freeList with
      | none => none
      | some none => kmalloc pmalloc fuel size (addPool pmalloc h)
      | some (some (prev, curr)) =>
        if (header h.mem curr).magic ≠ blockMagic then some (0, h)
        else some (curr + blockHeaderSize, takeBlock h prev curr size)

def kcalloc (pmalloc : ℕ → ℕ) (fuel nmemb size : ℕ) (h : Heap) : Option (ℕ × Heap) :=
  let total := nmemb * size % 2 ^ 64
  (kmalloc pmalloc fuel total h).map fun (ptr, h) =>
    if ptr = 0 then (ptr, h) else (ptr, { h with mem := fill h.mem ptr total 0 })

def findSpot (m : Mem) (block : ℕ) : ℕ → ℕ → ℕ → Option (ℕ × ℕ)
  | 0, _, _ => none
  | fuel + 1, prev, curr =>
    if curr = 0 ∨ block ≤ curr then some (prev, curr)
    else findSpot m block fuel curr (header m curr).next

/-- `block->size += BLOCK_HEADER_SIZE + next->size; block->next = next->next` for
a block that ends where the next one begins. -/
def coalesce (m : Mem) (block next : ℕ) : Mem :=
  let m := setSize m block ((header m block).size + blockHeaderSize + (header m next).size)
  setNext m block (header m next).next

def insertBlock (h : Heap) (block prev curr : ℕ) : Heap :=
  let h := setLink { h with mem := setNext h.mem block curr } prev block
  let next := (header h.mem block).next
  let h :=
    if next ≠ 0 ∧ block + blockHeaderSize + (header h.mem block).size = next then
      { h with mem := coalesce h.mem block next }
    else h
  if prev ≠ 0 ∧ prev + blockHeaderSize + (header h.mem prev).size = block then
    { h with mem := coalesce h.mem prev block }
  else h

def kfree (ptr : ℕ) (h : Heap) : Option Heap :=
  if ptr = 0 then some h
  else
    let block := ptr - blockHeaderSize
    if (header h.mem block).magic ≠ blockMagic then some h
    else if (header h.mem block).used = 0 then some h
    else
      let h := { h with mem := setUsed h.mem block 0 }
      (findSpot h.mem block listFuel 0 h.freeList).map fun (prev, curr) =>
        insertBlock h block prev curr

def krealloc (pmalloc : ℕ → ℕ) (fuel ptr size : ℕ) (h : Heap) : Option (ℕ × Heap) :=
  if ptr = 0 then kmalloc pmalloc fuel size h
  else if size = 0 then (kfree ptr h).map fun h => (0, h)
  else
    let block := ptr - blockHeaderSize
    if (header h.mem block).magic ≠ blockMagic then some (0, h)
    else if size ≤ (header h.mem block).size then some (ptr, h)
    else
      match kmalloc pmalloc fuel size h with
      | none => none
      | some (newPtr, h) =>
        if newPtr = 0 then some (0, h)
        else
          let h := { h with mem := copy h.mem newPtr ptr (header h.mem block).size }
          (kfree ptr h).map fun h => (newPtr, h)

def kmallocUsableSize (ptr : ℕ) (h : Heap) : ℕ :=
  if ptr = 0 then 0
  else
    let block := ptr - blockHeaderSize
    if (header h.mem block).magic ≠ blockMagic then 0 else (header h.mem block).size

theorem header_congr {m m' : Mem} {a : ℕ} (h : ∀ x, a ≤ x → x < a + blockHeaderSize → m' x = m x) :
    header m' a = header m a := by
  have hx : ∀ i < 24, m' (a + i) = m (a + i) := by
    intro i hi
    exact h (a + i) (by omega) (by simp only [blockHeaderSize]; omega)
  have hsize : load m' a 8 = load m a 8 := load_congr fun i hi => hx i (by omega)
  have hnext : load m' (a + 8) 8 = load m (a + 8) 8 := by
    apply load_congr
    intro i hi
    simpa only [Nat.add_assoc] using hx (8 + i) (by omega)
  have hmagic : read m' (a + 17) 3 = read m (a + 17) 3 := by
    apply read_congr
    intro i hi
    simpa only [Nat.add_assoc] using hx (17 + i) (by omega)
  simp only [header, hsize, hnext, hx 16 (by omega), hmagic]

def OnlyHeader (m m' : Mem) (a : ℕ) : Prop :=
  ∀ x, x < a ∨ a + blockHeaderSize ≤ x → m' x = m x

theorem OnlyHeader.trans {m m' m'' : Mem} {a : ℕ} (h : OnlyHeader m m' a)
    (h' : OnlyHeader m' m'' a) : OnlyHeader m m'' a :=
  fun x hx => (h' x hx).trans (h x hx)

theorem OnlyHeader.header_eq {m m' : Mem} {a b : ℕ} (h : OnlyHeader m m' a)
    (hab : b + blockHeaderSize ≤ a ∨ a + blockHeaderSize ≤ b) : header m' b = header m b := by
  apply header_congr
  intro x h1 h2
  apply h
  simp only [blockHeaderSize] at *
  omega

theorem setSize_only (m : Mem) (a v : ℕ) : OnlyHeader m (setSize m a v) a := by
  intro x hx
  apply store_apart
  simp only [blockHeaderSize] at hx
  omega

theorem setNext_only (m : Mem) (a v : ℕ) : OnlyHeader m (setNext m a v) a := by
  intro x hx
  apply store_apart
  simp only [blockHeaderSize] at hx
  omega

theorem setUsed_only (m : Mem) (a : ℕ) (v : UInt8) : OnlyHeader m (setUsed m a v) a := by
  intro x hx
  apply Function.update_of_ne
  simp only [blockHeaderSize] at hx
  omega

theorem setMagic_only (m : Mem) (a : ℕ) : OnlyHeader m (setMagic m a) a := by
  intro x hx
  apply write_apart
  simp only [blockHeaderSize, blockMagic, List.length_cons, List.length_nil] at *
  omega

@[simp] theorem header_setSize (m : Mem) (a v : ℕ) :
    header (setSize m a v) a = { header m a with size := v % 2 ^ 64 } := by
  have hused : store m a 8 v (a + 16) = m (a + 16) := store_apart m (by omega)
  have hnext : load (store m a 8 v) (a + 8) 8 = load m (a + 8) 8 := load_store_apart m (by omega)
  have hmagic : read (store m a 8 v) (a + 17) 3 = read m (a + 17) 3 :=
    read_congr fun i hi => store_apart m (by omega)
  simp [header, setSize, hnext, hused, hmagic]

@[simp] theorem header_setNext (m : Mem) (a v : ℕ) :
    header (setNext m a v) a = { header m a with next := v % 2 ^ 64 } := by
  have hused : store m (a + 8) 8 v (a + 16) = m (a + 16) := store_apart m (by omega)
  have hsize : load (store m (a + 8) 8 v) a 8 = load m a 8 := load_store_apart m (by omega)
  have hmagic : read (store m (a + 8) 8 v) (a + 17) 3 = read m (a + 17) 3 :=
    read_congr fun i hi => store_apart m (by omega)
  simp [header, setNext, hsize, hused, hmagic]

@[simp] theorem header_setUsed (m : Mem) (a : ℕ) (v : UInt8) :
    header (setUsed m a v) a = { header m a with used := v } := by
  have hother : ∀ x, x ≠ a + 16 → setUsed m a v x = m x :=
    fun x hx => Function.update_of_ne hx _ _
  have hsize : load (setUsed m a v) a 8 = load m a 8 :=
    load_congr fun i hi => hother _ (by omega)
  have hnext : load (setUsed m a v) (a + 8) 8 = load m (a + 8) 8 :=
    load_congr fun i hi => hother _ (by omega)
  have hmagic : read (setUsed m a v) (a + 17) 3 = read m (a + 17) 3 :=
    read_congr fun i hi => hother _ (by omega)
  have hused : setUsed m a v (a + 16) = v := Function.update_self _ _ _
  simp only [header, hsize, hnext, hmagic, hused]

@[simp] theorem header_setMagic (m : Mem) (a : ℕ) :
    header (setMagic m a) a = { header m a with magic := blockMagic } := by
  have hother : ∀ x, x < a + 17 → setMagic m a x = m x := fun x hx => write_apart m (Or.inl hx)
  have hsize : load (setMagic m a) a 8 = load m a 8 := load_congr fun i hi => hother _ (by omega)
  have hnext : load (setMagic m a) (a + 8) 8 = load m (a + 8) 8 :=
    load_congr fun i hi => hother _ (by omega)
  have hmagic : read (setMagic m a) (a + 17) 3 = blockMagic :=
    read_write_self m (a + 17) blockMagic
  simp [header, hsize, hnext, hmagic, hother (a + 16) (by omega)]

theorem writeHeader_only (m : Mem) (a size next : ℕ) :
    OnlyHeader m (writeHeader m a size next) a :=
  (((setSize_only m a size).trans (setNext_only _ a next)).trans (setUsed_only _ a 0)).trans
    (setMagic_only _ a)

@[simp] theorem header_writeHeader (m : Mem) (a size next : ℕ) :
    header (writeHeader m a size next) a = ⟨size % 2 ^ 64, next % 2 ^ 64, 0, blockMagic⟩ := by
  simp [writeHeader]

end XldKernel.Kmalloc
