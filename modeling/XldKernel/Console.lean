import XldKernel.ByteMemory

/-!
# Characters on the frame buffer

Source: `kernel/src/framebuffer.c` and `kernel/src/graphics.c`. The frame buffer is a stretch
of memory, and the font is an arbitrary table of glyphs. Over it stands a terminal: a grid of
cells and a cursor that goes on to the next cell, to the next row after the last column or a
newline, and back to the first row after the last one, where nothing is scrolled.
-/

namespace XldKernel.Console
open ByteMemory

structure Framebuffer where
  addr : ℕ
  width : UInt32
  height : UInt32
  pitch : UInt32

def fbInit (address : ℕ) (width height pitch : UInt64) : Framebuffer :=
  ⟨address, width.toUInt32, height.toUInt32, pitch.toUInt32⟩

def fbPutpixel (fb : Framebuffer) (x y color : UInt32) (mem : Mem) : Mem :=
  if fb.width ≤ x ∨ fb.height ≤ y then mem
  else store mem (fb.addr + (y * fb.pitch).toNat + (x * 4).toNat) 4 color.toNat

def fbClear (fb : Framebuffer) (color : UInt32) (mem : Mem) : Mem :=
  (List.range fb.height.toNat).foldl (fun mem y =>
    (List.range fb.width.toNat).foldl (fun mem x =>
      fbPutpixel fb (UInt32.ofNat x) (UInt32.ofNat y) color mem) mem) mem

abbrev Font := UInt8 → ℕ → UInt8

def glyphColor (font : Font) (c : UInt8) (fg bg : UInt32) (row col : ℕ) : UInt32 :=
  let uc := if 127 < c then 0 else c
  if font uc row &&& (0x80 >>> UInt8.ofNat col) ≠ 0 then fg else bg

def graphicsDrawChar (fb : Framebuffer) (font : Font) (c : UInt8) (x y fg bg : UInt32)
    (mem : Mem) : Mem :=
  (List.range 16).foldl (fun mem row =>
    (List.range 8).foldl (fun mem col =>
      fbPutpixel fb (x + UInt32.ofNat col) (y + UInt32.ofNat row) (glyphColor font c fg bg row col)
        mem) mem) mem

def graphicsDrawString (fb : Framebuffer) (font : Font) (origX fg bg : UInt32) :
    List UInt8 → UInt32 → UInt32 → Mem → Mem
  | [], _, _, mem => mem
  | c :: str, x, y, mem =>
    if c = 10 then graphicsDrawString fb font origX fg bg str origX (y + 16) mem
    else graphicsDrawString fb font origX fg bg str (x + 8) y
      (graphicsDrawChar fb font c x y fg bg mem)

structure Screen where
  cursorX : UInt32
  cursorY : UInt32
  mem : Mem

def graphicsSetCursor (x y : UInt32) (s : Screen) : Screen := { s with cursorX := x, cursorY := y }

def graphicsPutchar (fb : Framebuffer) (font : Font) (c : UInt8) (fg bg : UInt32)
    (s : Screen) : Screen :=
  let s :=
    if c = 10 then { s with cursorX := 0, cursorY := s.cursorY + 16 }
    else
      let s := { s with
        mem := graphicsDrawChar fb font c s.cursorX s.cursorY fg bg s.mem
        cursorX := s.cursorX + 8 }
      if fb.width ≤ s.cursorX then { s with cursorX := 0, cursorY := s.cursorY + 16 } else s
  if fb.height ≤ s.cursorY then { s with cursorY := 0 } else s

/-- The rows lie one after the other, and offsets fit 32 bits. -/
structure Framebuffer.Fits (fb : Framebuffer) : Prop where
  width_pos : 0 < fb.width.toNat
  height_pos : 0 < fb.height.toNat
  row : 4 * fb.width.toNat ≤ fb.pitch.toNat
  size : fb.height.toNat * fb.pitch.toNat ≤ 2 ^ 32

def Framebuffer.pixelAddr (fb : Framebuffer) (x y : ℕ) : ℕ := fb.addr + y * fb.pitch.toNat + 4 * x

def Framebuffer.pixel (fb : Framebuffer) (mem : Mem) (x y : UInt32) : UInt32 :=
  UInt32.ofNat (load mem (fb.pixelAddr x.toNat y.toNat) 4)

def Framebuffer.Visible (fb : Framebuffer) (a : ℕ) : Prop :=
  ∃ x y, x < fb.width.toNat ∧ y < fb.height.toNat ∧ fb.pixelAddr x y ≤ a ∧ a < fb.pixelAddr x y + 4

section Pixels
variable {fb : Framebuffer} (hfits : fb.Fits)
include hfits

theorem Framebuffer.Fits.bounds : fb.width.toNat < 2 ^ 30 ∧ fb.height.toNat ≤ 2 ^ 30 := by
  obtain ⟨hw, hh, hrow, hsize⟩ := hfits
  have hp := fb.pitch.toNat_lt
  constructor
  · omega
  · have : fb.height.toNat * 4 ≤ fb.height.toNat * fb.pitch.toNat :=
      Nat.mul_le_mul_left _ (by omega)
    omega

theorem fbPutpixel_visible {x y : UInt32} (hx : x < fb.width) (hy : y < fb.height)
    (color : UInt32) (mem : Mem) :
    fbPutpixel fb x y color mem = store mem (fb.pixelAddr x.toNat y.toNat) 4 color.toNat := by
  rw [UInt32.lt_iff_toNat_lt] at hx hy
  have hrow : y.toNat * fb.pitch.toNat + fb.pitch.toNat ≤ fb.height.toNat * fb.pitch.toNat := by
    rw [← Nat.succ_mul]
    exact Nat.mul_le_mul_right _ hy
  have hpitch := hfits.row
  have hsize := hfits.size
  have hy' : (y * fb.pitch).toNat = y.toNat * fb.pitch.toNat := by
    rw [UInt32.toNat_mul]
    exact Nat.mod_eq_of_lt (by omega)
  have hx' : (x * 4).toNat = 4 * x.toNat := by
    rw [UInt32.toNat_mul, Nat.mul_comm]
    exact Nat.mod_eq_of_lt (by change 4 * x.toNat < _; omega)
  rw [fbPutpixel, if_neg (by rw [UInt32.le_iff_toNat_le, UInt32.le_iff_toNat_le]; omega), hy', hx']
  rfl

omit hfits in
theorem fbPutpixel_hidden {x y : UInt32} (h : ¬ (x < fb.width ∧ y < fb.height)) (color : UInt32)
    (mem : Mem) :
    fbPutpixel fb x y color mem = mem := by
  rw [fbPutpixel, if_pos]
  rw [UInt32.le_iff_toNat_le, UInt32.le_iff_toNat_le]
  rw [UInt32.lt_iff_toNat_lt, UInt32.lt_iff_toNat_lt] at h
  omega

theorem pixelAddr_apart {x y x' y' : ℕ} (hx : x < fb.width.toNat) (hx' : x' < fb.width.toNat)
    (hne : ¬ (x = x' ∧ y = y')) :
    fb.pixelAddr x y + 4 ≤ fb.pixelAddr x' y' ∨ fb.pixelAddr x' y' + 4 ≤ fb.pixelAddr x y := by
  have hpitch := hfits.row
  have hrows : ∀ a b : ℕ, a < b → a * fb.pitch.toNat + fb.pitch.toNat ≤ b * fb.pitch.toNat := by
    intro a b hab
    rw [← Nat.succ_mul]
    exact Nat.mul_le_mul_right _ hab
  simp only [Framebuffer.pixelAddr]
  rcases lt_trichotomy y y' with hlt | heq | hgt
  · have := hrows y y' hlt
    omega
  · subst heq
    omega
  · have := hrows y' y hgt
    omega

theorem pixel_fbPutpixel {x y px py : UInt32} (hx : px < fb.width) (hy : py < fb.height)
    (color : UInt32) (mem : Mem) :
    fb.pixel (fbPutpixel fb x y color mem) px py = if px = x ∧ py = y then color
      else fb.pixel mem px py := by
  by_cases hvis : x < fb.width ∧ y < fb.height
  · rw [fbPutpixel_visible hfits hvis.1 hvis.2, Framebuffer.pixel]
    split_ifs with heq
    · rw [heq.1, heq.2, load_store_self]
      have := color.toNat_lt
      rw [Nat.mod_eq_of_lt (by omega), UInt32.ofNat_toNat]
    · rw [load_store_apart]
      · rfl
      · apply pixelAddr_apart hfits
        · exact UInt32.lt_iff_toNat_lt.mp hx
        · exact UInt32.lt_iff_toNat_lt.mp hvis.1
        · simpa only [UInt32.toNat_inj] using heq
  · rw [fbPutpixel_hidden hvis, if_neg]
    rintro ⟨rfl, rfl⟩
    exact hvis ⟨hx, hy⟩

theorem fbPutpixel_outside (x y color : UInt32) (mem : Mem) {a : ℕ} (ha : ¬ fb.Visible a) :
    fbPutpixel fb x y color mem a = mem a := by
  by_cases hvis : x < fb.width ∧ y < fb.height
  · rw [fbPutpixel_visible hfits hvis.1 hvis.2, store_apart]
    by_contra hin
    exact ha ⟨x.toNat, y.toNat, UInt32.lt_iff_toNat_lt.mp hvis.1, UInt32.lt_iff_toNat_lt.mp hvis.2,
      by omega, by omega⟩
  · rw [fbPutpixel_hidden hvis]

end Pixels

def blit (fb : Framebuffer) (x y : UInt32) (w h : ℕ) (f : ℕ → ℕ → UInt32) (mem : Mem) : Mem :=
  (List.range h).foldl (fun mem row =>
    (List.range w).foldl (fun mem col =>
      fbPutpixel fb (x + UInt32.ofNat col) (y + UInt32.ofNat row) (f row col) mem) mem) mem

theorem graphicsDrawChar_eq_blit (fb : Framebuffer) (font : Font) (c : UInt8) (x y fg bg : UInt32)
    (mem : Mem) :
    graphicsDrawChar fb font c x y fg bg mem = blit fb x y 8 16 (glyphColor font c fg bg) mem :=
  rfl

theorem fbClear_eq_blit (fb : Framebuffer) (color : UInt32) (mem : Mem) :
    fbClear fb color mem = blit fb 0 0 fb.width.toNat fb.height.toNat (fun _ _ => color) mem := by
  simp only [fbClear, blit, UInt32.zero_add]

theorem eq_add_ofNat_iff {p x : UInt32} {k : ℕ} (hk : k < 2 ^ 32) :
    p = x + UInt32.ofNat k ↔ (p - x).toNat = k := by
  have hp := p.toNat_lt
  have hx := x.toNat_lt
  rw [← UInt32.toNat_inj, UInt32.toNat_add, UInt32.toNat_ofNat', UInt32.toNat_sub]
  omega

section Blit
variable {fb : Framebuffer} (hfits : fb.Fits)
include hfits

theorem pixel_row {x y px py : UInt32} (hx : px < fb.width) (hy : py < fb.height) {w : ℕ}
    (hw : w ≤ 2 ^ 32) (f : ℕ → UInt32) (mem : Mem) :
    fb.pixel
      ((List.range w).foldl (fun mem col => fbPutpixel fb (x + UInt32.ofNat col) y (f col) mem) mem)
      px py =
      if (px - x).toNat < w ∧ py = y then f (px - x).toNat else fb.pixel mem px py := by
  induction w with
  | zero => rfl
  | succ w ih =>
    have hat : px = x + UInt32.ofNat w ↔ (px - x).toNat = w := eq_add_ofNat_iff (by omega)
    rw [List.range_succ, List.foldl_concat, pixel_fbPutpixel hfits hx hy, ih (by omega)]
    by_cases hpy : py = y
    · simp only [hpy, and_true, hat]
      split_ifs with heq hlt hlt <;> first | rfl | omega | rw [heq]
    · simp only [hpy, and_false, if_false]

theorem pixel_blit {x y px py : UInt32} (hx : px < fb.width) (hy : py < fb.height) {w h : ℕ}
    (hw : w ≤ 2 ^ 32) (hh : h ≤ 2 ^ 32) (f : ℕ → ℕ → UInt32) (mem : Mem) :
    fb.pixel (blit fb x y w h f mem) px py =
      if (px - x).toNat < w ∧ (py - y).toNat < h then f (py - y).toNat (px - x).toNat
        else fb.pixel mem px py := by
  induction h with
  | zero => simp [blit]
  | succ h ih =>
    have hat : py = y + UInt32.ofNat h ↔ (py - y).toNat = h := eq_add_ofNat_iff (by omega)
    have hrest := ih (by omega)
    rw [blit] at hrest
    rw [blit, List.range_succ, List.foldl_concat, pixel_row hfits hx hy hw, hrest]
    by_cases hpx : (px - x).toNat < w
    · simp only [hpx, true_and, hat]
      split_ifs with heq hlt hlt <;> first | rfl | omega | rw [heq]
    · simp only [hpx, false_and, if_false]

theorem blit_outside (x y : UInt32) (w h : ℕ) (f : ℕ → ℕ → UInt32) (mem : Mem) {a : ℕ}
    (ha : ¬ fb.Visible a) :
    blit fb x y w h f mem a = mem a := by
  have hrow : ∀ (row : ℕ) (mem : Mem), (List.range w).foldl (fun mem col =>
      fbPutpixel fb (x + UInt32.ofNat col) (y + UInt32.ofNat row) (f row col) mem) mem a =
        mem a := by
    intro row mem
    induction w with
    | zero => rfl
    | succ w ih => rw [List.range_succ, List.foldl_concat, fbPutpixel_outside hfits _ _ _ _ ha, ih]
  induction h with
  | zero => rfl
  | succ h ih =>
    rw [blit, List.range_succ, List.foldl_concat, hrow]
    exact ih

theorem graphicsDrawString_outside (font : Font) (origX fg bg : UInt32) (str : List UInt8)
    (x y : UInt32) (mem : Mem) {a : ℕ} (ha : ¬ fb.Visible a) :
    graphicsDrawString fb font origX fg bg str x y mem a = mem a := by
  induction str generalizing x y mem with
  | nil => rfl
  | cons c str ih =>
    rw [graphicsDrawString]
    split_ifs
    · exact ih _ _ _
    · rw [ih, graphicsDrawChar_eq_blit, blit_outside hfits _ _ _ _ _ _ ha]

end Blit

structure Cell where
  char : UInt8
  fg : UInt32
  bg : UInt32

structure Terminal where
  col : ℕ
  row : ℕ
  cells : ℕ → ℕ → Option Cell

namespace Terminal

def newline (t : Terminal) : Terminal := { t with col := 0, row := t.row + 1 }

def put (cols rows : ℕ) (cell : Cell) (t : Terminal) : Terminal :=
  let t :=
    if cell.char = 10 then t.newline
    else
      let t := { t with
        cells := Function.update t.cells t.col (Function.update (t.cells t.col) t.row (some cell))
        col := t.col + 1 }
      if t.col = cols then t.newline else t
  if t.row = rows then { t with row := 0 } else t

def empty : Terminal := ⟨0, 0, fun _ _ => none⟩

end Terminal

def Framebuffer.cols (fb : Framebuffer) : ℕ := (fb.width.toNat + 7) / 8

def Framebuffer.rows (fb : Framebuffer) : ℕ := (fb.height.toNat + 15) / 16

def cellColor (font : Font) (back : UInt32) (cell : Option Cell) (row col : ℕ) : UInt32 :=
  cell.elim back fun cell => glyphColor font cell.char cell.fg cell.bg row col

/-- The picture is the terminal's, and the cursor stands at its cell. -/
structure Shows (fb : Framebuffer) (font : Font) (back : UInt32) (t : Terminal)
    (s : Screen) : Prop where
  cursorX : s.cursorX.toNat = 8 * t.col
  cursorY : s.cursorY.toNat = 16 * t.row
  col : t.col < fb.cols
  row : t.row < fb.rows
  picture : ∀ x y : UInt32, x < fb.width → y < fb.height → fb.pixel s.mem x y =
    cellColor font back (t.cells (x.toNat / 8) (y.toNat / 16)) (y.toNat % 16) (x.toNat % 8)

section Terminal
variable {fb : Framebuffer} (hfits : fb.Fits) {font : Font} {back : UInt32} {t : Terminal}
  {s : Screen}
include hfits

theorem pixel_fbClear {x y : UInt32} (hx : x < fb.width) (hy : y < fb.height) (color : UInt32)
    (mem : Mem) :
    fb.pixel (fbClear fb color mem) x y = color := by
  have hw := fb.width.toNat_lt
  have hh := fb.height.toNat_lt
  rw [fbClear_eq_blit, pixel_blit hfits hx hy (by omega) (by omega), if_pos]
  rw [UInt32.lt_iff_toNat_lt] at hx hy
  simpa using ⟨hx, hy⟩

theorem shows_cleared (font : Font) (back : UInt32) (mem : Mem) :
    Shows fb font back Terminal.empty ⟨0, 0, fbClear fb back mem⟩ := by
  have hw := hfits.width_pos
  have hh := hfits.height_pos
  refine ⟨rfl, rfl, ?_, ?_, fun x y hx hy => pixel_fbClear hfits hx hy back mem⟩
  · change 0 < (fb.width.toNat + 7) / 8
    omega
  · change 0 < (fb.height.toNat + 15) / 16
    omega

theorem Shows.draw (h : Shows fb font back t s) (c : UInt8) (fg bg : UInt32) {x y : UInt32}
    (hx : x < fb.width) (hy : y < fb.height) :
    fb.pixel (graphicsDrawChar fb font c s.cursorX s.cursorY fg bg s.mem) x y =
      cellColor font back
        (Function.update t.cells t.col (Function.update (t.cells t.col) t.row (some ⟨c, fg, bg⟩))
        (x.toNat / 8) (y.toNat / 16)) (y.toNat % 16) (x.toNat % 8) := by
  obtain ⟨hwidth, hheight⟩ := hfits.bounds
  have hcol := h.col
  have hrow := h.row
  simp only [Framebuffer.cols] at hcol
  simp only [Framebuffer.rows] at hrow
  have hx' := UInt32.lt_iff_toNat_lt.mp hx
  have hy' := UInt32.lt_iff_toNat_lt.mp hy
  have hcx := h.cursorX
  have hcy := h.cursorY
  have hsubx : (x - s.cursorX).toNat = (2 ^ 32 - s.cursorX.toNat + x.toNat) % 2 ^ 32 :=
    UInt32.toNat_sub ..
  have hsuby : (y - s.cursorY).toNat = (2 ^ 32 - s.cursorY.toNat + y.toNat) % 2 ^ 32 :=
    UInt32.toNat_sub ..
  rw [graphicsDrawChar_eq_blit, pixel_blit hfits hx hy (by omega) (by omega), h.picture x y hx hy]
  by_cases hin : x.toNat / 8 = t.col ∧ y.toNat / 16 = t.row
  · rw [if_pos (by omega), hin.1, hin.2, Function.update_self, Function.update_self]
    rw [show (x - s.cursorX).toNat = x.toNat % 8 by omega, show (y - s.cursorY).toNat =
      y.toNat % 16 by omega]
    rfl
  · rw [if_neg (by omega)]
    by_cases hc : x.toNat / 8 = t.col
    · have hr : y.toNat / 16 ≠ t.row := fun hr => hin ⟨hc, hr⟩
      rw [hc, Function.update_self, Function.update_of_ne hr]
    · rw [Function.update_of_ne hc]

theorem shows_settled (hcx : s.cursorX.toNat = 8 * t.col) (hcy : s.cursorY.toNat = 16 * t.row)
    (hcol : t.col < fb.cols) (hrow : t.row ≤ fb.rows)
    (hpicture : ∀ x y : UInt32, x < fb.width → y < fb.height →
      fb.pixel s.mem x y = cellColor font back (t.cells (x.toNat / 8) (y.toNat / 16)) (y.toNat % 16)
      (x.toNat % 8)) :
    Shows fb font back (if t.row = fb.rows then { t with row := 0 } else t)
      (if fb.height ≤ s.cursorY then { s with cursorY := 0 } else s) := by
  have hh := hfits.height_pos
  have hiff : fb.height ≤ s.cursorY ↔ t.row = fb.rows := by
    rw [UInt32.le_iff_toNat_le, hcy]
    simp only [Framebuffer.rows] at hrow ⊢
    omega
  by_cases hlast : t.row = fb.rows
  · rw [if_pos hlast, if_pos (hiff.mpr hlast)]
    refine ⟨hcx, rfl, hcol, ?_, hpicture⟩
    change 0 < (fb.height.toNat + 15) / 16
    omega
  · rw [if_neg hlast, if_neg (mt hiff.mp hlast)]
    exact ⟨hcx, hcy, hcol, by omega, hpicture⟩

theorem Shows.putchar (h : Shows fb font back t s) (c : UInt8) (fg bg : UInt32) :
    Shows fb font back (t.put fb.cols fb.rows ⟨c, fg, bg⟩) (graphicsPutchar fb font c fg bg s) := by
  obtain ⟨hwidth, hheight⟩ := hfits.bounds
  have hw := hfits.width_pos
  have hcx := h.cursorX
  have hcy := h.cursorY
  have hcol := h.col
  have hrow := h.row
  simp only [Framebuffer.cols] at hcol
  simp only [Framebuffer.rows] at hrow
  have hdown : (s.cursorY + 16).toNat = 16 * (t.row + 1) := by
    rw [UInt32.toNat_add]
    change (s.cursorY.toNat + 16) % 2 ^ 32 = _
    omega
  have hright : (s.cursorX + 8).toNat = 8 * (t.col + 1) := by
    rw [UInt32.toNat_add]
    change (s.cursorX.toNat + 8) % 2 ^ 32 = _
    omega
  have hfirst : 0 < fb.cols := by
    change 0 < (fb.width.toNat + 7) / 8
    omega
  have hiff : fb.width ≤ s.cursorX + 8 ↔ t.col + 1 = fb.cols := by
    rw [UInt32.le_iff_toNat_le, hright]
    simp only [Framebuffer.cols]
    omega
  rw [graphicsPutchar, Terminal.put]
  by_cases hc : c = 10
  · simp only [if_pos hc]
    exact shows_settled hfits (t := t.newline) (s := ⟨0, s.cursorY + 16, s.mem⟩) rfl hdown hfirst
      h.row h.picture
  · simp only [if_neg hc]
    by_cases hlast : t.col + 1 = fb.cols
    · rw [if_pos hlast, if_pos (hiff.mpr hlast)]
      exact shows_settled hfits (t := Terminal.newline ⟨_, t.row, _⟩) rfl hdown hfirst h.row
        fun x y hx hy => h.draw hfits c fg bg hx hy
    · rw [if_neg hlast, if_neg (mt hiff.mp hlast)]
      refine shows_settled hfits hright hcy ?_ h.row.le fun x y hx hy => h.draw hfits c fg bg hx hy
      simp only [Framebuffer.cols] at hlast ⊢
      omega

theorem graphicsPutchar_outside (c : UInt8) (fg bg : UInt32) (s : Screen) {a : ℕ}
    (ha : ¬ fb.Visible a) :
    (graphicsPutchar fb font c fg bg s).mem a = s.mem a := by
  have hdraw := blit_outside hfits s.cursorX s.cursorY 8 16 (glyphColor font c fg bg) s.mem ha
  rw [← graphicsDrawChar_eq_blit] at hdraw
  simp only [graphicsPutchar]
  split_ifs <;> first | rfl | exact hdraw

end Terminal

end XldKernel.Console
